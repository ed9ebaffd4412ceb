import CppUtil.HttpServer.Sessions

/-!
# Runs of the loop

Nothing that the peers, the kernel and the allocator do makes the loop touch
memory that is not its own: `loop_refines_sessions` and `loop_accounts` hold of
all runs. But a connection whose context is at an address that has the listening
descriptor in its lower half is never served (`misled_never_served`).
-/

namespace CppUtil.HttpServer

open Lang (Str Memory)
open Lib

section
variable {h : HttpEpollEventHandler} {inUse : Fd → Bool} {listenSocketFd fd : Fd} {leaked : Prop}
variable {s : Loop} {g g' : Placed} {b : Block} {conn : Connection} {os calls : List Call}

def LoopState.At (h : HttpEpollEventHandler) (inUse : Fd → Bool) (listenSocketFd : Fd)
    (os : List Call) (g : Placed) : LoopState → Prop
  | .running s => s.Ok inUse listenSocketFd (.released 0 ∈ os) g ∧
      (Sessions.machine h).run (fun _ => none) os = some (g.sessions, [])
  | .undefined => False

theorem Loop.Ok.init (hused : inUse listenSocketFd = true)
    (hdata : (data.setWidth 32).toInt = (listenSocketFd : Int)) :
    Ok inUse listenSocketFd (.released 0 ∈ ([] : List Call)) (.init inUse listenSocketFd data)
      fun _ => none where
  owns := .empty
  tends _ _ _ hg := by cases hg
  others _ hne _ := by simp [Loop.init, hne]
  listening := ⟨⟨true, false, data⟩, by simp [Loop.init], hdata⟩
  listenUsed := hused
  events _ he := by cases he
  once := .nil
  opened _ := by simp [Loop.init]

theorem LoopState.At.step {st st' : LoopState} {act : LoopAct}
    (hat : st.At h inUse listenSocketFd os g)
    (hstep : (machine h listenSocketFd maxEvents).step st act = some (st', calls)) :
    ∃ g', st'.At h inUse listenSocketFd (os ++ calls) g' ∧ g.Spares listenSocketFd g' calls := by
  cases st with
  | undefined => exact hat.elim
  | running s =>
    obtain ⟨hs, hrun⟩ := hat
    cases act with
    | wait fds =>
      obtain ⟨hfds, he⟩ := Option.ite_none_right_eq_some.mp hstep
      cases he
      rw [List.append_nil]
      exact ⟨g, ⟨hs.wait hfds, hrun⟩, .refl g⟩
    | handle ans =>
      cases hevents : s.events with
      | nil => simp [machine, LoopState.step, hevents] at hstep
      | cons e rest =>
        have hgives := hs.gives_handleEvent h ans hevents
        simp only [machine, LoopState.step, hevents] at hstep
        split at hstep
        · next hr =>
          cases hstep
          obtain ⟨g', hf⟩ := hgives.of_eq_ok hr
          exact ⟨g', ⟨hf.ok.congr (by simp),
            Machine.run_append_iff.mpr ⟨_, _, _, hrun, hf.run, rfl⟩⟩, hf.spares⟩
        · cases hstep
        · next hr => exact absurd hr hgives.not_undefined

theorem LoopState.At.run (hused : inUse listenSocketFd = true)
    (hdata : (data.setWidth 32).toInt = (listenSocketFd : Int))
    (hrun : (machine h listenSocketFd maxEvents).run (.running (.init inUse listenSocketFd data)) as =
      some (st, os)) : ∃ g, st.At h inUse listenSocketFd os g := by
  refine @Machine.run_keeps _ _ _ _ [] [] _ _ _ _ (fun _ _ => True)
    (fun _ os st => ∃ g, st.At h inUse listenSocketFd os g) ?_
    ⟨_, .init hused hdata, rfl⟩ .trivial hrun
  rintro - os st act calls st' ⟨g, hat⟩ - hstep
  obtain ⟨g', hat', -⟩ := hat.step hstep
  exact ⟨g', hat'⟩

theorem LoopState.At.run_spares {st st' : LoopState} (hat : st.At h inUse listenSocketFd os g)
    (hrun : (machine h listenSocketFd maxEvents).run st as = some (st', calls)) :
    ∃ g', st'.At h inUse listenSocketFd (os ++ calls) g' ∧ g.Spares listenSocketFd g' calls := by
  refine @Machine.run_keeps _ _ _ _ [] [] _ _ _ _ (fun _ _ => True)
    (fun _ calls st => ∃ g', st.At h inUse listenSocketFd (os ++ calls) g' ∧
      g.Spares listenSocketFd g' calls) ?_ ⟨g, by simpa using hat, .refl g⟩ .trivial hrun
  rintro - calls st act more st' ⟨g', hat', hspares⟩ - hstep
  obtain ⟨g'', hat'', hspares'⟩ := hat'.step hstep
  rw [List.append_assoc] at hat''
  exact ⟨g'', hat'', hspares.trans hspares'⟩

-- ---------------------------------------------------------------------------
-- What can be read off the state
-- ---------------------------------------------------------------------------

namespace Loop.Ok

theorem block_some (hok : s.Ok inUse listenSocketFd leaked g) (hg : g fd = some (b, conn)) :
    s.block fd = some b ∧ s.context fd = some conn.ctx := by
  have htends := hok.tends fd b conn hg
  obtain ⟨e, he, hdata⟩ := htends.registered
  have hblock : s.block fd = some b := by
    simp [block, he, hdata, eventContext_eq htends.holds.ctx, httpContext_eq htends.holds.http,
      Except.toOption]
  refine ⟨hblock, ?_⟩
  simp [context, hblock, request_eq htends.holds.req, response_eq htends.holds.resp,
    Except.toOption]

theorem block_none (hok : s.Ok inUse listenSocketFd leaked g) (hne : fd ≠ listenSocketFd)
    (hg : g fd = none) : s.block fd = none ∧ s.context fd = none := by
  have hblock : s.block fd = none := by simp [block, hok.others fd hne hg]
  exact ⟨hblock, by simp [context, hblock]⟩

theorem objects_eq (hok : s.Ok inUse listenSocketFd leaked g) (hne : fd ≠ listenSocketFd) :
    s.objects fd = g.own fd := by
  cases hg : g fd with
  | none => rw [objects, (hok.block_none hne hg).1, Placed.own_none hg]; rfl
  | some x => rw [objects, (hok.block_some hg).1, Placed.own_some hg]; rfl

theorem registered_iff (hok : s.Ok inUse listenSocketFd leaked g) (hne : fd ≠ listenSocketFd) :
    (s.registered fd).isSome ↔ (g fd).isSome := by
  cases hg : g fd with
  | none => simp [hok.others fd hne hg]
  | some x =>
    obtain ⟨e, he, -⟩ := (hok.tends fd x.1 x.2 hg).registered
    simp [he]

end Loop.Ok

end

/-- The calls are those of `Sessions`, and the memory holds the contexts of its
connections. -/
theorem loop_refines_sessions (h : HttpEpollEventHandler) (inUse : Fd → Bool)
    (listenSocketFd : Fd) (maxEvents : Nat) (data : BitVec 64)
    (hused : inUse listenSocketFd = true)
    (hdata : (data.setWidth 32).toInt = (listenSocketFd : Int)) (as : List LoopAct)
    (hrun : (LoopState.machine h listenSocketFd maxEvents).run
      (.running (.init inUse listenSocketFd data)) as = some (st, os)) :
    ∃ s conns, st = .running s ∧ (Sessions.machine h).run (fun _ => none) os = some (conns, []) ∧
      ∀ fd, fd ≠ listenSocketFd →
        s.context fd = (conns fd).map Connection.ctx ∧
        ((s.registered fd).isSome ↔ ∃ conn, conns fd = some conn ∧ conn.closed = false) := by
  obtain ⟨g, hat⟩ := LoopState.At.run hused hdata hrun
  cases st with
  | undefined => exact hat.elim
  | running s =>
    obtain ⟨hs, hcalls⟩ := hat
    refine ⟨s, g.sessions, rfl, hcalls, fun fd hne => ?_⟩
    rw [hs.registered_iff hne, Placed.sessions]
    cases hg : g fd with
    | none => simp [(hs.block_none hne hg).2]
    | some x =>
      have hopen := (hs.tends fd x.1 x.2 hg).isOpen
      simp [(hs.block_some hg).2, hopen]

/-- A connection asks for a page, and gets its answer; another one comes
meanwhile and goes. `Clear` is given the addresses it has freed, the other way
round. -/
def twoConnections : List LoopAct :=
  [.wait [(3, true, false)],
   .handle { accepted := some 5, ctx := 16#64, http := 32#64, req := 48#64, resp := 64#64 },
   .wait [(3, true, false), (5, true, false)],
   .handle { accepted := some 6, ctx := 80#64, http := 96#64, req := 112#64, resp := 128#64 },
   .handle { received := "GET /a HTTP/1.1\r\nConnection: keep-alive\r\n\r\n".toList },
   .wait [(5, false, true), (6, true, false)],
   .handle { nWrite := 151, req := 64#64, resp := 48#64 },
   .handle { received := [] }]

theorem loop_refines_sessions_twoConnections :
    ∃ s os conns, (LoopState.machine ⟨∅⟩ 3 8).run (.running (.init (· ≤ 3) 3 0x700000003#64))
        twoConnections = some (.running s, os) ∧
      (Sessions.machine ⟨∅⟩).run (fun _ => none) os = some (conns, []) ∧
      s.context 5 = (conns 5).map Connection.ctx := by
  have hsome : ((LoopState.machine ⟨∅⟩ 3 8).run (.running (.init (· ≤ 3) 3 0x700000003#64))
      twoConnections).isSome = true := by decide +kernel
  obtain ⟨⟨st, os⟩, hrun⟩ := Option.isSome_iff_exists.mp hsome
  obtain ⟨s, conns, rfl, hcalls, hcontext⟩ := loop_refines_sessions ⟨∅⟩ (· ≤ 3) 3 8 0x700000003#64
    (by decide) (by decide) twoConnections hrun
  exact ⟨s, os, conns, hrun, hcalls, (hcontext 5 (by decide)).1⟩

/-- No object is used that is not there; an object is in memory exactly if it is one of
the four of a connection, and of one only; an event that is still to be handled
is of a connection; and of the descriptors that were not in use before, those of
the connections are open, and 0 if it has been released. -/
theorem loop_accounts (h : HttpEpollEventHandler) (inUse : Fd → Bool)
    (listenSocketFd : Fd) (maxEvents : Nat) (data : BitVec 64)
    (hused : inUse listenSocketFd = true)
    (hdata : (data.setWidth 32).toInt = (listenSocketFd : Int)) (as : List LoopAct)
    (hrun : (LoopState.machine h listenSocketFd maxEvents).run
      (.running (.init inUse listenSocketFd data)) as = some (st, os)) :
    ∃ s, st = .running s ∧
      (∀ p, (s.memory p).isSome ↔ ∃! fd, fd ≠ listenSocketFd ∧ p ∈ s.objects fd) ∧
      (∀ fd, fd ≠ listenSocketFd → (s.objects fd).Nodup ∧
        (s.objects fd).length = if (s.registered fd).isSome then 4 else 0) ∧
      (∀ e ∈ s.events, e.fd ≠ (listenSocketFd : Int) →
        ∃ fd e', s.registered fd = some e' ∧ e'.data = e.data) ∧
      ∀ fd, s.isOpen fd = true ↔
        inUse fd = true ∨ (s.registered fd).isSome ∨ (fd = 0 ∧ .released 0 ∈ os) := by
  obtain ⟨g, hat⟩ := LoopState.At.run hused hdata hrun
  cases st with
  | undefined => exact hat.elim
  | running s =>
    obtain ⟨hs, -⟩ := hat
    refine ⟨s, rfl, fun p => ?_, fun fd hne => ?_, fun e he hfd => ?_, fun fd => ?_⟩
    · rw [hs.owns.live]
      constructor
      · rintro ⟨fd, hp⟩
        have hne : fd ≠ listenSocketFd := by
          rintro rfl
          rw [Placed.own_none (hs.listen_none)] at hp
          cases hp
        refine ⟨fd, ⟨hne, hs.objects_eq hne ▸ hp⟩, ?_⟩
        rintro fd' ⟨hne', hp'⟩
        rw [hs.objects_eq hne'] at hp'
        exact hs.owns.apart hp' hp
      · rintro ⟨fd, ⟨hne, hp⟩, -⟩
        exact ⟨fd, hs.objects_eq hne ▸ hp⟩
    · rw [hs.objects_eq hne]
      refine ⟨hs.owns.nodup fd, ?_⟩
      simp only [hs.registered_iff hne]
      cases hg : g fd with
      | none => simp [Placed.own_none hg]
      | some x => simp [Placed.own_some hg, Block.ptrs]
    · obtain ⟨fd, b, conn, hg, hctx⟩ := hs.events e he hfd
      obtain ⟨e', he', hdata'⟩ := (hs.tends fd b conn hg).registered
      exact ⟨fd, e', he', hdata'.trans hctx.symm⟩
    · rw [hs.opened]
      by_cases hne : fd = listenSocketFd
      · simp [hne, hused]
      · rw [hs.registered_iff hne]

theorem loop_accounts_twoConnections :
    ∃ s os, (LoopState.machine ⟨∅⟩ 3 8).run (.running (.init (· ≤ 3) 3 0x700000003#64))
        twoConnections = some (.running s, os) ∧
      (s.objects 5).length = 4 ∧ (s.objects 6).length = 0 ∧ s.isOpen 6 = false ∧
      ∀ p, (s.memory p).isSome ↔ ∃! fd, fd ≠ 3 ∧ p ∈ s.objects fd := by
  have hsome : ((LoopState.machine ⟨∅⟩ 3 8).run (.running (.init (· ≤ 3) 3 0x700000003#64))
      twoConnections).map (fun r => match r.1 with
        | .running s => ((s.registered 5).isSome, (s.registered 6).isSome)
        | .undefined => (false, false)) = some (true, false) := by decide +kernel
  obtain ⟨⟨st, os⟩, hrun, hopen⟩ := Option.map_eq_some_iff.mp hsome
  obtain ⟨s, rfl, hmemory, hobjects, -, hopened⟩ := loop_accounts ⟨∅⟩ (· ≤ 3) 3 8 0x700000003#64
    (by decide) (by decide) twoConnections hrun
  simp only [Prod.mk.injEq] at hopen
  have hfive := (hobjects 5 (by decide)).2
  have hsix := (hobjects 6 (by decide)).2
  rw [hopen.1, if_pos rfl] at hfive
  rw [hopen.2, if_neg (by decide)] at hsix
  refine ⟨s, os, hrun, hfive, hsix, ?_, hmemory⟩
  rw [← Bool.not_eq_true, hopened]
  simp [hopen.2]

/-- A connection whose events look like the listening socket's: whatever
follows, nothing is received from it or sent to it, it is not released, and its
context stays as it is. -/
theorem misled_never_served (h : HttpEpollEventHandler) (inUse : Fd → Bool)
    (listenSocketFd : Fd) (maxEvents : Nat) (data : BitVec 64)
    (hused : inUse listenSocketFd = true)
    (hdata : (data.setWidth 32).toInt = (listenSocketFd : Int)) (as bs : List LoopAct)
    (hrun : (LoopState.machine h listenSocketFd maxEvents).run
      (.running (.init inUse listenSocketFd data)) as = some (.running s, os))
    (hmore : (LoopState.machine h listenSocketFd maxEvents).run (.running s) bs = some (st, calls))
    (hfd : fd ≠ listenSocketFd) (hr : s.registered fd = some e)
    (hmisled : e.fd = (listenSocketFd : Int)) :
    (∀ call ∈ calls, call.fd ≠ fd) ∧
      ∃ s' e', st = .running s' ∧ s'.registered fd = some e' ∧ e'.data = e.data ∧
        s'.context fd = s.context fd := by
  obtain ⟨g, hat⟩ := LoopState.At.run hused hdata hrun
  obtain ⟨g', hat', hspares⟩ := hat.run_spares hmore
  obtain ⟨hs, -⟩ := hat
  have hsome : (g fd).isSome := (hs.registered_iff hfd).mp (by rw [hr]; rfl)
  obtain ⟨⟨b, conn⟩, hg⟩ := Option.isSome_iff_exists.mp hsome
  obtain ⟨e₁, he₁, hctx⟩ := (hs.tends fd b conn hg).registered
  rw [hr] at he₁
  cases he₁
  obtain ⟨hg', hcalls⟩ := hspares fd b conn hg (by rwa [Block.Misled, ← hctx])
  cases st with
  | undefined => exact hat'.elim
  | running s' =>
    obtain ⟨hs', -⟩ := hat'
    obtain ⟨e', he', hctx'⟩ := (hs'.tends fd b conn hg').registered
    exact ⟨hcalls, s', e', rfl, he', hctx'.trans hctx.symm,
      (hs'.block_some hg').2.trans (hs.block_some hg).2.symm⟩

/-- The listening descriptor is 48, and the context of the connection is put at
the address 0x700000030. -/
def misledAccept : List LoopAct :=
  [.wait [(48, true, false)],
   .handle { accepted := some 49, ctx := 0x700000030#64, http := 16#64, req := 32#64, resp := 64#64 }]

def misledRequest : List LoopAct :=
  [.wait [(49, true, false)], .handle { received := "GET / HTTP/1.1\r\n\r\n".toList }]

theorem misled_never_served_request :
    ∃ s os st calls, (LoopState.machine ⟨∅⟩ 48 8).run (.running (.init (· ≤ 48) 48 0x30#64))
        misledAccept = some (.running s, os) ∧
      (LoopState.machine ⟨∅⟩ 48 8).run (.running s) misledRequest = some (st, calls) ∧
      ∀ call ∈ calls, call.fd ≠ 49 := by
  have hsome : ((LoopState.machine ⟨∅⟩ 48 8).run (.running (.init (· ≤ 48) 48 0x30#64))
      misledAccept).bind (fun r => match r.1 with
        | .running s => some ((s.registered 49).map EpollEvent.fd,
          ((LoopState.machine ⟨∅⟩ 48 8).run (.running s) misledRequest).isSome)
        | .undefined => none) = some (some 48, true) := by decide +kernel
  obtain ⟨⟨st, os⟩, hrun, hst⟩ := Option.bind_eq_some_iff.mp hsome
  cases st with
  | undefined => cases hst
  | running s =>
    simp only [Option.some.injEq, Prod.mk.injEq] at hst
    obtain ⟨e, he, hfd⟩ := Option.map_eq_some_iff.mp hst.1
    obtain ⟨⟨st', calls⟩, hmore⟩ := Option.isSome_iff_exists.mp hst.2
    have hserved := misled_never_served ⟨∅⟩ (· ≤ 48) 48 8 0x30#64 (by decide) (by decide)
      misledAccept misledRequest hrun hmore (by decide : 49 ≠ 48) he hfd
    exact ⟨s, os, st', calls, hrun, hmore, hserved.1⟩

end CppUtil.HttpServer

import CppUtil.HttpServer.Loop

/-!
# The connections of the loop, each on its own

What the peers should see of a server is a `Connection` for each descriptor:
`Sessions`, which has no memory and no pointers. `Loop.Ok` says how the loop has
them in its memory, and `Loop.Follows` that it has moved as `Sessions` does.
-/

namespace CppUtil.HttpServer

open Lang (Str Ptr Stop Memory nullptr Gives Turns Owns)
open Lib

abbrev Sessions := Fd → Option Connection

namespace Sessions

def step (h : HttpEpollEventHandler) (conns : Sessions) : Call → Option (Sessions × List Empty)
  | .accepted fd added =>
    if (conns fd).isNone then
      some (Function.update conns fd (some { closed := !added }), [])
    else none
  | .received fd bytes =>
    (conns fd).bind fun conn =>
      if conn.closed = false then
        some (Function.update conns fd (some (conn.handleReadableEvent h bytes)), [])
      else none
  | .sent fd buffer nWrite =>
    (conns fd).bind fun conn =>
      if conn.closed = false ∧ buffer = conn.ctx.toSend.2.1 ∧ nWrite ≤ buffer.length then
        some (Function.update conns fd (some (conn.handleWriteableEvent nWrite)), [])
      else none
  | .released fd =>
    (conns fd).bind fun conn =>
      if conn.closed = true then some (Function.update conns fd none, []) else none

def machine (h : HttpEpollEventHandler) : Machine Sessions Call Empty := ⟨step h⟩

variable {h : HttpEpollEventHandler} {conns : Sessions} {conn conn' : Connection}

theorem run_received (hconn : conns fd = some conn) (hopen : conn.closed = false) (bytes : Str) :
    (machine h).run conns [.received fd bytes] =
      some (Function.update conns fd (some (conn.handleReadableEvent h bytes)), []) := by
  simp [Machine.run, machine, step, hconn, hopen]

theorem run_sent (hconn : conns fd = some conn) (hopen : conn.closed = false)
    (hbuffer : buffer = conn.ctx.toSend.2.1) (hn : nWrite ≤ (buffer.length : Int)) :
    (machine h).run conns [.sent fd buffer nWrite] =
      some (Function.update conns fd (some (conn.handleWriteableEvent nWrite)), []) := by
  rw [hbuffer] at hn
  simp [Machine.run, machine, step, hconn, hopen, hbuffer, hn]

theorem run_accepted (hconn : conns fd = none) (added : Bool) :
    (machine h).run conns [.accepted fd added] =
      some (Function.update conns fd (some { closed := !added }), []) := by
  simp [Machine.run, machine, step, hconn]

theorem run_released
    (hrun : (machine h).run conns [call] = some (Function.update conns fd (some conn'), []))
    (hclosed : conn'.closed = true) :
    (machine h).run conns [call, .released fd] = some (Function.update conns fd none, []) := by
  refine Machine.run_append_iff.mpr ⟨_, [], [], hrun, ?_, rfl⟩
  simp [Machine.run, machine, step, hclosed]

end Sessions

-- ---------------------------------------------------------------------------
-- What the loop keeps up
-- ---------------------------------------------------------------------------

abbrev Placed := Fd → Option (Block × Connection)

namespace Placed

def own (g : Placed) (fd : Fd) : List Ptr :=
  match g fd with
  | some (b, _) => b.ptrs
  | none => []

def sessions (g : Placed) : Sessions := fun fd => (g fd).map Prod.snd

theorem own_some {g : Placed} (hg : g fd = some (b, conn)) : g.own fd = b.ptrs := by
  rw [own, hg]

theorem own_none {g : Placed} (hg : g fd = none) : g.own fd = [] := by
  rw [own, hg]

theorem own_update (g : Placed) (fd : Fd) (x : Option (Block × Connection)) :
    own (Function.update g fd x) =
      Function.update g.own fd (match x with | some (b, _) => b.ptrs | none => []) := by
  funext fd'
  by_cases h : fd' = fd
  · subst h
    simp [own]
  · simp [own, h]

theorem sessions_update (g : Placed) (fd : Fd) (x : Option (Block × Connection)) :
    sessions (Function.update g fd x) = Function.update g.sessions fd (x.map Prod.snd) := by
  funext fd'
  by_cases h : fd' = fd
  · subst h
    simp [sessions]
  · simp [sessions, h]

end Placed

structure Loop.Tends (inUse : Fd → Bool) (listenSocketFd : Fd) (s : Loop) (fd : Fd) (b : Block)
    (conn : Connection) : Prop where
  holds : b.Holds s.memory fd conn.ctx
  isOpen : conn.closed = false
  registered : ∃ e, s.registered fd = some e ∧ e.data = b.ctx
  unused : inUse fd = false

/-- `leaked` says that descriptor 0 was not closed with its connection. -/
structure Loop.Ok (inUse : Fd → Bool) (listenSocketFd : Fd) (leaked : Prop) (s : Loop)
    (g : Placed) : Prop where
  owns : Owns s.memory g.own
  tends : ∀ fd b conn, g fd = some (b, conn) → s.Tends inUse listenSocketFd fd b conn
  others : ∀ fd, fd ≠ listenSocketFd → g fd = none → s.registered fd = none
  listening : ∃ e, s.registered listenSocketFd = some e ∧ e.fd = (listenSocketFd : Int)
  listenUsed : inUse listenSocketFd = true
  events : ∀ e ∈ s.events, e.fd ≠ (listenSocketFd : Int) →
    ∃ fd b conn, g fd = some (b, conn) ∧ e.data = b.ctx
  once : s.events.Pairwise fun e e' => e.fd ≠ (listenSocketFd : Int) → e.data ≠ e'.data
  opened : ∀ fd, s.isOpen fd = true ↔ inUse fd = true ∨ (g fd).isSome ∨ (fd = 0 ∧ leaked)

section
variable {inUse : Fd → Bool} {listenSocketFd fd : Fd} {leaked : Prop} {s s' : Loop} {g : Placed}
variable {m' : Memory Object} {b b' : Block} {conn conn' : Connection} {e : EpollEvent}

theorem Loop.Tends.congr (ht : s.Tends inUse listenSocketFd fd b conn)
    (hm : ∀ p ∈ b.ptrs, s'.memory p = s.memory p) (hr : s'.registered fd = s.registered fd) :
    s'.Tends inUse listenSocketFd fd b conn :=
  ⟨ht.holds.congr hm, ht.isOpen, hr ▸ ht.registered, ht.unused⟩

namespace Loop.Ok

theorem ne_listen (hok : s.Ok inUse listenSocketFd leaked g) (hg : g fd = some (b, conn)) :
    fd ≠ listenSocketFd := by
  rintro rfl
  have hunused := (hok.tends fd b conn hg).unused
  rw [hok.listenUsed] at hunused
  cases hunused

theorem listen_none (hok : s.Ok inUse listenSocketFd leaked g) : g listenSocketFd = none := by
  by_contra hg
  obtain ⟨x, hg⟩ := Option.ne_none_iff_exists'.mp hg
  exact hok.ne_listen hg rfl

theorem set (hok : s.Ok inUse listenSocketFd leaked g) (hne : fd ≠ listenSocketFd)
    (ht : Turns s.memory s'.memory (g.own fd) (Placed.own (fun _ => x) fd))
    (hr : ∀ fd', fd' ≠ fd → s'.registered fd' = s.registered fd') (hevents : s'.events = s.events)
    (hleft : ∀ b conn, g fd = some (b, conn) → ∀ e ∈ s.events, e.data ≠ b.ctx)
    (hopened : ∀ fd', s'.isOpen fd' = true ↔
      inUse fd' = true ∨ (Function.update g fd x fd').isSome ∨ (fd' = 0 ∧ leaked'))
    (hsome : ∀ b conn, x = some (b, conn) → s'.Tends inUse listenSocketFd fd b conn)
    (hnone : x = none → s'.registered fd = none) :
    s'.Ok inUse listenSocketFd leaked' (Function.update g fd x) where
  owns := by
    rw [Placed.own_update]
    exact hok.owns.turns ht
  tends fd' b conn hg' := by
    by_cases hfd : fd' = fd
    · subst hfd
      rw [Function.update_self] at hg'
      exact hsome b conn hg'
    · rw [Function.update_of_ne hfd] at hg'
      refine (hok.tends fd' b conn hg').congr (fun p hp => ?_) (hr fd' hfd)
      exact hok.owns.frame ht hfd (Placed.own_some hg' ▸ hp)
  others fd' hlisten hg' := by
    by_cases hfd : fd' = fd
    · subst hfd
      rw [Function.update_self] at hg'
      exact hnone hg'
    · rw [Function.update_of_ne hfd] at hg'
      rw [hr fd' hfd]
      exact hok.others fd' hlisten hg'
  listening := by
    rw [hr _ hne.symm]
    exact hok.listening
  listenUsed := hok.listenUsed
  events e he hfd := by
    rw [hevents] at he
    obtain ⟨fd', b, conn, hg', hdata⟩ := hok.events e he hfd
    refine ⟨fd', b, conn, (Function.update_of_ne ?_ ..).trans hg', hdata⟩
    rintro rfl
    exact hleft b conn hg' e he hdata
  once := hevents ▸ hok.once
  opened := hopened

theorem turn (hok : s.Ok inUse listenSocketFd leaked g) (hg : g fd = some (b, conn))
    (hb : b'.Made s.memory b.ptrs m' fd conn'.ctx) (hctx : b'.ctx = b.ctx)
    (hopen : conn'.closed = false) (hleft : ∀ e ∈ s.events, e.data ≠ b.ctx)
    (hdata : e.data = b.ctx) :
    Ok inUse listenSocketFd leaked (modify fd e modified { s with memory := m' })
      (Function.update g fd (some (b', conn'))) := by
  have htends := hok.tends fd b conn hg
  obtain ⟨s', hs', hm, hevents, hisOpen, hothers, hself⟩ : ∃ s',
      modify fd e modified { s with memory := m' } = s' ∧ s'.memory = m' ∧ s'.events = s.events ∧
      s'.isOpen = s.isOpen ∧ (∀ fd', fd' ≠ fd → s'.registered fd' = s.registered fd') ∧
      ∃ e', s'.registered fd = some e' ∧ e'.data = b.ctx := by
    refine ⟨_, rfl, ?_⟩
    rw [modify]
    split
    · exact ⟨rfl, rfl, rfl, fun fd' hne => Function.update_of_ne hne .., e,
        Function.update_self .., hdata⟩
    · exact ⟨rfl, rfl, rfl, fun _ _ => rfl, htends.registered⟩
  rw [hs']
  refine hok.set (hok.ne_listen hg) ?_ hothers hevents ?_ (fun fd' => ?_) ?_ (by rintro ⟨⟩)
  · rw [hm, Placed.own_some hg]
    exact hb.turns
  · rintro _ _ hg'
    rw [hg] at hg'
    cases hg'
    exact hleft
  · rw [hisOpen, hok.opened]
    by_cases hfd : fd' = fd
    · subst hfd
      simp [hg]
    · rw [Function.update_of_ne hfd]
  · rintro _ _ ⟨⟩
    exact ⟨hm ▸ hb.toHolds, hopen, hctx ▸ hself, htends.unused⟩

theorem release (hok : s.Ok inUse listenSocketFd leaked g) (hg : g fd = some (b, conn))
    (ht : Turns s.memory m' b.ptrs []) (hleft : ∀ e ∈ s.events, e.data ≠ b.ctx) :
    Ok inUse listenSocketFd (leaked ∨ fd = 0)
      { s with
        memory := m'
        registered := Function.update s.registered fd none
        isOpen := if fd > 0 then Function.update s.isOpen fd false else s.isOpen }
      (Function.update g fd none) := by
  have hunused := (hok.tends fd b conn hg).unused
  refine hok.set (hok.ne_listen hg) (Placed.own_some hg ▸ ht)
    (fun _ hne => Function.update_of_ne hne ..) rfl ?_ (fun fd' => ?_) (by rintro _ _ ⟨⟩)
    fun _ => Function.update_self ..
  · rintro _ _ hg'
    rw [hg] at hg'
    cases hg'
    exact hleft
  · have hopened := hok.opened fd'
    have hself := hok.opened fd
    grind

theorem unused (hok : s.Ok inUse listenSocketFd leaked g) (hfree : s.isOpen fd = false) :
    fd ≠ listenSocketFd ∧ inUse fd = false ∧ g fd = none := by
  have hopened := hok.opened fd
  simp only [hfree, Bool.false_eq_true, false_iff, not_or, Bool.not_eq_true,
    Option.isSome_eq_false_iff, Option.isNone_iff_eq_none] at hopened
  obtain ⟨hunused, hnone, -⟩ := hopened
  refine ⟨?_, hunused, hnone⟩
  rintro rfl
  rw [hok.listenUsed] at hunused
  cases hunused

theorem accept (hok : s.Ok inUse listenSocketFd leaked g) (hfree : s.isOpen fd = false)
    (hb : b.Made s.memory [] m' fd {}) (hdata : e.data = b.ctx) :
    Ok inUse listenSocketFd leaked
      { s with
        memory := m'
        isOpen := Function.update s.isOpen fd true
        registered := Function.update s.registered fd (some e) }
      (Function.update g fd (some (b, {}))) := by
  have hopened := hok.opened
  obtain ⟨hne, hunused, hnone⟩ := hok.unused hfree
  refine hok.set hne (Placed.own_none hnone ▸ hb.turns)
    (fun _ hne => Function.update_of_ne hne ..) rfl ?_ (fun fd' => ?_) ?_ (by rintro ⟨⟩)
  · rintro _ _ hg
    rw [hnone] at hg
    cases hg
  · grind
  · rintro _ _ ⟨⟩
    exact ⟨hb.toHolds, rfl, ⟨e, Function.update_self .., hdata⟩, hunused⟩

theorem refuse (hok : s.Ok inUse listenSocketFd leaked g) (hfree : s.isOpen fd = false)
    (ht : Turns s.memory m' [] []) :
    Ok inUse listenSocketFd (leaked ∨ fd = 0)
      { s with
        memory := m'
        registered := Function.update s.registered fd none
        isOpen := if fd > 0 then Function.update (Function.update s.isOpen fd true) fd false
          else Function.update s.isOpen fd true } g := by
  have hopened := hok.opened
  obtain ⟨hne, hunused, hnone⟩ := hok.unused hfree
  rw [← Function.update_eq_self fd g, hnone]
  refine hok.set hne (Placed.own_none hnone ▸ ht)
    (fun _ hne => Function.update_of_ne hne ..) rfl ?_ (fun fd' => ?_) (by rintro _ _ ⟨⟩)
    fun _ => Function.update_self ..
  · rintro _ _ hg
    rw [hnone] at hg
    cases hg
  · grind

theorem congr (hok : s.Ok inUse listenSocketFd leaked g) (hiff : leaked ↔ leaked') :
    s.Ok inUse listenSocketFd leaked' g :=
  propext hiff ▸ hok

end Loop.Ok

-- ---------------------------------------------------------------------------
-- One event
-- ---------------------------------------------------------------------------

/-- The data of the events of this connection look like the listening socket's. -/
def Block.Misled (listenSocketFd : Fd) (b : Block) : Prop :=
  (b.ctx.setWidth 32).toInt = (listenSocketFd : Int)

/-- Nothing was done about the connections whose events look like the listening
socket's. -/
def Placed.Spares (listenSocketFd : Fd) (g g' : Placed) (calls : List Call) : Prop :=
  ∀ fd b conn, g fd = some (b, conn) → b.Misled listenSocketFd →
    g' fd = some (b, conn) ∧ ∀ call ∈ calls, call.fd ≠ fd

theorem Placed.Spares.refl (g : Placed) : Spares listenSocketFd g g [] :=
  fun _ _ _ hg _ => ⟨hg, by simp⟩

theorem Placed.Spares.update {calls : List Call}
    (hg : ∀ b conn, g fd = some (b, conn) → ¬b.Misled listenSocketFd)
    (hcalls : ∀ call ∈ calls, call.fd = fd) :
    Spares listenSocketFd g (Function.update g fd x) calls := by
  intro fd' b conn hg' hmisled
  have hne : fd' ≠ fd := by
    rintro rfl
    exact hg b conn hg' hmisled
  exact ⟨(Function.update_of_ne hne ..).trans hg', fun call hcall he => hne (he ▸ hcalls call hcall)⟩

theorem Placed.Spares.trans (h : Spares listenSocketFd g g' calls)
    (h' : Spares listenSocketFd g' g'' calls') : Spares listenSocketFd g g'' (calls ++ calls') := by
  intro fd b conn hg hmisled
  obtain ⟨hg', hcalls⟩ := h fd b conn hg hmisled
  obtain ⟨hg'', hcalls'⟩ := h' fd b conn hg' hmisled
  exact ⟨hg'', List.forall_mem_append.mpr ⟨hcalls, hcalls'⟩⟩

/-- What comes of an event: the connections have moved as `Sessions` does with
the calls that were made. -/
structure Loop.Follows (h : HttpEpollEventHandler) (inUse : Fd → Bool) (listenSocketFd : Fd)
    (leaked : Prop) (g g' : Placed) (r : Loop × List Call) : Prop where
  ok : r.1.Ok inUse listenSocketFd (leaked ∨ .released 0 ∈ r.2) g'
  run : (Sessions.machine h).run g.sessions r.2 = some (g'.sessions, [])
  spares : g.Spares listenSocketFd g' r.2

/-- The event that is handled is of this connection, and those behind it are of
others. -/
structure Loop.Handles (listenSocketFd : Fd) (s : Loop) (g : Placed) (e : EpollEvent) (fd : Fd)
    (b : Block) (conn : Connection) : Prop where
  placed : g fd = some (b, conn)
  left : ∀ e ∈ s.events, e.data ≠ b.ctx
  data : e.data = b.ctx
  right : ¬b.Misled listenSocketFd

theorem Loop.Handles.spares (hh : s.Handles listenSocketFd g e fd b conn) {calls : List Call}
    (hcalls : ∀ call ∈ calls, call.fd = fd) :
    g.Spares listenSocketFd (Function.update g fd x) calls := by
  refine .update ?_ hcalls
  rintro _ _ hg
  rw [hh.placed] at hg
  cases hg
  exact hh.right

theorem Loop.gives_closeAndRelease (hb : b.Made m₀ l s.memory fd c) (hdata : e.data = b.ctx) :
    Gives (s.closeAndRelease e) fun r => ∃ m', Turns m₀ m' l [] ∧
      r = ({ s with
        memory := m'
        registered := Function.update s.registered fd none
        isOpen := if fd > 0 then Function.update s.isOpen fd false else s.isOpen },
        [.released fd]) := by
  rw [closeAndRelease, hdata, if_neg (hb.set b.ctx (by simp [Block.ptrs]))]
  refine hb.gives_onClose.bind ?_
  rintro m₁ ⟨hctx, ht⟩
  refine (Gives.of_eq (eventContext_eq hctx)).bind ?_
  rintro _ rfl
  refine (Gives.delete hctx).bind ?_
  rintro _ rfl
  exact ⟨_, ht.delete, rfl⟩

namespace Loop.Ok

theorem gives_close (hok : s.Ok inUse listenSocketFd leaked g)
    (hh : s.Handles listenSocketFd g e fd b conn)
    (hb : b'.Made s.memory b.ptrs m' fd c) (hctx : b'.ctx = b.ctx)
    (hcall : call ≠ .released 0 ∧ call.fd = fd)
    (hrun : (Sessions.machine h).run g.sessions [call] =
      some (Function.update g.sessions fd (some conn'), []))
    (hclosed : conn'.closed = true) :
    Gives (do
      let (s, calls) ← closeAndRelease e { s with memory := m' }
      .ok (s, call :: calls)) fun r => ∃ g', Follows h inUse listenSocketFd leaked g g' r := by
  refine (gives_closeAndRelease (s := { s with memory := m' }) hb (hh.data.trans hctx.symm)).bind ?_
  rintro _ ⟨m₁, ht, rfl⟩
  refine ⟨_, (hok.release hh.placed ht hh.left).congr ?_, ?_, hh.spares ?_⟩
  · simp [hcall.1.symm, eq_comm]
  · rw [Placed.sessions_update]
    exact Sessions.run_released hrun hclosed
  · simp only [List.forall_mem_cons]
    exact ⟨hcall.2, rfl, by simp⟩

theorem follows_turn (hok : s.Ok inUse listenSocketFd leaked g)
    (hh : s.Handles listenSocketFd g e fd b conn)
    (hb : b'.Made s.memory b.ptrs m' fd conn'.ctx) (hctx : b'.ctx = b.ctx)
    (hcall : call ≠ .released 0 ∧ call.fd = fd)
    (hrun : (Sessions.machine h).run g.sessions [call] =
      some (Function.update g.sessions fd (some conn'), []))
    (hopen : conn'.closed = false) :
    ∃ g', Follows h inUse listenSocketFd leaked g g'
      (modify fd ⟨epollIn, epollOut, b.ctx⟩ modified { s with memory := m' }, [call]) := by
  refine ⟨_, (hok.turn hh.placed hb hctx hopen hh.left rfl).congr ?_, ?_, hh.spares ?_⟩
  · simp [hcall.1.symm]
  · rw [Placed.sessions_update]
    exact hrun
  · simp [hcall.2]

theorem gives_handleReadableEvent (hok : s.Ok inUse listenSocketFd leaked g)
    (hh : s.Handles listenSocketFd g e fd b conn) : Gives (s.handleReadableEvent h ans e)
      fun r => ∃ g', Follows h inUse listenSocketFd leaked g g' r := by
  have htends := hok.tends fd b conn hh.placed
  have hconn : g.sessions fd = some conn := by rw [Placed.sessions, hh.placed]; rfl
  rw [handleReadableEvent, hh.data]
  refine (Gives.of_eq (eventContext_eq htends.holds.ctx)).bind ?_
  rintro _ rfl
  have hrun := Sessions.run_received (h := h) hconn htends.isOpen ans.received
  by_cases hmany : ans.received.length > epollSocketReadBufferSize
  · simp only [if_pos hmany]
    exact .refused
  by_cases hempty : ans.received = []
  · simp only [if_neg hmany, if_pos hempty]
    rw [hempty] at hrun
    exact hok.gives_close hh htends.holds.made rfl ⟨by simp, rfl⟩ hrun
      (by simp [Connection.handleReadableEvent])
  simp only [if_neg hmany, if_neg hempty]
  refine (htends.holds.gives_onReadable h).bind ?_
  rintro ⟨status, m'⟩ ⟨hstatus, hb⟩
  have hclosed := Connection.handleReadableEvent_closed (h := h) hempty htends.isOpen
  rw [← hstatus] at hclosed
  rw [← Connection.handleReadableEvent_ctx hempty] at hb
  cases status with
  | readError | readReachMaxSize =>
    exact hok.gives_close hh hb rfl ⟨by simp, rfl⟩ hrun (hclosed.mpr (by simp))
  | readContinue | readOver =>
    exact hok.follows_turn hh hb rfl ⟨by simp, rfl⟩ hrun (by simpa using hclosed)

theorem gives_handleWriteableEvent (hok : s.Ok inUse listenSocketFd leaked g)
    (hh : s.Handles listenSocketFd g e fd b conn) : Gives (s.handleWriteableEvent ans e)
      fun r => ∃ g', Follows h inUse listenSocketFd leaked g g' r := by
  have htends := hok.tends fd b conn hh.placed
  have hconn : g.sessions fd = some conn := by rw [Placed.sessions, hh.placed]; rfl
  rw [handleWriteableEvent, hh.data]
  refine (Gives.of_eq (eventContext_eq htends.holds.ctx)).bind ?_
  rintro _ rfl
  refine htends.holds.gives_onWriteable.bind ?_
  rintro ⟨status, _, buffer, m'⟩ ⟨hstatus, rfl, hbuffer, hn, b', hctx, hb⟩
  have hrun := Sessions.run_sent (h := h) hconn htends.isOpen hbuffer hn
  have hclosed := Connection.handleWriteableEvent_closed (n := ans.nWrite) htends.isOpen
  rw [← hstatus] at hclosed
  rw [← Connection.handleWriteableEvent_ctx] at hb
  cases status with
  | writeError | writeOver =>
    exact hok.gives_close hh hb hctx ⟨by simp, rfl⟩ hrun (hclosed.mpr (by simp))
  | writeContinue | writeAlive =>
    exact hok.follows_turn hh hb hctx ⟨by simp, rfl⟩ hrun (by simpa using hclosed)

theorem gives_handleAcceptEvent (hok : s.Ok inUse listenSocketFd leaked g) :
    Gives (s.handleAcceptEvent ans)
      fun r => ∃ g', Follows h inUse listenSocketFd leaked g g' r := by
  rw [handleAcceptEvent]
  cases ans.accepted with
  | none => exact ⟨g, hok.congr (by simp), rfl, .refl g⟩
  | some fd =>
    by_cases hopen : s.isOpen fd
    · simp only [if_pos hopen]
      exact .refused
    rw [Bool.not_eq_true] at hopen
    obtain ⟨-, -, hnone⟩ := hok.unused hopen
    have hconn : g.sessions fd = none := by rw [Placed.sessions, hnone]; rfl
    simp only [hopen, Bool.false_eq_true, if_false]
    refine Gives.new.bind ?_
    rintro _ ⟨⟨hset, hfree⟩, rfl⟩
    have ht : Turns s.memory s.memory [] [] := .refl (by simp) .nil
    refine (gives_onAccept (Function.update_self ..) hset (ht.new hfree)).bind ?_
    rintro m' hb
    cases ans.added with
    | true =>
      refine ⟨_, (hok.accept hopen hb rfl).congr (by simp), ?_,
        .update (by simp [hnone]) (by simp [Call.fd])⟩
      rw [Placed.sessions_update]
      exact Sessions.run_accepted hconn true
    | false =>
      refine (gives_closeAndRelease (s := { s with memory := m', isOpen := _ }) hb rfl).bind ?_
      rintro _ ⟨m₁, ht₁, rfl⟩
      have hsame : Function.update g fd none = g := by rw [← hnone, Function.update_eq_self]
      refine ⟨_, hsame.symm ▸ (hok.refuse hopen ht₁).congr (by simp [eq_comm]), ?_,
        .update (by simp [hnone]) (by simp [Call.fd])⟩
      rw [Placed.sessions_update]
      exact Sessions.run_released (Sessions.run_accepted hconn false) rfl

/-- An event that is not the listening socket's is of a connection, and the
events behind it are of others. -/
theorem gives_handleEvent (h : HttpEpollEventHandler) (ans : Answers)
    (hok : s.Ok inUse listenSocketFd leaked g) (hs : s.events = e :: rest) :
    Gives (handleEvent h listenSocketFd ans e { s with events := rest })
      fun r => ∃ g', Follows h inUse listenSocketFd leaked g g' r := by
  have honce := hok.once
  rw [hs, List.pairwise_cons] at honce
  have hok' : Ok inUse listenSocketFd leaked { s with events := rest } g :=
    { hok with
      tends := fun fd b conn hg => (hok.tends fd b conn hg).congr (fun _ _ => rfl) rfl
      events := fun e' he' => hok.events e' (hs ▸ List.mem_cons_of_mem e he')
      once := honce.2 }
  rw [handleEvent]
  by_cases hfd : e.fd = listenSocketFd
  · rw [if_pos hfd]
    exact hok'.gives_handleAcceptEvent
  obtain ⟨fd, b, conn, hg, hdata⟩ := hok.events e (hs ▸ List.mem_cons_self) hfd
  have hh : Handles listenSocketFd { s with events := rest } g e fd b conn := by
    refine ⟨hg, fun e' he' hdata' => ?_, hdata, ?_⟩
    · exact honce.1 e' he' hfd (hdata.trans hdata'.symm)
    · rwa [Block.Misled, ← hdata]
  rw [if_neg hfd]
  split
  · exact hok'.gives_handleReadableEvent hh
  split
  · exact hok'.gives_handleWriteableEvent hh
  · exact ⟨g, hok'.congr (by simp), rfl, .refl g⟩

theorem event_of (hok : s.Ok inUse listenSocketFd leaked g) (hr : s.registered fd = some e)
    (hfd : e.fd ≠ (listenSocketFd : Int)) : ∃ b conn, g fd = some (b, conn) ∧ e.data = b.ctx := by
  have hne : fd ≠ listenSocketFd := by
    rintro rfl
    obtain ⟨e', he', hfd'⟩ := hok.listening
    rw [hr] at he'
    cases he'
    exact hfd hfd'
  cases hg : g fd with
  | none =>
    rw [hok.others fd hne hg] at hr
    cases hr
  | some x =>
    obtain ⟨e', he', hdata⟩ := (hok.tends fd x.1 x.2 hg).registered
    rw [hr] at he'
    cases he'
    exact ⟨x.1, x.2, rfl, hdata⟩

theorem wait (hok : s.Ok inUse listenSocketFd leaked g) (hfds : s.CanWait maxEvents fds) :
    (s.wait fds).Ok inUse listenSocketFd leaked g := by
  obtain ⟨-, -, hnodup, -⟩ := hfds
  refine { hok with
    tends := fun fd b conn hg => (hok.tends fd b conn hg).congr (fun _ _ => rfl) rfl
    events := ?_
    once := List.pairwise_filterMap.mpr ((List.pairwise_map.mp hnodup).imp ?_) }
  · intro e he hfd
    obtain ⟨x, -, hx⟩ := List.mem_filterMap.mp he
    obtain ⟨e', he', rfl⟩ := Option.map_eq_some_iff.mp hx
    obtain ⟨b, conn, hg, hdata⟩ := hok.event_of he' hfd
    exact ⟨x.1, b, conn, hg, hdata⟩
  · rintro x y hne _ hx _ hy hfd hdata
    obtain ⟨e, he, rfl⟩ := Option.map_eq_some_iff.mp hx
    obtain ⟨e', he', rfl⟩ := Option.map_eq_some_iff.mp hy
    obtain ⟨b, conn, hg, hb⟩ := hok.event_of he hfd
    have hfd' : e'.fd ≠ (listenSocketFd : Int) := by
      rw [EpollEvent.fd, ← hdata]
      exact hfd
    obtain ⟨b', conn', hg', hb'⟩ := hok.event_of he' hfd'
    have hmem : b.ctx ∈ g.own x.1 := Placed.own_some hg ▸ List.mem_cons_self
    have hmem' : b'.ctx ∈ g.own y.1 := Placed.own_some hg' ▸ List.mem_cons_self
    have hctx : b.ctx = b'.ctx := hb.symm.trans (hdata.trans hb')
    exact hne (hok.owns.apart hmem (hctx ▸ hmem'))

end Loop.Ok

end

end CppUtil.HttpServer

import CppUtil.Tcp.TcpServer

/-!
# What a client sends is drained

A client without an outstanding event should have nothing left to be read. That
holds throughout a run exactly when no event is handled with more than
`readBufferSize` bytes to be read and the flag down: the rest of the bytes then
stays until the client sends again.
-/

namespace CppUtil.Tcp

open Lang (Str)
open Lib

-- ---------------------------------------------------------------------------
-- The loop over the clients
-- ---------------------------------------------------------------------------

def receives (sockFd : Fd) (buffer : Str) (fds : List Fd) (fd : Fd) (c : Client) : Client :=
  if fd ∈ fds ∧ fd ≠ sockFd then c.write buffer else c

theorem receives_eq : receives sockFd buffer fds fd c =
    { c with written := (receives sockFd buffer fds fd c).written } := by
  rw [receives]
  split <;> rfl

theorem receives_self : receives fd buffer fds fd c = c :=
  if_neg fun h => h.2 rfl

theorem receives_cons (hfd : fd ∉ fds) :
    receives sockFd buffer fds fd' (receives sockFd buffer [fd] fd' c) =
      receives sockFd buffer (fd :: fds) fd' c := by
  by_cases h : fd' = fd
  · subst h
    simp [receives, hfd]
  · simp [receives, h]

theorem write_eq : (if fd ≠ sockFd then write fd buffer p else p) =
    p.mapSockets (receives sockFd buffer [fd]) := by
  by_cases hsock : fd = sockFd
  · subst hsock
    have hsame : ∀ fd' c, receives fd buffer [fd] fd' c = c := by
      intro fd' c
      simp +contextual [receives]
    simp [Poll.mapSockets, hsame]
  · rw [if_pos hsock, write, Poll.set, Poll.mapSockets, Poll.mk.injEq]
    refine ⟨funext fun fd' => ?_, rfl⟩
    by_cases hfd : fd' = fd
    · subst hfd
      simp [receives, hsock]
    · simp [receives, hfd]

theorem forward_eq (hnodup : fds.Nodup) :
    forward sockFd buffer fds p = p.mapSockets (receives sockFd buffer fds) := by
  induction fds generalizing p with
  | nil => simp [forward, Poll.mapSockets, receives]
  | cons fd fds ih =>
    obtain ⟨hfd, hnodup⟩ := List.nodup_cons.mp hnodup
    calc forward sockFd buffer (fd :: fds) p
      _ = forward sockFd buffer fds (p.mapSockets (receives sockFd buffer [fd])) :=
        congrArg (forward sockFd buffer fds) write_eq
      _ = p.mapSockets (receives sockFd buffer (fd :: fds)) := by
        simp only [ih hnodup, Poll.mapSockets_mapSockets, receives_cons hfd]

-- ---------------------------------------------------------------------------
-- What holds in every run
-- ---------------------------------------------------------------------------

def Client.Accounted (c : Client) : Prop := c.sent = c.forwarded ++ c.incoming

structure Ok (s : State) : Prop where
  valid : s.poll.Valid
  nodup : s.table.Nodup
  table : ∀ fd, fd ∈ s.table ↔ (s.poll.watched fd).isSome
  accounted : s.poll.All Client.Accounted

theorem Ok.init : Ok .init where
  valid := ⟨.nil, by simp [State.init, Poll.empty]⟩
  nodup := .nil
  table := by simp [State.init, Poll.empty]
  accounted := .empty

theorem Ok.set (h : Ok s) (hw : s.poll.watched fd = some w) (hc : w'.socket.Accounted) :
    Ok { s with poll := s.poll.set fd (some w') } where
  valid := h.valid.set fun _ => rfl
  nodup := h.nodup
  table fd' := by
    rw [h.table, Poll.isSome_set]
    split
    · subst fd'
      simp [hw]
    · rfl
  accounted := h.accounted.set (by rintro _ ⟨⟩; exact hc)

theorem Ok.handled (h : Ok s) (hb : s.poll.batch = fd :: rest) (hw : s.poll.watched fd = some w)
    (hc : w'.socket.Accounted) : Ok { s with poll := s.poll.handled fd (some w') } where
  valid := h.valid.handled hb
  nodup := h.nodup
  table := (h.set hw hc).table
  accounted := (h.set hw hc).accounted

theorem Client.Accounted.read (h : Client.Accounted c) : c.read.Accounted := by
  rw [Accounted] at h
  simp [Accounted, Client.read, h]

theorem Client.Accounted.receives (h : Client.Accounted c) :
    (receives sockFd buffer fds fd c).Accounted := by
  rw [receives_eq]
  exact h

theorem Ok.forward (h : Ok s) : Ok { s with poll := forward fd buffer s.table s.poll } := by
  rw [forward_eq h.nodup]
  exact {
    valid := h.valid.mapSockets
    nodup := h.nodup
    table := fun fd' => by rw [h.table, Poll.isSome_mapSockets]
    accounted := h.accounted.mapSockets fun _ _ hc => hc.receives }

theorem Ok.step (h : Ok s) (hstep : machine.step s act = some (s', es)) : Ok s' := by
  cases step_moves hstep with
  | @arrive fd w bytes hw =>
    have hc := h.accounted _ _ hw
    rw [Client.Accounted] at hc
    exact h.set hw (by simp [Client.Accounted, Client.arrive, hc])
  | hangUp hw =>
    have hc := h.accounted _ _ hw
    exact h.set hw hc
  | @accept fd bytes eof hw =>
    exact {
      valid := h.valid.set fun _ => rfl
      nodup := h.nodup.insert
      table := fun fd' => by
        simp only [State.acceptEventHandler, List.mem_insert_iff, h.table, Poll.isSome_set]
        split <;> simp [*]
      accounted := h.accounted.set (by rintro _ ⟨⟩; rfl) }
  | wait hfds =>
    exact {
      valid := .wait hfds
      nodup := h.nodup
      table := fun fd => by rw [h.table, Poll.isSome_wait]
      accounted := h.accounted.wait }
  | closed hb hw _ =>
    exact {
      valid := h.valid.handled hb
      nodup := h.nodup.erase _
      table := fun fd' => by
        simp only [h.nodup.mem_erase_iff, h.table, Poll.isSome_handled]
        split <;> simp [*]
      accounted := h.accounted.handled (by simp) }
  | again hb hw _ => exact h.handled hb hw (h.accounted _ _ hw)
  | forward hb hw _ => exact (h.handled hb hw (h.accounted _ _ hw).read).forward

/-- The server never reads from a client that it has closed. -/
theorem Ok.handle_enabled (h : Ok s) (hb : s.poll.batch ≠ []) :
    (machine.step s .handle).isSome := by
  obtain ⟨fd, rest, hb⟩ := List.exists_cons_of_ne_nil hb
  obtain ⟨w, hw⟩ := Option.isSome_iff_exists.mp (h.valid.watched fd (by simp [hb]))
  simp [machine, Tcp.step, hb, hw]

-- ---------------------------------------------------------------------------
-- One read for an event
-- ---------------------------------------------------------------------------

/-- A chunk that is forwarded reaches every other client that is connected. -/
def ReachesOthers (s : State) (act : Act) : Prop :=
  ∀ s' es fd bytes, machine.step s act = some (s', es) → .forwarded fd bytes ∈ es →
    ∀ fd' w, fd' ≠ fd → s.poll.watched fd' = some w →
      s'.poll.watched fd' = some { w with socket := w.socket.write bytes }

theorem Ok.reachesOthers (h : Ok s) (act : Act) : ReachesOthers s act := by
  intro s' es fd bytes hstep hes fd' w hne hw
  cases step_moves hstep with
  | arrive | hangUp | wait | again => cases hes
  | accept | closed => simp [State.acceptEventHandler] at hes
  | forward =>
    obtain ⟨rfl, rfl⟩ : _ ∧ _ := by simpa using hes
    have hmem : fd' ∈ s.table := by simp [h.table, hw]
    rw [forward_eq h.nodup]
    simp [Poll.mapSockets, Poll.watched_handled, receives, hne, hw, hmem]

/-- A client without an outstanding event has nothing left to be read, and all
it has sent was forwarded. -/
def Drained (s : State) : Prop :=
  ∀ fd w, s.poll.watched fd = some w → w.ready = false → fd ∉ s.poll.batch →
    w.socket.incoming = [] ∧ w.socket.forwarded = w.socket.sent

/-- One `read` takes all there is, or the flag is up again. -/
def OneReadEnough (s : State) : Act → Prop
  | .handle => ∀ fd ∈ s.poll.batch.head?, ∀ w ∈ s.poll.watched fd,
      w.ready = true ∨ w.socket.incoming.length ≤ readBufferSize
  | _ => True

instance : ∀ act, Decidable (OneReadEnough s act)
  | .handle => inferInstanceAs (Decidable (∀ fd ∈ s.poll.batch.head?, ∀ w ∈ s.poll.watched fd, _))
  | .arrive .. | .hangUp _ | .accept .. | .wait _ => .isTrue trivial

def Client.Unread (c : Client) : Prop := c.incoming ≠ []

theorem Ok.drained (h : Ok s) (hs : s.poll.Attended Client.Unread) : Drained s := by
  intro fd w hw hready hbatch
  have hin : w.socket.incoming = [] := by
    by_contra hunread
    rcases hs fd w hw hunread with hup | hmem
    · simp [hready] at hup
    · exact hbatch hmem
  have hc := h.accounted fd w hw
  rw [Client.Accounted, hin, List.append_nil] at hc
  exact ⟨hin, hc.symm⟩

theorem attended_step (h : Ok s) (hs : s.poll.Attended Client.Unread) (hG : OneReadEnough s act)
    (hstep : machine.step s act = some (s', es)) : s'.poll.Attended Client.Unread := by
  cases step_moves hstep with
  | arrive | hangUp => exact hs.set (by rintro _ ⟨⟩ _; exact .inl rfl)
  | @accept fd bytes eof hw =>
    refine hs.set ?_
    rintro _ ⟨⟩ (hunread : bytes ≠ [])
    exact .inl (by simp [hunread])
  | wait hfds => exact hs.wait hfds
  | closed hb => exact hs.handled hb (by simp)
  | again hb hw hin =>
    refine hs.handled hb ?_
    rintro _ ⟨⟩ hunread
    exact absurd hin hunread
  | @forward fd rest w hb hw hin =>
    rw [forward_eq h.nodup]
    refine Poll.Attended.mapSockets (hs.handled hb ?_) ?_
    · rintro _ ⟨⟩ (hunread : w.socket.incoming.drop readBufferSize ≠ [])
      refine (hG fd (by simp [hb]) w hw).resolve_right fun hlen => hunread ?_
      exact List.drop_eq_nil_of_le hlen
    · intro fd' c hunread
      rw [receives_eq] at hunread
      exact hunread

theorem not_drained_step (h : Ok s) (hG : ¬ OneReadEnough s act)
    (hstep : machine.step s act = some (s', es)) : ¬ Drained s' := by
  intro hd
  cases step_moves hstep with
  | arrive | hangUp | accept | wait => exact hG trivial
  | closed hb hw hin => exact hG (by simp [OneReadEnough, hb, hw, hin])
  | again hb hw hin => exact hG (by simp [OneReadEnough, hb, hw, hin])
  | @forward fd rest w hb hw hin =>
    simp only [OneReadEnough, hb, hw, List.head?_cons, Option.mem_some_iff, forall_eq',
      not_or, Nat.not_le, Bool.not_eq_true] at hG
    have hleft := hd fd { w with socket := w.socket.read }
      (by simp [forward_eq h.nodup, Poll.mapSockets, Poll.watched_handled, receives_self]) hG.1
      (by rw [forward_eq h.nodup]; exact h.valid.notMem_handled (w := none) hb)
    have hlen := congrArg List.length hleft.1
    simp only [Client.read, List.length_drop, List.length_nil] at hlen
    omega

theorem drained_iff_one_read_enough (h : machine.run .init as = some (s, es)) :
    machine.Meets ReachesOthers .init as ∧
      (machine.Throughout (fun _ => Drained) [] .init as ↔
        machine.Meets OneReadEnough .init as) := by
  constructor
  · exact .of_invariant Ok (fun _ act hs => hs.reachesOthers act)
      (fun _ _ _ _ hs hstep => hs.step hstep) .init
  · refine Machine.throughout_iff_meets OneReadEnough
      (fun _ s => Ok s ∧ s.poll.Attended Client.Unread) _ ?_ ?_ ?_ ⟨.init, .empty⟩ h
    · exact fun _ _ hs => hs.1.drained hs.2
    · exact fun _ _ _ _ _ hs hG hstep => ⟨hs.1.step hstep, attended_step hs.1 hs.2 hG hstep⟩
    · exact fun _ _ _ _ _ hs hG hstep => not_drained_step hs.1 hG hstep

theorem drained_iff_one_read_enough_twice :
    let as := [.accept 4 [] false, .accept 5 "hel".toList false, .wait [5], .arrive 5 "lo".toList,
      .handle, .wait [5], .handle]
    (machine.run .init as).map Prod.snd =
        some [.accepted 4, .accepted 5, .forwarded 5 "hello".toList] ∧
      machine.Throughout (fun _ => Drained) [] .init as := by
  intro as
  refine ⟨by decide, ?_⟩
  obtain ⟨⟨s, es⟩, h⟩ : ∃ r, machine.run .init as = some r :=
    Option.isSome_iff_exists.mp (by decide)
  exact (drained_iff_one_read_enough h).2.mpr (by decide)

/-- Of 1025 bytes one is left, and no event is outstanding. -/
theorem drained_fails_stranded_byte :
    ∃ s es w, machine.run .init [.accept 4 [] false, .accept 5 [] false,
        .arrive 5 (List.replicate 1025 'x'), .wait [5], .handle] = some (s, es) ∧
      s.poll.watched 5 = some w ∧ w.ready = false ∧ s.poll.batch = [] ∧
      w.socket.incoming = ['x'] ∧ ¬ Drained s := by
  refine ⟨_, _, _, rfl, rfl, rfl, rfl, by decide +kernel, fun hd => ?_⟩
  have hleft := (hd 5 _ rfl rfl List.not_mem_nil).1
  exact absurd hleft (by decide +kernel)

end CppUtil.Tcp

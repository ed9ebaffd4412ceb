import Mathlib.Data.List.Nodup
import Mathlib.Logic.Function.Basic

/-!
# Edge-triggered readiness

A poller watches sockets. An event at a socket raises its flag; a wait takes
some of the raised flags down and hands them over as a batch, whose events are
then handled one by one. An event is outstanding while the flag is up or the
event waits in the batch.

`Attended P` says that every socket in a condition `P` has an outstanding
event. Nothing raises a flag again for what was there before, so whoever
handles an event has to leave the socket out of `P` or the flag up: that is
the premise of `Attended.handle`.
-/

namespace CppUtil.Lib

structure Watched (S : Type*) where
  socket : S
  ready : Bool

structure Poll (Fd S : Type*) where
  watched : Fd → Option (Watched S)
  /-- The events that were taken and are not handled yet. -/
  batch : List Fd

namespace Poll

variable {Fd S : Type*} [DecidableEq Fd]

def empty : Poll Fd S := ⟨fun _ => none, []⟩

def set (p : Poll Fd S) (fd : Fd) (w : Option (Watched S)) : Poll Fd S :=
  { p with watched := Function.update p.watched fd w }

def wait (p : Poll Fd S) (fds : List Fd) : Poll Fd S where
  watched fd :=
    if fd ∈ fds then (p.watched fd).map fun w => { w with ready := false } else p.watched fd
  batch := fds

/-- The events a wait may return. -/
def CanTake (p : Poll Fd S) (fds : List Fd) : Prop :=
  p.batch = [] ∧ fds.Nodup ∧ ∀ fd ∈ fds, (p.watched fd).any Watched.ready = true

instance (p : Poll Fd S) (fds : List Fd) : Decidable (p.CanTake fds) :=
  inferInstanceAs (Decidable (_ ∧ _))

def handled (p : Poll Fd S) (fd : Fd) (w : Option (Watched S)) : Poll Fd S :=
  { watched := Function.update p.watched fd w, batch := p.batch.tail }

def mapSockets (p : Poll Fd S) (f : Fd → S → S) : Poll Fd S :=
  { p with watched fd := (p.watched fd).map fun w => { w with socket := f fd w.socket } }

/-- Every event in the batch is of a socket that is watched, and is there once. -/
structure Valid (p : Poll Fd S) : Prop where
  nodup : p.batch.Nodup
  watched : ∀ fd ∈ p.batch, (p.watched fd).isSome

variable {p : Poll Fd S} {P : S → Prop}

theorem watched_set : (p.set fd w).watched fd' = if fd' = fd then w else p.watched fd' :=
  Function.update_apply ..

theorem watched_handled :
    (p.handled fd w).watched fd' = if fd' = fd then w else p.watched fd' :=
  Function.update_apply ..

theorem watched_wait : (p.wait fds).watched fd =
    if fd ∈ fds then (p.watched fd).map fun w => { w with ready := false } else p.watched fd :=
  rfl

omit [DecidableEq Fd] in
theorem mapSockets_mapSockets : (p.mapSockets f).mapSockets g =
    p.mapSockets fun fd c => g fd (f fd c) := by
  simp [mapSockets, Function.comp_def]

-- ---------------------------------------------------------------------------
-- Which sockets are watched
-- ---------------------------------------------------------------------------

theorem isSome_set : ((p.set fd w).watched fd').isSome =
    if fd' = fd then w.isSome else (p.watched fd').isSome := by
  rw [watched_set, apply_ite Option.isSome]

theorem isSome_handled : ((p.handled fd w).watched fd').isSome =
    if fd' = fd then w.isSome else (p.watched fd').isSome :=
  isSome_set

theorem isSome_wait : ((p.wait fds).watched fd).isSome = (p.watched fd).isSome := by
  rw [watched_wait]
  split <;> simp

omit [DecidableEq Fd] in
theorem isSome_mapSockets : ((p.mapSockets f).watched fd).isSome = (p.watched fd).isSome := by
  simp [mapSockets]

theorem Valid.set (h : p.Valid) (hw : fd ∈ p.batch → w.isSome) : (p.set fd w).Valid := by
  refine ⟨h.nodup, fun fd' hfd' => ?_⟩
  rw [isSome_set]
  split
  · subst fd'
    exact hw hfd'
  · exact h.watched fd' hfd'

theorem Valid.wait (h : p.CanTake fds) : (p.wait fds).Valid := by
  refine ⟨h.2.1, fun fd hfd => ?_⟩
  rw [isSome_wait]
  have hready := h.2.2 fd hfd
  cases hw : p.watched fd with
  | none => simp [hw] at hready
  | some w => rfl

theorem mem_of_mem_handled (hmem : fd' ∈ (p.handled fd w).batch) : fd' ∈ p.batch :=
  List.mem_of_mem_tail hmem

theorem Valid.notMem_handled (h : p.Valid) (hb : p.batch = fd :: rest) :
    fd ∉ (p.handled fd w).batch := by
  have hnodup := h.nodup
  rw [hb, List.nodup_cons] at hnodup
  simpa [Poll.handled, hb] using hnodup.1

theorem Valid.handled (h : p.Valid) (hb : p.batch = fd :: rest) : (p.handled fd w).Valid := by
  refine ⟨h.nodup.tail, fun fd' hfd' => ?_⟩
  have hne : fd' ≠ fd := fun he => h.notMem_handled hb (he ▸ hfd')
  rw [isSome_handled, if_neg hne]
  exact h.watched fd' (mem_of_mem_handled hfd')

omit [DecidableEq Fd] in
theorem Valid.mapSockets (h : p.Valid) : (p.mapSockets f).Valid :=
  ⟨h.nodup, fun fd hfd => isSome_mapSockets.trans (h.watched fd hfd)⟩

-- ---------------------------------------------------------------------------
-- What holds of all sockets
-- ---------------------------------------------------------------------------

def All (P : S → Prop) (p : Poll Fd S) : Prop := ∀ fd w, p.watched fd = some w → P w.socket

omit [DecidableEq Fd] in
theorem All.empty : (Poll.empty : Poll Fd S).All P := by
  intro fd w h
  cases h

theorem All.set (h : p.All P) (hw : ∀ w', w = some w' → P w'.socket) : (p.set fd w).All P := by
  intro fd' w' hw'
  rw [watched_set] at hw'
  split at hw'
  · exact hw w' hw'
  · exact h fd' w' hw'

theorem All.handled (h : p.All P) (hw : ∀ w', w = some w' → P w'.socket) :
    (p.handled fd w).All P :=
  h.set hw

theorem All.wait (h : p.All P) : (p.wait fds).All P := by
  intro fd w hw
  rw [watched_wait] at hw
  split at hw
  · obtain ⟨w', hw', rfl⟩ := Option.map_eq_some_iff.mp hw
    exact h fd w' hw'
  · exact h fd w hw

omit [DecidableEq Fd] in
theorem All.mapSockets (h : p.All P) (hP : ∀ fd c, P c → P (f fd c)) :
    (p.mapSockets f).All P := by
  intro fd w' hw'
  obtain ⟨w, hw, rfl⟩ := Option.map_eq_some_iff.mp hw'
  exact hP fd w.socket (h fd w hw)

-- ---------------------------------------------------------------------------
-- Outstanding events
-- ---------------------------------------------------------------------------

/-- Every socket in the condition `P` has an outstanding event. -/
def Attended (P : S → Prop) (p : Poll Fd S) : Prop :=
  ∀ fd w, p.watched fd = some w → P w.socket → w.ready = true ∨ fd ∈ p.batch

omit [DecidableEq Fd] in
theorem Attended.empty : (Poll.empty : Poll Fd S).Attended P := by
  intro fd w h
  cases h

theorem Attended.set (h : p.Attended P)
    (hw : ∀ w', w = some w' → P w'.socket → w'.ready = true ∨ fd ∈ p.batch) :
    (p.set fd w).Attended P := by
  intro fd' w' hw' hP
  rw [watched_set] at hw'
  split at hw'
  · subst fd'
    exact hw w' hw' hP
  · exact h fd' w' hw' hP

theorem Attended.wait (h : p.Attended P) (hfds : p.CanTake fds) : (p.wait fds).Attended P := by
  intro fd w hw hP
  by_cases hmem : fd ∈ fds
  · exact .inr hmem
  · rw [watched_wait, if_neg hmem] at hw
    rcases h fd w hw hP with hready | hbatch
    · exact .inl hready
    · rw [hfds.1] at hbatch
      cases hbatch

/-- Whoever handles an event leaves the socket out of `P`, or its flag up. -/
theorem Attended.handled (h : p.Attended P) (hb : p.batch = fd :: rest)
    (hw : ∀ w', w = some w' → P w'.socket → w'.ready = true) : (p.handled fd w).Attended P := by
  intro fd' w' hw' hP
  rw [watched_handled] at hw'
  split at hw'
  · exact .inl (hw w' hw' hP)
  · next hne =>
    refine (h fd' w' hw' hP).imp_right fun hmem => ?_
    rw [hb, List.mem_cons] at hmem
    simpa [Poll.handled, hb] using hmem.resolve_left hne

omit [DecidableEq Fd] in
theorem Attended.mapSockets (h : p.Attended P) (hP : ∀ fd c, P (f fd c) → P c) :
    (p.mapSockets f).Attended P := by
  intro fd w' hw' hP'
  obtain ⟨w, hw, rfl⟩ := Option.map_eq_some_iff.mp hw'
  exact h fd w hw (hP fd w.socket hP')

end Poll

end CppUtil.Lib

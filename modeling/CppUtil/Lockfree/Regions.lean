import CppUtil.Lockfree.Processes
import Mathlib.Data.Fintype.Option

/-!
# The regions of all processes

`regions_agree`: the size of a segment is given once, and every region that any
process has mapped, at any time, is the whole segment.

A file lock is held by a process, so it does not keep two threads of one process
apart, and the one that closes the lock file first gives the lock away. And a
writer that cannot get the size of a segment takes it for a new one. `Careful` is
what has to be seen to elsewhere: `IpcMessageQueue` makes one object for a key in
each process.
-/

namespace CppUtil.Lockfree.Processes

open Lib
open ReadWriteSharedMemory (desiredSizeBytes)

variable {Tid Pid : Type} [DecidableEq Pid]

/-- The thread is between `lock` and `unlock`, in a process that is alive. -/
def Inside (Q : Parties Tid Pid) (s : State Tid Pid) (t : Tid) : Prop :=
  s.shared.ended (Q.process t) = false ∧ (s.threads t).inside = true

def Alone (Q : Parties Tid Pid) (s : State Tid Pid) (t : Tid) : Prop :=
  ∀ u, Q.process u = Q.process t → (s.threads u).inside = false

/-- A thread comes to the lock only while no other thread of its process is behind
it, and `get_size` does not fail for a segment that has a size. -/
def Careful (Q : Parties Tid Pid) (s : State Tid Pid) : Tid × Act → Prop
  | (t, .next) => (s.threads t).isLocking = true → Alone Q s t
  | (t, .fail) => ((s.threads t).isLocking = true → Alone Q s t) ∧
      ((s.threads t).isSizing = true → s.shared.size = 0)
  | (_, .write _) | (_, .read) | (_, .kill) => True

instance [Fintype Tid] (Q : Parties Tid Pid) (s : State Tid Pid) :
    (x : Tid × Act) → Decidable (Careful Q s x)
  | (t, .next) => inferInstanceAs (Decidable ((s.threads t).isLocking = true →
      ∀ u, Q.process u = Q.process t → (s.threads u).inside = false))
  | (t, .fail) => inferInstanceAs (Decidable (((s.threads t).isLocking = true →
      ∀ u, Q.process u = Q.process t → (s.threads u).inside = false) ∧
      ((s.threads t).isSizing = true → s.shared.size = 0)))
  | (_, .write _) | (_, .read) | (_, .kill) => isTrue trivial

/-- A FATAL log of the thread would end its process. -/
def Strict (Q : Parties Tid Pid) (sh : Shared Pid) (t : Tid) : Bool :=
  sh.strict (Q.process t) (Q.ndebug (Q.process t))

structure Orderly (Q : Parties Tid Pid) (os : List (Tid × Event)) (s : State Tid Pid) : Prop where
  frames : ∀ t, s.shared.ended (Q.process t) = false →
    (s.threads t).Ok (Strict Q s.shared t) s.shared.size
  holder : ∀ t, Inside Q s t → s.shared.fileLock = some (Q.process t)
  one : ∀ t u, Inside Q s t → Inside Q s u → t = u
  held : ∀ p, s.shared.fileLock = some p → ∃ t, Q.process t = p ∧ Inside Q s t
  regions : ∀ t e, (t, e) ∈ os → e.Agrees (Strict Q s.shared t) s.shared.size

variable {Q : Parties Tid Pid} {s s' : State Tid Pid}

omit [DecidableEq Pid] in
theorem Orderly.init (Q : Parties Tid Pid) : Orderly Q [] State.init where
  frames _ _ := trivial
  holder _ h := by cases h.2
  one _ _ h := by cases h.2
  held _ h := by cases h
  regions _ _ h := by cases h

section
variable [DecidableEq Tid]

omit [DecidableEq Pid] in
theorem inside_update_of_ne {sh' : Shared Pid} (hu : u ≠ t)
    (hended : sh'.ended (Q.process u) = s.shared.ended (Q.process u)) :
    Inside Q ⟨sh', Function.update s.threads t fr'⟩ u ↔ Inside Q s u := by
  simp only [Inside, hended, Function.update_of_ne hu]

theorem inside_exit_iff :
    Inside Q ⟨s.shared.exit (Q.process t), Function.update s.threads t .idle⟩ u ↔
      Q.process u ≠ Q.process t ∧ Inside Q s u := by
  rw [Inside, Shared.exit_ended_iff, and_assoc]
  refine and_congr_right fun hp => ?_
  have hut : u ≠ t := ne_of_apply_ne Q.process hp
  simp only [Inside, Function.update_of_ne hut]

section
variable {os : List (Tid × Event)} {o : List Event} {sh' : Shared Pid} (h : Orderly Q os s)
include h

omit [DecidableEq Pid] in
theorem Orderly.stays (hlive : s.shared.ended (Q.process t) = false)
    (hin : fr'.inside = (s.threads t).inside) (hlock : sh'.fileLock = s.shared.fileLock)
    (hended : sh'.ended = s.shared.ended)
    (hfatal : ∀ q b, sh'.strict q b = true → s.shared.strict q b = true)
    (hsize : sh'.size = s.shared.size ∨ ((s.threads t).inside = true ∧ s.shared.size = 0))
    (hok : fr'.Ok (Strict Q sh' t) sh'.size)
    (hev : ∀ e ∈ o, e.Agrees (Strict Q sh' t) sh'.size) :
    Orderly Q (os ++ o.map fun e => (t, e)) ⟨sh', Function.update s.threads t fr'⟩ := by
  have hinside : ∀ u, Inside Q ⟨sh', Function.update s.threads t fr'⟩ u ↔ Inside Q s u := by
    intro u
    by_cases hu : u = t
    · subst hu
      simp only [Inside, hended, Function.update_self, hin]
    · exact inside_update_of_ne hu (by rw [hended])
  constructor
  case frames =>
    intro u hu
    by_cases hut : u = t
    · subst hut
      simpa only [Function.update_self] using hok
    · simp only [Function.update_of_ne hut]
      rw [hended] at hu
      refine (h.frames u hu).keep (hfatal _ _) (hsize.imp_right fun hzero => ⟨?_, hzero.2⟩)
      -- the one thread inside is the one that gives the size
      by_contra hne
      exact hut (h.one u t ⟨hu, by simpa using hne⟩ ⟨hlive, hzero.1⟩)
  case holder =>
    intro u hu
    exact hlock.trans (h.holder u ((hinside u).mp hu))
  case one =>
    intro u v hu hv
    exact h.one u v ((hinside u).mp hu) ((hinside v).mp hv)
  case held =>
    intro p hp
    obtain ⟨u, hu, huin⟩ := h.held p (hlock.symm.trans hp)
    exact ⟨u, hu, (hinside u).mpr huin⟩
  case regions =>
    intro u e hmem
    rcases List.mem_append.mp hmem with hmem | hmem
    · exact (h.regions u e hmem).keep (hfatal _ _) (hsize.imp_right And.right)
    · obtain ⟨e', he', ⟨⟩⟩ := List.mem_map.mp hmem
      exact hev e he'

omit [DecidableEq Pid] in
theorem Orderly.enters (hlive : s.shared.ended (Q.process t) = false)
    (hfree : s.shared.fileLock = none ∨ s.shared.fileLock = some (Q.process t))
    (halone : Alone Q s t) :
    Orderly Q os ⟨{ s.shared with fileLock := some (Q.process t) },
      Function.update s.threads t (.creating mb)⟩ := by
  have hnobody : ∀ u, ¬Inside Q s u := by
    intro u hu
    have hlock := h.holder u hu
    rcases hfree with hnone | hown
    · rw [hnone] at hlock
      cases hlock
    · rw [hown, Option.some.injEq] at hlock
      exact absurd hu.2 (by simp [halone u hlock.symm])
  have honly : ∀ u, Inside Q ⟨{ s.shared with fileLock := some (Q.process t) },
      Function.update s.threads t (.creating mb)⟩ u → u = t := by
    intro u hu
    by_contra hut
    exact hnobody u ((inside_update_of_ne hut rfl).mp hu)
  constructor
  case frames =>
    refine (Function.forall_update_iff s.threads fun u fr =>
      s.shared.ended (Q.process u) = false → fr.Ok (Strict Q s.shared u) s.shared.size).mpr ?_
    exact ⟨fun _ => trivial, fun u _ hu => h.frames u hu⟩
  case holder =>
    intro u hu
    rw [honly u hu]
  case one =>
    intro u v hu hv
    rw [honly u hu, honly v hv]
  case held =>
    rintro p ⟨⟩
    exact ⟨t, rfl, hlive, by simp [Frame.inside]⟩
  case regions => exact h.regions

theorem Orderly.leaves (hin : Inside Q s t)
    (hev : ∀ e ∈ o, e.Agrees (Strict Q s.shared t) s.shared.size) :
    Orderly Q (os ++ o.map fun e => (t, e))
      ⟨s.shared.unlock (Q.process t), Function.update s.threads t .idle⟩ := by
  have hnone := Shared.unlock_own (h.holder t hin)
  have hnobody : ∀ u, ¬Inside Q ⟨s.shared.unlock (Q.process t),
      Function.update s.threads t .idle⟩ u := by
    intro u hu
    by_cases hut : u = t
    · subst hut
      simpa [Frame.inside] using hu.2
    · exact hut (h.one u t ((inside_update_of_ne hut (by simp)).mp hu) hin)
  constructor
  case frames =>
    simp only [Strict, Shared.unlock_ended, Shared.unlock_size, Shared.unlock_strict]
    refine (Function.forall_update_iff s.threads fun u fr =>
      s.shared.ended (Q.process u) = false → fr.Ok (Strict Q s.shared u) s.shared.size).mpr ?_
    exact ⟨fun _ => trivial, fun u _ hu => h.frames u hu⟩
  case holder => exact fun u hu => absurd hu (hnobody u)
  case one => exact fun u _ hu => absurd hu (hnobody u)
  case held =>
    intro p hp
    rw [hnone] at hp
    cases hp
  case regions =>
    intro u e hmem
    rw [Shared.unlock_size, Strict, Shared.unlock_strict]
    rcases List.mem_append.mp hmem with hmem | hmem
    · exact h.regions u e hmem
    · obtain ⟨e', he', ⟨⟩⟩ := List.mem_map.mp hmem
      exact hev e he'

theorem Orderly.exits (t : Tid) :
    Orderly Q os ⟨s.shared.exit (Q.process t), Function.update s.threads t .idle⟩ := by
  constructor
  case frames =>
    intro u hu
    obtain ⟨hp, hlive⟩ := Shared.exit_ended_iff.mp hu
    have hut : u ≠ t := ne_of_apply_ne Q.process hp
    simpa only [Function.update_of_ne hut, Strict, Shared.exit_size, Shared.exit_strict]
      using h.frames u hlive
  case holder =>
    intro u hu
    obtain ⟨hp, hin⟩ := inside_exit_iff.mp hu
    exact Shared.exit_fileLock_iff.mpr ⟨hp, h.holder u hin⟩
  case one =>
    intro u v hu hv
    exact h.one u v (inside_exit_iff.mp hu).2 (inside_exit_iff.mp hv).2
  case held =>
    intro p hlock
    obtain ⟨hp, hlock⟩ := Shared.exit_fileLock_iff.mp hlock
    obtain ⟨u, rfl, hin⟩ := h.held p hlock
    exact ⟨u, rfl, inside_exit_iff.mpr ⟨hp, hin⟩⟩
  case regions => simpa only [Strict, Shared.exit_size, Shared.exit_strict] using h.regions

end

theorem Orderly.closes (h : Orderly Q os s) (hlive : s.shared.ended (Q.process t) = false)
    (hfr : (s.threads t).isLocking = true) (halone : Alone Q s t) :
    Orderly Q (os ++ [(t, .thrown)])
      ⟨s.shared.unlock (Q.process t), Function.update s.threads t .idle⟩ := by
  have hother : s.shared.fileLock ≠ some (Q.process t) := by
    intro hlock
    obtain ⟨u, hu, hin⟩ := h.held _ hlock
    exact absurd hin.2 (by simp [halone u hu])
  have hout : (s.threads t).inside = false := by
    cases hframe : s.threads t <;> simp [hframe, Frame.isLocking, Frame.inside] at hfr ⊢
  rw [Shared.unlock_other hother]
  exact h.stays (o := [.thrown]) hlive hout.symm rfl rfl (fun _ _ hq => hq) (.inl rfl) trivial
    fun e he => by
      rw [List.mem_singleton.mp he]
      trivial

theorem Orderly.step {x : Tid × Act} (h : Orderly Q os s) (hx : Careful Q s x)
    (hs : (machine Q).step s x = some (s', o)) :
    Orderly Q (os ++ o) s' ∧ (s.shared.size ≠ 0 → s'.shared.size = s.shared.size) := by
  obtain ⟨t, act⟩ := x
  obtain ⟨sh, fr, es, hstep, rfl, rfl⟩ := Machine.interleave_step_iff.mp hs
  have hlive := step_live hstep
  have hsized : act = .fail → (s.threads t).isSizing = true → s.shared.size = 0 := by
    rintro rfl
    exact hx.2
  have hm := step_moves (h.frames t hlive) hsized hstep
  refine ⟨?_, hm.size_eq⟩
  cases hm with
  | stays hin hlock hended hfatal hsize hok hev =>
    exact h.stays hlive hin hlock hended hfatal hsize hok hev
  | enters hfr hact hfree =>
    subst hact
    simpa using h.enters hlive hfree (hx (by rw [hfr]; rfl))
  | closes hfr hact =>
    subst hact
    exact h.closes hlive hfr (hx.1 hfr)
  | leaves hfr hev => exact h.leaves ⟨hlive, hfr⟩ hev
  | exits => simpa using h.exits t

end

-- ---------------------------------------------------------------------------
-- The lock is given back
-- ---------------------------------------------------------------------------

def Frame.left : Frame → Nat
  | .creating _ => 6
  | .sizing _ => 5
  | .truncating _ => 4
  | .checking _ => 3
  | .mapping _ => 2
  | .unlocking _ _ | .exiting true => 1
  | .idle | .locking _ | .readOpening | .readSizing | .readMapping | .exiting false => 0

theorem Frame.left_pos {fr : Frame} (h : fr.inside = true) : 0 < fr.left := by
  unfold Frame.inside at h
  split at h <;> simp_all [Frame.left]

theorem Frame.left_le (fr : Frame) : fr.left ≤ 6 := by
  unfold Frame.left
  split <;> decide

/-- The step is taken, and the thread has given the lock back or is nearer to it. -/
def Nearer (p : Pid) (sh : Shared Pid) (fr : Frame) (r : Shared Pid × Frame × List Event) : Prop :=
  r.1.fileLock = none ∨ (r.1.fileLock = some p ∧ r.1.ended = sh.ended ∧ r.2.1.inside = true ∧
    r.2.1.left < fr.left)

theorem Nearer.fatal {sh : Shared Pid} {fr : Frame} (hlock : sh.fileLock = some p)
    (hin : fr.inside = true) (hleft : 1 < fr.left) (hgo : Nearer p sh fr go) :
    Nearer p sh fr (Frame.fatal p ndebug sh fr go) := by
  unfold Frame.fatal
  split
  · rw [hin]
    exact .inr ⟨hlock, rfl, rfl, hleft⟩
  · exact hgo

/-- A thread inside is never held up, and each step brings it nearer to the end. -/
theorem Frame.next_nearer {p : Pid} {sh : Shared Pid} {fr : Frame} (ndebug : Bool)
    (hin : fr.inside = true) (hlock : sh.fileLock = some p) :
    ∃ r, fr.next p ndebug sh = some r ∧ Nearer p sh fr r := by
  have hunlock : (sh.unlock p).fileLock = none := Shared.unlock_own hlock
  have hgoes : ∀ fr' : Frame, fr'.inside = true → fr'.left < fr.left →
      Nearer p sh fr (sh, fr', []) := fun fr' hin' hleft => .inr ⟨hlock, rfl, hin', hleft⟩
  cases fr with
  | idle | locking | readOpening | readSizing | readMapping => cases hin
  | creating mb => exact ⟨_, rfl, .inr ⟨hlock, rfl, rfl, by simp [Frame.left]⟩⟩
  | sizing mb =>
    have hchecking := hgoes (.checking mb) rfl (by simp [Frame.left])
    simp only [Frame.next]
    split
    · exact ⟨_, rfl, hgoes _ rfl (by simp [Frame.left])⟩
    · split
      · exact ⟨_, rfl, .fatal hlock rfl (by simp [Frame.left]) hchecking⟩
      · exact ⟨_, rfl, hchecking⟩
  | truncating mb => exact ⟨_, rfl, .inr ⟨hlock, rfl, rfl, by simp [Frame.left]⟩⟩
  | checking mb =>
    have hmapping := hgoes (.mapping mb) rfl (by simp [Frame.left])
    simp only [Frame.next]
    split
    · exact ⟨_, rfl, .fatal hlock rfl (by simp [Frame.left]) hmapping⟩
    · exact ⟨_, rfl, hmapping⟩
  | mapping mb =>
    simp only [Frame.next]
    split
    · exact ⟨_, rfl, .inl hunlock⟩
    · exact ⟨_, rfl, hgoes _ rfl (by simp [Frame.left])⟩
  | unlocking mb n => exact ⟨_, rfl, .inl hunlock⟩
  | exiting locked => exact ⟨_, rfl, .inl hunlock⟩

section
variable [DecidableEq Tid]

theorem unlocks (hin : Inside Q s t) (hlock : s.shared.fileLock = some (Q.process t)) :
    ∃ n ≤ (s.threads t).left, ∃ s' o,
      (machine Q).run s (List.replicate n (t, .next)) = some (s', o) ∧
        s'.shared.fileLock = none := by
  induction hn : (s.threads t).left using Nat.strong_induction_on generalizing s with
  | _ k ih =>
    obtain ⟨⟨sh, fr, o⟩, hnext, hcases⟩ :=
      Frame.next_nearer (Q.ndebug (Q.process t)) hin.2 hlock
    have hstep : (machine Q).step s (t, .next) =
        some (⟨sh, Function.update s.threads t fr⟩, o.map fun e => (t, e)) := by
      refine Machine.interleave_step_iff.mpr ⟨sh, fr, o, ?_, rfl, rfl⟩
      simpa only [step, hin.1, Bool.false_eq_true, if_false] using hnext
    rcases hcases with hnone | ⟨hkept, hended, hfr, hleft⟩
    · refine ⟨1, hn ▸ Frame.left_pos hin.2, ⟨sh, Function.update s.threads t fr⟩,
        o.map fun e => (t, e), ?_, hnone⟩
      rw [List.replicate_one]
      exact Machine.run_cons_iff.mpr ⟨_, _, [], hstep, rfl, (List.append_nil _).symm⟩
    · have hended' : sh.ended = s.shared.ended := hended
      have hin' : Inside Q ⟨sh, Function.update s.threads t fr⟩ t :=
        ⟨by rw [hended']; exact hin.1, by simpa using hfr⟩
      obtain ⟨n, hle, s', o', hrun, hnone⟩ := ih fr.left (hn ▸ hleft) hin' hkept (by simp)
      refine ⟨n + 1, ?_, s', (o.map fun e => (t, e)) ++ o', ?_, hnone⟩
      · have hless : fr.left < k := hn ▸ hleft
        omega
      · rw [List.replicate_succ]
        exact Machine.run_cons_iff.mpr ⟨_, _, _, hstep, hrun, rfl⟩

-- ---------------------------------------------------------------------------
-- Every run
-- ---------------------------------------------------------------------------

theorem Orderly.run (h : Orderly Q os s) (hcareful : (machine Q).Meets (Careful Q) s as)
    (hrun : (machine Q).run s as = some (s', os')) :
    Orderly Q (os ++ os') s' ∧ (s.shared.size ≠ 0 → s'.shared.size = s.shared.size) := by
  refine @Machine.run_keeps _ _ _ (machine Q) [] os _ _ _ _ (Careful Q)
    (fun _ os s₁ => Orderly Q os s₁ ∧ (s.shared.size ≠ 0 → s₁.shared.size = s.shared.size))
    ?_ ⟨h, fun _ => rfl⟩ hcareful hrun
  rintro _ os₁ s₁ x o s₂ ⟨h₁, hsize₁⟩ hx hs
  obtain ⟨h₂, hsize₂⟩ := h₁.step hx hs
  refine ⟨h₂, fun hpos => ?_⟩
  have heq := hsize₁ hpos
  rw [hsize₂ (by rwa [heq]), heq]

end

def threeProcesses : Parties (Option Bool) (Option Bool) := ⟨id, Option.isSome⟩

def killedThenOpened : List (Option Bool × Act) :=
  [(some false, .write 3), (some false, .next), (some true, .write 2), (some false, .next),
    (none, .read), (none, .next), (some false, .kill), (some true, .next), (none, .next),
    (some true, .next), (some true, .next), (some true, .next), (none, .read), (none, .next),
    (none, .next), (none, .next), (some true, .next), (some true, .next), (some true, .next),
    (none, .write 1), (none, .next), (none, .next), (none, .next), (none, .next), (none, .next),
    (none, .next)]

/-- Two threads of one process both find the new segment: the region of the one that
gave it 2 MB is longer than the segment in the end. -/
example : ((machine ⟨fun _ : Bool => (), fun _ => true⟩).run State.init
    [(false, .write 1), (true, .write 2), (false, .next), (true, .next), (false, .next),
      (true, .next), (false, .next), (true, .next), (true, .next), (true, .next), (true, .next),
      (true, .next), (false, .next), (false, .next), (false, .next), (false, .next)]).map
        (fun r => (r.1.shared.size, r.2)) =
    some (1048576, [(true, .opened 2 2097152), (false, .opened 1 1048576)]) := by
  decide

/-- The second writer of 1 MB cannot get the size of the segment, takes it for 0 and cuts
the 2 MB off that the first one has mapped. -/
example : ((machine ⟨id, fun _ : Bool => true⟩).run State.init
    ([.write 2, .next, .next, .next, .next, .next, .next, .next].map (false, ·) ++
      [.write 1, .next, .next, .fail, .next, .next, .next, .next].map (true, ·))).map
        (fun r => (r.1.shared.size, r.2)) =
    some (1048576, [(false, .opened 2 2097152), (true, .opened 1 1048576)]) := by
  decide

end CppUtil.Lockfree.Processes

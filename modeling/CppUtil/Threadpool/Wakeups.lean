import CppUtil.Threadpool.ThreadPoolLaws
import CppUtil.Lib.Progress

/-!
# Sleeping workers

`Enqueue` notifies after it has left its critical section, and a notified
worker has yet to take the lock, so tasks can be in the queue while workers
sleep. `sleepers_covered`: while a worker sleeps, every task in the queue has
somebody of its own on the way to it, a client that is about to notify or a
worker that is awake and about to look; and once the pool is stopped, the
destructor is about to wake all of them.

`Takes` has one case for each place where a thread can stand and act; it is
what a step does (`step_iff_takes`).
-/

namespace CppUtil.Threadpool

open Lib

attribute [local instance] neZero_four

variable {Tid Task : Type}

inductive Takes [DecidableEq Tid] (workers : List Tid) (t : Tid) (sh : Shared Tid Task) :
    Frame Tid Task → Act Tid Task → Shared Tid Task → Frame Tid Task → List (Event Task) → Prop
  | enqueue : Takes workers t sh .outside (.enqueue task) sh (.enqueueing task) []
  | destroy : Takes workers t sh .outside .destroy sh .stopping []
  | accept (hstop : sh.stop_ = false) :
      Takes workers t sh (.enqueueing task) .next { sh with tasks_ := sh.tasks_ ++ [task] }
        .notifying [.accepted task]
  | reject (hstop : sh.stop_ = true) :
      Takes workers t sh (.enqueueing task) .next sh .outside [.rejected task]
  | notifyNone (hb : sh.blocked = []) : Takes workers t sh .notifying (.notifyOne none) sh .outside []
  | notify (hw : w ∈ sh.blocked) :
      Takes workers t sh .notifying (.notifyOne (some w))
        { sh with blocked := sh.blocked.erase w } .outside []
  | stop : Takes workers t sh .stopping .next { sh with stop_ := true } .notifyingAll []
  | notifyAll :
      Takes workers t sh .notifyingAll .next { sh with blocked := [] } (.joining workers) []
  | join (hw : w ∈ sh.exited) : Takes workers t sh (.joining (w :: ws)) .next sh (.joining ws) []
  | block (hstop : sh.stop_ = false) (hq : sh.tasks_ = []) :
      Takes workers t sh .looping .next { sh with blocked := t :: sh.blocked } .waiting []
  | exit (hstop : sh.stop_ = true) (hq : sh.tasks_ = []) :
      Takes workers t sh .looping .next { sh with exited := t :: sh.exited } .returned []
  | take (hq : sh.tasks_ = task :: tasks) :
      Takes workers t sh .looping .next { sh with tasks_ := tasks } (.running task) [.handed task]
  | wake :
      Takes workers t sh .waiting .wake { sh with blocked := sh.blocked.erase t } .looping []
  | woken (ht : t ∉ sh.blocked) : Takes workers t sh .waiting .next sh .looping []
  | execute : Takes workers t sh (.running task) .next sh .looping [.executed task]

section

variable [DecidableEq Tid] {workers : List Tid} {t : Tid} {sh sh' : Shared Tid Task}
  {fr fr' : Frame Tid Task} {act : Act Tid Task} {o : List (Event Task)}

theorem work_takes (h : sh.work t = some (sh', fr', o)) :
    Takes workers t sh .looping .next sh' fr' o := by
  unfold Shared.work Shared.ready at h
  cases hq : sh.tasks_ with
  | nil =>
    cases hstop : sh.stop_ with
    | false =>
      simp only [hq, hstop] at h
      cases h
      exact hq ▸ hstop ▸ .block hstop hq
    | true =>
      simp only [hq, hstop] at h
      cases h
      exact hq ▸ hstop ▸ .exit hstop hq
  | cons task tasks =>
    simp only [hq, List.isEmpty_cons, Bool.not_false, Bool.or_true, Bool.not_true,
      Bool.and_false, Bool.false_eq_true, ↓reduceIte] at h
    cases h
    exact .take hq

theorem enqueue_takes (h : sh.enqueue task = (sh', fr', o)) :
    Takes workers t sh (.enqueueing task) .next sh' fr' o := by
  unfold Shared.enqueue at h
  split at h
  · rename_i hstop
    cases h
    exact .reject hstop
  · rename_i hstop
    cases h
    exact .accept (Bool.eq_false_of_not_eq_true hstop)

theorem step_takes (h : step workers t sh fr act = some (sh', fr', o)) :
    Takes workers t sh fr act sh' fr' o := by
  unfold step at h
  cases act with
  | enqueue task =>
    cases fr <;> cases h
    exact .enqueue
  | destroy =>
    cases fr <;> cases h
    exact .destroy
  | wake =>
    cases fr <;> cases h
    exact .wake
  | notifyOne w =>
    cases fr <;> cases w <;> simp only [Option.ite_none_right_eq_some, reduceCtorEq] at h
    · obtain ⟨hb, ⟨⟩⟩ := h
      exact .notifyNone hb
    · obtain ⟨hw, ⟨⟩⟩ := h
      exact .notify hw
  | next =>
    cases fr with
    | outside | notifying | returned => cases h
    | enqueueing task => exact enqueue_takes (Option.some.inj h)
    | stopping =>
      cases h
      exact .stop
    | notifyingAll =>
      cases h
      exact .notifyAll
    | joining ws =>
      cases ws with
      | nil => cases h
      | cons w ws =>
        simp only [Option.ite_none_right_eq_some] at h
        obtain ⟨hw, ⟨⟩⟩ := h
        exact .join hw
    | looping => exact work_takes h
    | waiting =>
      simp only [Option.ite_none_left_eq_some] at h
      obtain ⟨ht, ⟨⟩⟩ := h
      exact .woken ht
    | running task =>
      cases h
      exact .execute

theorem step_iff_takes :
    step workers t sh fr act = some (sh', fr', o) ↔ Takes workers t sh fr act sh' fr' o := by
  refine ⟨step_takes, fun h => ?_⟩
  cases h with
  | enqueue | destroy | stop | notifyAll | wake | execute => rfl
  | accept hstop | reject hstop => simp [step, Shared.enqueue, hstop]
  | notifyNone hb => simp [step, hb]
  | notify hw | join hw => simp [step, hw]
  | block hstop hq | exit hstop hq => simp [step, Shared.work, Shared.ready, hstop, hq]
  | take hq => simp [step, Shared.work, Shared.ready, hq]
  | woken ht => simp [step, ht]

end

-- ---------------------------------------------------------------------------
-- The waiting room
-- ---------------------------------------------------------------------------

/-- A thread that is on its way to the queue, unless it is blocked. -/
def Frame.comes : Frame Tid Task → Nat
  | .notifying | .looping | .waiting => 1
  | _ => 0

variable [Fintype Tid] [DecidableEq Tid] {workers : List Tid} {s s' : State Tid Task}

/-- The threads on their way to the queue: clients that are about to notify, and
workers that are awake and about to look at it. -/
def State.coming (s : State Tid Task) : Finset Tid :=
  Finset.univ.filter fun t => 0 < (s.threads t).comes ∧ t ∉ s.shared.blocked

structure Rested (workers : List Tid) (s : State Tid Task) : Prop where
  nodup : s.shared.blocked.Nodup
  waiting : ∀ t ∈ s.shared.blocked, s.threads t = .waiting
  covered : s.shared.blocked ≠ [] →
    s.shared.tasks_.length + s.shared.blocked.length ≤ total Frame.comes s.threads
  noticed : s.shared.blocked ≠ [] → s.shared.stop_ → ∃ t, s.threads t = .notifyingAll
  exited : ∀ t, t ∈ s.shared.exited ↔ s.threads t = .returned
  joined : ∀ t ws, s.threads t = .joining ws → ∀ w ∈ ws, w ∈ workers

section

variable {t : Tid} {sh sh' : Shared Tid Task} {fr fr' : Frame Tid Task} {act : Act Tid Task}
  {o : List (Event Task)}

omit [Fintype Tid] in
theorem Takes.blocked (h : Takes workers t sh fr act sh' fr' o) (hnodup : sh.blocked.Nodup)
    (ht : t ∈ sh.blocked → fr = .waiting) :
    sh'.blocked.Nodup ∧ ∀ u ∈ sh'.blocked, if u = t then fr' = .waiting else u ∈ sh.blocked := by
  have hkept : ∀ l : List Tid, l.Sublist sh.blocked → t ∉ l →
      l.Nodup ∧ ∀ u ∈ l, if u = t then fr' = .waiting else u ∈ sh.blocked := by
    intro l hl htl
    refine ⟨hl.nodup hnodup, fun u hu => ?_⟩
    have hut : u ≠ t := fun hut => htl (hut ▸ hu)
    rw [if_neg hut]
    exact hl.subset hu
  cases h with
  | notify hw => exact hkept _ List.erase_sublist fun hmem => nomatch ht (List.mem_of_mem_erase hmem)
  | notifyAll => exact hkept [] (List.nil_sublist _) List.not_mem_nil
  | wake => exact hkept _ List.erase_sublist hnodup.not_mem_erase
  | woken hnot => exact hkept _ (List.Sublist.refl _) hnot
  | block =>
    have hnot : t ∉ sh.blocked := fun hmem => nomatch ht hmem
    refine ⟨List.nodup_cons.mpr ⟨hnot, hnodup⟩, fun u hu => ?_⟩
    split
    · rfl
    · rename_i hut
      exact (List.mem_cons.mp hu).resolve_left hut
  | _ => exact hkept _ (List.Sublist.refl _) fun hmem => nomatch ht hmem

omit [Fintype Tid] in
/-- A step keeps the tasks covered, when the others count `n` and the blocked
threads alone are covered after it. -/
theorem Takes.covered (h : Takes workers t sh fr act sh' fr' o)
    (hcov : sh.blocked ≠ [] → sh.tasks_.length + sh.blocked.length ≤ fr.comes + n)
    (hsleep : sh'.blocked.length ≤ fr'.comes + n) (hb : sh'.blocked ≠ []) :
    sh'.tasks_.length + sh'.blocked.length ≤ fr'.comes + n := by
  cases h with
  | enqueue | destroy | reject | stop | join | woken => exact hcov hb
  | accept =>
    have := hcov hb
    simp only [Frame.comes, List.length_append, List.length_singleton] at *
    omega
  | notifyNone hnone => exact absurd hnone hb
  | notify hw =>
    have := hcov (List.ne_nil_of_mem hw)
    have := List.length_erase_add_one hw
    simp only [Frame.comes] at *
    omega
  | notifyAll => exact absurd rfl hb
  | block _ hq | exit _ hq => simpa [hq] using hsleep
  | take hq =>
    have := hcov hb
    simp only [Frame.comes, hq, List.length_cons] at *
    omega
  | wake =>
    have := hcov (fun hnil => hb (by rw [hnil]; rfl))
    have := List.length_erase_le (a := t) (l := sh.blocked)
    simp only [Frame.comes] at *
    omega
  | execute =>
    have := hcov hb
    simp only [Frame.comes] at *
    omega

omit [Fintype Tid] in
theorem Takes.noticed (h : Takes workers t sh fr act sh' fr' o) (hb : sh'.blocked ≠ [])
    (hstop : sh'.stop_ = true) :
    fr' = .notifyingAll ∨ sh.blocked ≠ [] ∧ sh.stop_ = true ∧ fr ≠ .notifyingAll := by
  cases h with
  | stop => exact .inl rfl
  | notifyAll => exact absurd rfl hb
  | block hgo => exact absurd (hgo.symm.trans hstop) Bool.false_ne_true
  | notify hw => exact .inr ⟨List.ne_nil_of_mem hw, hstop, nofun⟩
  | wake => exact .inr ⟨fun hnil => hb (by rw [hnil]; rfl), hstop, nofun⟩
  | _ => exact .inr ⟨hb, hstop, nofun⟩

omit [Fintype Tid] in
theorem Takes.exited (h : Takes workers t sh fr act sh' fr' o) :
    fr ≠ .returned ∧ (sh'.exited = sh.exited ∧ fr' ≠ .returned ∨
      sh'.exited = t :: sh.exited ∧ fr' = .returned) := by
  cases h with
  | exit => exact ⟨nofun, .inr ⟨rfl, rfl⟩⟩
  | _ => exact ⟨nofun, .inl ⟨rfl, nofun⟩⟩

omit [Fintype Tid] in
theorem Takes.joined (h : Takes workers t sh fr act sh' fr' o) (hfr : fr' = .joining ws) :
    ws = workers ∨ ∃ w, fr = .joining (w :: ws) := by
  cases h with
  | notifyAll => exact .inl (Frame.joining.inj hfr).symm
  | join => exact .inr ⟨_, by rw [Frame.joining.inj hfr]⟩
  | _ => cases hfr

end

theorem Rested.init (workers : List Tid) : Rested workers (State.init workers : State Tid Task) := by
  constructor <;> try simp [State.init]
  · intro t
    split <;> simp
  · intro t ws h
    split at h <;> cases h

theorem Rested.step (h : Rested workers s)
    (hs : (machine Task workers).step s x = some (s', o)) : Rested workers s' := by
  obtain ⟨t, act⟩ := x
  obtain ⟨sh, fr, es, hstep, rfl, rfl⟩ := Machine.interleave_step_iff.mp hs
  have htakes := step_takes hstep
  obtain ⟨hnodup, hblocked⟩ := htakes.blocked h.nodup (h.waiting t)
  have hwaiting : ∀ u ∈ sh.blocked, Function.update s.threads t fr u = .waiting := by
    intro u hu
    have hu' := hblocked u hu
    by_cases hut : u = t
    · subst hut
      simpa using hu'
    · rw [if_neg hut] at hu'
      rw [Function.update_of_ne hut]
      exact h.waiting u hu'
  refine ⟨hnodup, hwaiting, fun hb => ?_, fun hb hstop => ?_, fun u => ?_, fun u ws hu w hw => ?_⟩
  · have hsleep : sh.blocked.length ≤ total Frame.comes (Function.update s.threads t fr) :=
      length_le_total hnodup fun u hu => by rw [hwaiting u hu]; exact Nat.one_pos
    rw [total_update] at hsleep ⊢
    exact htakes.covered (fun hb => total_eq Frame.comes s.threads t ▸ h.covered hb) hsleep hb
  · rcases htakes.noticed hb hstop with rfl | ⟨hb, hstop, hne⟩
    · exact ⟨t, Function.update_self ..⟩
    · obtain ⟨u, hu⟩ := h.noticed hb hstop
      have hut : u ≠ t := by
        rintro rfl
        exact hne hu
      exact ⟨u, (Function.update_of_ne hut ..).trans hu⟩
  · obtain ⟨hne, hexit⟩ := htakes.exited
    by_cases hut : u = t
    · subst hut
      rcases hexit with ⟨he, hfr⟩ | ⟨he, hfr⟩
      · simpa [he, hfr, h.exited] using hne
      · simp [he, hfr]
    · rcases hexit with ⟨he, -⟩ | ⟨he, -⟩ <;> simp [he, hut, h.exited]
  · by_cases hut : u = t
    · subst hut
      rcases htakes.joined ((Function.update_self u fr s.threads).symm.trans hu) with rfl | ⟨w', hjoin⟩
      · exact hw
      · exact h.joined u _ hjoin w (List.mem_cons_of_mem _ hw)
    · exact h.joined u ws ((Function.update_of_ne hut ..).symm.trans hu) w hw

theorem Rested.run (h : Rested workers s)
    (hrun : (machine Task workers).run s as = some (s', os)) : Rested workers s' :=
  Machine.run_invariant (fun _ _ => True) (Rested workers) (fun _ _ _ _ hi _ hs => hi.step hs) h
    .trivial hrun

-- ---------------------------------------------------------------------------
-- Every interleaving
-- ---------------------------------------------------------------------------

theorem Rested.card_coming (h : Rested workers s) :
    s.coming.card + s.shared.blocked.length = total Frame.comes s.threads := by
  have hone : total Frame.comes s.threads =
      (Finset.univ.filter fun t => 0 < (s.threads t).comes).card := by
    rw [Finset.card_eq_sum_ones, Finset.sum_filter]
    refine Finset.sum_congr rfl fun t _ => ?_
    cases s.threads t <;> rfl
  have hsleep : s.shared.blocked.toFinset =
      (Finset.univ.filter fun t => 0 < (s.threads t).comes).filter (· ∈ s.shared.blocked) := by
    ext t
    simp only [List.mem_toFinset, Finset.mem_filter, Finset.mem_univ, true_and]
    exact ⟨fun ht => ⟨by rw [h.waiting t ht]; exact Nat.one_pos, ht⟩, And.right⟩
  rw [hone, ← List.toFinset_card_of_nodup h.nodup, hsleep, State.coming, ← Finset.filter_filter,
    Nat.add_comm, Finset.card_filter_add_card_filter_not]

/-- Who sleeps is a worker at its wait. While somebody sleeps, there are at
least as many threads on their way to the queue as tasks in it, and in a
stopped pool the destructor has yet to notify all. -/
theorem sleepers_covered (workers : List Tid) (as : List (Tid × Act Tid Task))
    (hrun : (machine Task workers).run (State.init workers) as = some (s, os)) :
    (∀ w ∈ s.shared.blocked, w ∈ workers ∧ s.threads w = .waiting) ∧
    (s.shared.blocked ≠ [] → s.shared.tasks_.length ≤ s.coming.card) ∧
    (s.shared.blocked ≠ [] → s.shared.stop_ → ∃ t, s.threads t = .notifyingAll) := by
  have hrest := (Rested.init workers).run hrun
  have hspread := (Spread.init workers).run hrun
  refine ⟨fun w hw => ⟨?_, hrest.waiting w hw⟩, fun hb => ?_, hrest.noticed⟩
  · exact (hspread.role w).mp (by rw [hrest.waiting w hw]; rfl)
  · have hcovered := hrest.covered hb
    have hcard := hrest.card_coming
    omega

def twoArrivals : List (Fin 4 × Act (Fin 4) Nat) :=
  [(0, .next), (1, .next), (2, .enqueue 7), (3, .enqueue 8), (2, .next), (3, .next)]

theorem sleepers_covered_twoArrivals :
    ∃ s os, (machine Nat [0, 1]).run (State.init [0, 1]) twoArrivals = some (s, os) ∧
      s.shared.blocked = [1, 0] ∧ s.shared.tasks_ = [7, 8] ∧ 2 ≤ s.coming.card := by
  have h : ((machine Nat [0, 1]).run (State.init [0, 1]) twoArrivals).map
      (fun r => (r.1.shared.blocked, r.1.shared.tasks_)) = some ([1, 0], [7, 8]) := by decide
  obtain ⟨⟨s, os⟩, hrun, hs⟩ := Option.map_eq_some_iff.mp h
  simp only [Prod.mk.injEq] at hs
  have hcovered := (sleepers_covered [0, 1] _ hrun).2.1 (by simp [hs.1])
  rw [hs.2] at hcovered
  exact ⟨s, os, hrun, hs.1, hs.2, hcovered⟩

end CppUtil.Threadpool

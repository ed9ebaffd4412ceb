import CppUtil.Threadpool.Wakeups

/-!
# The end of a `ThreadPool`

A stopped pool takes no new tasks, so what its threads still have to do is
bounded: `State.rank` goes down with every step that is neither a new call nor
a spurious wakeup. And as long as a worker has not returned, somebody can take
such a step. So the destructor gets its workers joined, whatever the order of
the steps (`shutdown_completes`).
-/

namespace CppUtil.Threadpool

open Lib

attribute [local instance] neZero_four

variable {Tid Task : Type}

/-- The steps that the threads take on their own: no client makes a new call,
and no worker wakes without a reason. -/
def Act.proceeds : Act Tid Task → Bool
  | .next | .notifyOne _ => true
  | .enqueue _ | .destroy | .wake => false

/-- The steps a thread of a stopped pool has to take, where the tasks it gets
are counted with the queue. -/
def Frame.rank (workers : Nat) : Frame Tid Task → Nat
  | .outside | .returned => 0
  | .enqueueing _ | .notifying | .looping => 1
  | .waiting | .running _ => 2
  | .stopping => workers + 3
  | .notifyingAll => workers + 2
  | .joining ws => ws.length

variable [Fintype Tid] [DecidableEq Tid] {workers : List Tid} {s s' : State Tid Task}

/-- The steps a stopped pool has to take: two for each task in the queue. -/
def State.rank (workers : List Tid) (s : State Tid Task) : Nat :=
  2 * s.shared.tasks_.length + total (Frame.rank workers.length) s.threads

section

variable {t : Tid} {sh sh' : Shared Tid Task} {fr fr' : Frame Tid Task} {act : Act Tid Task}
  {o : List (Event Task)}

omit [Fintype Tid] in
theorem Takes.stopped (h : Takes workers t sh fr act sh' fr' o) (hstop : sh.stop_ = true) :
    sh'.stop_ = true := by
  cases h with
  | stop => rfl
  | _ => exact hstop

omit [Fintype Tid] in
theorem Takes.rank_lt (h : Takes workers t sh fr act sh' fr' o) (hstop : sh.stop_ = true)
    (hact : act.proceeds) :
    2 * sh'.tasks_.length + fr'.rank workers.length < 2 * sh.tasks_.length + fr.rank workers.length := by
  cases h with
  | enqueue | destroy | wake => cases hact
  | accept hgo | block hgo => exact absurd (hgo.symm.trans hstop) Bool.false_ne_true
  | take hq =>
    simp only [hq, List.length_cons, Frame.rank]
    omega
  | join => simp [Frame.rank]
  | _ =>
    simp only [Frame.rank]
    omega

end

theorem State.rank_lt (hstop : s.shared.stop_ = true) (hx : x.2.proceeds)
    (hs : (machine Task workers).step s x = some (s', o)) : s'.rank workers < s.rank workers := by
  obtain ⟨t, act⟩ := x
  obtain ⟨sh, fr, es, hstep, rfl, rfl⟩ := Machine.interleave_step_iff.mp hs
  have hlt := (step_takes hstep).rank_lt hstop hx
  have htotal := total_eq (Frame.rank workers.length) s.threads t
  simp only [State.rank, total_update]
  omega

-- ---------------------------------------------------------------------------
-- States in which nobody can go on
-- ---------------------------------------------------------------------------

def State.Still (workers : List Tid) (s : State Tid Task) : Prop :=
  ∀ t act, act.proceeds → step workers t s.shared (s.threads t) act = none

section

variable {os : List (Tid × Event Task)}

omit [Fintype Tid] in
theorem State.Still.not_takes (h : s.Still workers) (hfr : s.threads t = fr) (hact : act.proceeds) :
    ¬ Takes workers t s.shared fr act sh' fr' o := by
  intro htakes
  have hnone := h t act hact
  rw [hfr, step_iff_takes.mpr htakes] at hnone
  cases hnone

theorem State.Still.none_blocked (h : s.Still workers) (hrest : Rested workers s)
    (hstop : s.shared.stop_ = true) : s.shared.blocked = [] := by
  by_contra hb
  obtain ⟨t, ht⟩ := hrest.noticed hb hstop
  exact h.not_takes ht rfl .notifyAll

theorem State.Still.returned (h : s.Still workers) (hrest : Rested workers s)
    (hspread : Spread workers os s) (hstop : s.shared.stop_ = true) (hw : w ∈ workers) :
    s.threads w = .returned := by
  have hrole := (hspread.role w).mpr hw
  cases hfr : s.threads w with
  | looping =>
    cases hq : s.shared.tasks_ with
    | nil => exact absurd (.exit hstop hq) (h.not_takes hfr rfl)
    | cons => exact absurd (.take hq) (h.not_takes hfr rfl)
  | waiting =>
    have hawake : w ∉ s.shared.blocked := by simp [h.none_blocked hrest hstop]
    exact absurd (.woken hawake) (h.not_takes hfr rfl)
  | running => exact absurd .execute (h.not_takes hfr rfl)
  | returned => rfl
  | _ => simp [hfr, Frame.isWorker] at hrole

/-- Clients are back from their calls, and a destructor has joined everybody. -/
theorem State.Still.finished (h : s.Still workers) (hrest : Rested workers s)
    (hspread : Spread workers os s) (hstop : s.shared.stop_ = true) (ht : t ∉ workers) :
    s.threads t = .outside ∨ s.threads t = .joining [] := by
  have hrole := mt (hspread.role t).mp ht
  cases hfr : s.threads t with
  | outside => exact .inl rfl
  | enqueueing => exact absurd (.reject hstop) (h.not_takes hfr rfl)
  | notifying =>
    exact absurd (.notifyNone (h.none_blocked hrest hstop)) (h.not_takes hfr rfl)
  | stopping => exact absurd .stop (h.not_takes hfr rfl)
  | notifyingAll => exact absurd .notifyAll (h.not_takes hfr rfl)
  | joining ws =>
    cases ws with
    | nil => exact .inr rfl
    | cons w ws =>
      have hw := hrest.joined t _ hfr w List.mem_cons_self
      have hexited := (hrest.exited w).mpr (h.returned hrest hspread hstop hw)
      exact absurd (.join hexited) (h.not_takes hfr rfl)
  | _ => simp [hfr, Frame.isWorker] at hrole

end

-- ---------------------------------------------------------------------------
-- Every interleaving
-- ---------------------------------------------------------------------------

/-- In a stopped pool the threads can take no more than `rank` steps on their
own, whatever their order, and when they have none left, all workers have
returned, the destructor has joined them, and every task that was accepted has
been executed. -/
theorem shutdown_completes (workers : List Tid) (hw : workers ≠ []) (as bs : List (Tid × Act Tid Task))
    (hrun : (machine Task workers).run (State.init workers) as = some (s, os))
    (hstop : s.shared.stop_ = true) (hbs : ∀ x ∈ bs, x.2.proceeds)
    (hmore : (machine Task workers).run s bs = some (s', os')) :
    bs.length ≤ s.rank workers ∧
    (s'.Still workers →
      (∀ w ∈ workers, s'.threads w = .returned) ∧
      (∀ t, t ∉ workers → s'.threads t = .outside ∨ s'.threads t = .joining []) ∧
      s'.shared.tasks_ = [] ∧ ((executed (os ++ os')).map Prod.snd).Perm (accepted os)) := by
  have hkeeps : ∀ s x o s', s.shared.stop_ = true → x.2.proceeds = true →
      (machine Task workers).step s x = some (s', o) → s'.shared.stop_ = true := by
    rintro s₁ x o s₂ hstop₁ - hs
    obtain ⟨sh, fr, es, hstep, rfl, -⟩ := Machine.interleave_step_iff.mp hs
    exact (step_takes hstep).stopped hstop₁
  have hmeets : (machine Task workers).Meets (fun _ x => x.2.proceeds = true) s bs :=
    .of_forall hbs
  constructor
  · have hlength := Machine.run_length_le _ (fun s => s.shared.stop_ = true) (State.rank workers)
      hkeeps (fun _ _ _ _ => State.rank_lt) hstop hmeets hmore
    omega
  · intro hstill
    have hrest := ((Rested.init workers).run hrun).run hmore
    have hspread := ((Spread.init workers).run hrun).run hmore
    have hstop' := Machine.run_invariant _ (fun s : State Tid Task => s.shared.stop_ = true) hkeeps hstop hmeets hmore
    have hret : ∀ w ∈ workers, s'.threads w = .returned :=
      fun w hw => hstill.returned hrest hspread hstop' hw
    obtain ⟨hempty, hperm⟩ := hspread.all_executed hw hret
    refine ⟨hret, fun t ht => hstill.finished hrest hspread hstop' ht, hempty, ?_⟩
    rw [List.nil_append] at hperm
    have hsame : accepted (os ++ os') = accepted os := by
      have hnone := none_accepted hstop hmore
      simp only [accepted, picked, List.filterMap_append, List.map_append] at hnone ⊢
      rw [hnone, List.append_nil]
    rwa [hsame] at hperm

def stoppedPool : List (Fin 4 × Act (Fin 4) Nat) :=
  [(0, .next), (2, .enqueue 7), (2, .next), (2, .notifyOne (some 0)), (2, .enqueue 8), (2, .next),
   (3, .destroy), (3, .next)]

def lastSteps : List (Fin 4 × Act (Fin 4) Nat) :=
  [(2, .notifyOne none), (3, .next), (0, .next), (0, .next), (1, .next), (0, .next), (1, .next),
   (1, .next), (0, .next), (3, .next), (3, .next)]

theorem shutdown_completes_stoppedPool :
    ∃ s os s' os', (machine Nat [0, 1]).run (State.init [0, 1]) stoppedPool = some (s, os) ∧
      (machine Nat [0, 1]).run s lastSteps = some (s', os') ∧ s'.Still [0, 1] ∧
      lastSteps.length ≤ s.rank [0, 1] ∧ ((executed (os ++ os')).map Prod.snd).Perm [7, 8] := by
  have h : ((machine Nat [0, 1]).run (State.init [0, 1]) stoppedPool).map
      (fun r => (r.1.shared.stop_, accepted r.2)) = some (true, [7, 8]) := by decide
  have h' : ((machine Nat [0, 1]).run (State.init [0, 1]) (stoppedPool ++ lastSteps)).map
      (fun r => (List.finRange 4).map r.1.threads) =
      some [.returned, .returned, .outside, .joining []] := by decide
  obtain ⟨⟨s, os⟩, hrun, hs⟩ := Option.map_eq_some_iff.mp h
  obtain ⟨⟨s', os''⟩, hrun', hs'⟩ := Option.map_eq_some_iff.mp h'
  obtain ⟨s₁, o₁, os', h₁, hmore, -⟩ := Machine.run_append_iff.mp hrun'
  cases hrun.symm.trans h₁
  simp only [Prod.mk.injEq] at hs
  have hstill : s'.Still [0, 1] := by
    have hfr : ∀ t, s'.threads t = .returned ∨ s'.threads t = .outside ∨
        s'.threads t = .joining [] := by
      have hall : ∀ fr ∈ (List.finRange 4).map s'.threads, fr = .returned ∨ fr = .outside ∨
          fr = .joining [] := by simp [hs']
      exact fun t => hall _ (List.mem_map_of_mem (List.mem_finRange t))
    intro t act hact
    rcases hfr t with h | h | h <;> rw [h] <;> cases act <;> first | rfl | cases hact
  obtain ⟨hlength, hend⟩ :=
    shutdown_completes [0, 1] (by simp) _ _ hrun hs.1 (by decide) hmore
  exact ⟨s, os, s', os', hrun, hmore, hstill, hlength, hs.2 ▸ (hend hstill).2.2.2⟩

end CppUtil.Threadpool

import CppUtil.Threadpool.ThreadPool

/-!
# Runs of a `ThreadPool`

`tasks_handed_once`: tasks are handed out in the order they were accepted,
each of them once; nothing is accepted after `stop_`; and when all workers have
returned, everything that was accepted has been executed.
-/

namespace CppUtil.Threadpool

open Lib

attribute [local instance] neZero_four

variable {Tid Task : Type}

def Frame.isWorker : Frame Tid Task → Bool
  | .looping | .waiting | .running _ | .returned => true
  | _ => false

structure Moves (sh : Shared Tid Task) (fr : Frame Tid Task)
    (sh' : Shared Tid Task) (fr' : Frame Tid Task) (o : List (Event Task)) : Prop where
  queue : sh.tasks_ ++ o.filterMap Event.accepted? = o.filterMap Event.handed? ++ sh'.tasks_
  mine : fr.task ++ o.filterMap Event.handed? = o.filterMap Event.executed? ++ fr'.task
  role : fr'.isWorker = fr.isWorker
  worker : o.filterMap Event.handed? ≠ [] → fr.isWorker
  stopped : sh.stop_ → sh'.stop_ ∧ o.filterMap Event.accepted? = []
  returned : fr' = .returned → sh'.stop_ ∧ sh'.tasks_ = []

section

variable {sh sh' : Shared Tid Task} {fr fr' : Frame Tid Task} {o : List (Event Task)}

theorem Moves.silent (hq : sh'.tasks_ = sh.tasks_) (hs : sh.stop_ → sh'.stop_)
    (htask : fr'.task = fr.task) (hrole : fr'.isWorker = fr.isWorker) (hret : fr' ≠ .returned) :
    Moves sh fr sh' fr' [] where
  queue := by simp [hq]
  mine := by simp [htask]
  role := hrole
  worker := by simp
  stopped h := ⟨hs h, rfl⟩
  returned h := absurd h hret

theorem work_moves (h : sh.work t = some (sh', fr', o)) : Moves sh .looping sh' fr' o := by
  unfold Shared.work at h
  split at h
  · cases h
    exact .silent rfl id rfl rfl nofun
  · split at h
    · rename_i hstop
      cases h
      rw [Bool.and_eq_true, List.isEmpty_iff] at hstop
      exact ⟨by simp, rfl, rfl, by simp, fun h => ⟨h, rfl⟩, fun _ => hstop⟩
    · split at h
      · cases h
      · rename_i task tasks hq
        cases h
        exact ⟨by simp [hq, Event.accepted?, Event.handed?],
          by simp [Frame.task, Event.handed?, Event.executed?], rfl, fun _ => rfl,
          fun h => ⟨h, rfl⟩, nofun⟩

theorem enqueue_moves (sh : Shared Tid Task) (task : Task) :
    Moves sh (.enqueueing task) (sh.enqueue task).1 (sh.enqueue task).2.1
      (sh.enqueue task).2.2 := by
  unfold Shared.enqueue
  split
  · exact ⟨List.append_nil _, rfl, rfl, by simp [List.filterMap_cons, Event.handed?],
      fun h => ⟨h, rfl⟩, nofun⟩
  · rename_i hstop
    exact ⟨rfl, rfl, rfl, by simp [List.filterMap_cons, Event.handed?],
      fun h => absurd h hstop, nofun⟩

theorem step_moves [DecidableEq Tid] (h : step workers t sh fr act = some (sh', fr', o)) : Moves sh fr sh' fr' o := by
  unfold step at h
  cases act with
  | enqueue task | destroy | wake =>
    cases fr <;> cases h
    exact .silent rfl id rfl rfl nofun
  | notifyOne w =>
    cases fr <;> cases w <;> simp only [Option.ite_none_right_eq_some, reduceCtorEq] at h
    all_goals
      obtain ⟨-, ⟨⟩⟩ := h
      exact .silent rfl id rfl rfl nofun
  | next =>
    cases fr with
    | outside | notifying | returned => cases h
    | enqueueing task =>
      have hm := enqueue_moves sh task
      rw [Option.some.inj h] at hm
      exact hm
    | stopping =>
      cases h
      exact .silent rfl (fun _ => rfl) rfl rfl nofun
    | notifyingAll =>
      cases h
      exact .silent rfl id rfl rfl nofun
    | joining ws =>
      cases ws with
      | nil => cases h
      | cons w ws =>
        simp only [Option.ite_none_right_eq_some] at h
        obtain ⟨-, ⟨⟩⟩ := h
        exact .silent rfl id rfl rfl nofun
    | looping => exact work_moves h
    | waiting =>
      simp only [Option.ite_none_left_eq_some] at h
      obtain ⟨-, ⟨⟩⟩ := h
      exact .silent rfl id rfl rfl nofun
    | running task =>
      cases h
      exact ⟨List.append_nil _, rfl, rfl, by simp [List.filterMap_cons, Event.handed?],
        fun h => ⟨h, rfl⟩, nofun⟩

end

-- ---------------------------------------------------------------------------
-- Histories
-- ---------------------------------------------------------------------------

theorem picked_append (kind : Event Task → Option Task) (os : List (Tid × Event Task))
    (o : List (Event Task)) :
    picked kind (os ++ o.map fun e => (t, e)) =
      picked kind os ++ (o.filterMap kind).map fun task => (t, task) := by
  simp only [picked, List.filterMap_append, List.filterMap_map, List.map_filterMap]
  rfl

theorem accepted_append (os : List (Tid × Event Task)) (o : List (Event Task)) :
    accepted (os ++ o.map fun e => (t, e)) = accepted os ++ o.filterMap Event.accepted? := by
  simp [accepted, picked_append, Function.comp_def]

theorem handed_append (os : List (Tid × Event Task)) (o : List (Event Task)) :
    handed (os ++ o.map fun e => (t, e)) =
      handed os ++ (o.filterMap Event.handed?).map fun task => (t, task) :=
  picked_append ..

theorem executed_append (os : List (Tid × Event Task)) (o : List (Event Task)) :
    executed (os ++ o.map fun e => (t, e)) =
      executed os ++ (o.filterMap Event.executed?).map fun task => (t, task) :=
  picked_append ..

variable [DecidableEq Tid]

/-- How the tasks of a run are spread over the queue and the threads. -/
structure Spread (workers : List Tid) (os : List (Tid × Event Task)) (s : State Tid Task) :
    Prop where
  queue : accepted os = (handed os).map Prod.snd ++ s.shared.tasks_
  mine : ∀ t, ofThread t (handed os) = ofThread t (executed os) ++ (s.threads t).task
  role : ∀ t, (s.threads t).isWorker ↔ t ∈ workers
  worker : ∀ x ∈ handed os, x.1 ∈ workers
  returned : ∀ t, s.threads t = .returned → s.shared.stop_ ∧ s.shared.tasks_ = []

variable {workers : List Tid} {s s' : State Tid Task}

theorem Spread.init (workers : List Tid) :
    Spread workers [] (State.init workers : State Tid Task) where
  queue := rfl
  mine t := by
    by_cases h : t ∈ workers <;> simp [State.init, h, handed, executed, picked, ofThread, Frame.task]
  role t := by
    by_cases h : t ∈ workers <;> simp [State.init, h, Frame.isWorker]
  worker := by simp [handed, picked]
  returned t := by
    by_cases h : t ∈ workers <;> simp [State.init, h]

theorem Spread.step (h : Spread workers os s)
    (hs : (machine Task workers).step s x = some (s', o)) : Spread workers (os ++ o) s' := by
  obtain ⟨t, act⟩ := x
  obtain ⟨sh, fr, es, hstep, rfl, rfl⟩ := Machine.interleave_step_iff.mp hs
  have hm := step_moves hstep
  constructor
  · rw [accepted_append, h.queue, handed_append, List.append_assoc, hm.queue]
    simp [Function.comp_def]
  · intro u
    simp only [handed_append, executed_append, ofThread_append, ofThread_map]
    by_cases hu : t = u
    · subst hu
      simp [h.mine, hm.mine]
    · simpa [hu, Function.update_of_ne (Ne.symm hu)] using h.mine u
  · intro u
    by_cases hu : u = t
    · subst hu
      simpa [hm.role] using h.role u
    · simpa [Function.update_of_ne hu] using h.role u
  · intro x hx
    rw [handed_append] at hx
    rcases List.mem_append.mp hx with hx | hx
    · exact h.worker x hx
    · obtain ⟨task, htask, rfl⟩ := List.mem_map.mp hx
      exact (h.role t).mp (hm.worker (List.ne_nil_of_mem htask))
  · intro u hu
    by_cases hut : u = t
    · subst hut
      exact hm.returned (by simpa using hu)
    · -- the pool had stopped with an empty queue, so nothing came in
      obtain ⟨hstop, hempty⟩ := h.returned u (by simpa [Function.update_of_ne hut] using hu)
      obtain ⟨hstop', hnone⟩ := hm.stopped hstop
      have hq := hm.queue
      rw [hempty, hnone] at hq
      exact ⟨hstop', (List.append_eq_nil_iff.mp hq.symm).2⟩

theorem Spread.run (h : Spread workers os s)
    (hrun : (machine Task workers).run s as = some (s', o)) : Spread workers (os ++ o) s' :=
  @Machine.run_keeps _ _ _ (machine Task workers) [] _ _ _ _ _ (fun _ _ => True)
    (fun _ os s => Spread workers os s) (fun _ _ _ _ _ _ hi _ hs => hi.step hs) h .trivial hrun

theorem none_accepted (hstop : s.shared.stop_)
    (hrun : (machine Task workers).run s as = some (s', o)) : accepted o = [] := by
  have hkeep := @Machine.run_keeps _ _ _ (machine Task workers) [] [] _ _ _ _ (fun _ _ => True)
    (fun _ os s => s.shared.stop_ ∧ accepted os = []) ?_ ⟨hstop, rfl⟩ .trivial hrun
  · exact hkeep.2
  · rintro _ os s₁ ⟨t, act⟩ _ s₂ ⟨hstop₁, hacc⟩ - hs
    obtain ⟨sh, fr, es, hstep, rfl, rfl⟩ := Machine.interleave_step_iff.mp hs
    obtain ⟨hstop₂, hnone⟩ := (step_moves hstep).stopped hstop₁
    exact ⟨hstop₂, by rw [accepted_append, hacc, hnone]; rfl⟩

theorem enqueue_stopped (hstop : s.shared.stop_) (ht : s.threads t = .enqueueing task) :
    ∃ s', (machine Task workers).step s (t, .next) = some (s', [(t, .rejected task)]) ∧
      s'.shared.tasks_ = s.shared.tasks_ := by
  refine ⟨⟨s.shared, Function.update s.threads t .outside⟩,
    Machine.interleave_step_iff.mpr ⟨s.shared, .outside, [.rejected task], ?_, rfl, rfl⟩, rfl⟩
  simp only [step, ht, Shared.enqueue, hstop, ↓reduceIte]

theorem Spread.all_executed (h : Spread workers os s) (hw : workers ≠ [])
    (hret : ∀ w ∈ workers, s.threads w = .returned) :
    s.shared.tasks_ = [] ∧ ((executed os).map Prod.snd).Perm (accepted os) := by
  obtain ⟨w, hmem⟩ := List.exists_mem_of_ne_nil workers hw
  have hempty := (h.returned w (hret w hmem)).2
  have hidle : ∀ t, (s.threads t).task = [] := by
    intro t
    by_cases ht : t ∈ workers
    · rw [hret t ht]
      rfl
    · have := mt (h.role t).mp ht
      cases hfr : s.threads t <;> simp_all [Frame.isWorker, Frame.task]
  have hperm : (executed os).Perm (handed os) :=
    perm_of_ofThread fun t => by rw [h.mine, hidle, List.append_nil]
  refine ⟨hempty, ?_⟩
  rw [h.queue, hempty, List.append_nil]
  exact hperm.map Prod.snd

-- ---------------------------------------------------------------------------
-- Every interleaving
-- ---------------------------------------------------------------------------

/-- What was accepted is what was handed out, in this order, and then what is
in the queue; it was handed to workers, and each has executed what it got
except for the task it is at; a stopped pool accepts nothing, `Enqueue` throws
and the queue stays; when all workers have returned, everything is executed. -/
theorem tasks_handed_once (workers : List Tid) (hw : workers ≠ []) (as : List (Tid × Act Tid Task))
    (hrun : (machine Task workers).run (State.init workers) as = some (s, os)) :
    accepted os = (handed os).map Prod.snd ++ s.shared.tasks_ ∧
    (∀ x ∈ handed os, x.1 ∈ workers) ∧
    (∀ t, ofThread t (handed os) = ofThread t (executed os) ++ (s.threads t).task) ∧
    (s.shared.stop_ →
      (∀ bs s' os', (machine Task workers).run s bs = some (s', os') → accepted os' = []) ∧
      ∀ t task, s.threads t = .enqueueing task →
        ∃ s', (machine Task workers).step s (t, .next) = some (s', [(t, .rejected task)]) ∧
          s'.shared.tasks_ = s.shared.tasks_) ∧
    ((∀ w ∈ workers, s.threads w = .returned) →
      s.shared.tasks_ = [] ∧ ((executed os).map Prod.snd).Perm (accepted os)) := by
  have h := (Spread.init workers).run hrun
  refine ⟨h.queue, h.worker, h.mine, fun hstop => ⟨?_, ?_⟩, h.all_executed hw⟩
  · intro bs s' os' hbs
    exact none_accepted hstop hbs
  · intro t task ht
    exact enqueue_stopped hstop ht

def busyPool : List (Fin 4 × Act (Fin 4) Nat) :=
  [(0, .next), (1, .next), (0, .wake), (0, .next), (2, .enqueue 7), (2, .next),
   (2, .notifyOne (some 1)), (1, .next), (1, .next), (2, .enqueue 8), (2, .next), (2, .notifyOne (some 0)), (2, .enqueue 9),
   (2, .next), (0, .next), (0, .next), (3, .destroy), (3, .next), (2, .notifyOne none),
   (2, .enqueue 10), (2, .next), (3, .next), (0, .next), (1, .next), (0, .next), (1, .next),
   (0, .next), (0, .next), (3, .next), (3, .next)]

set_option maxRecDepth 4000 in
theorem tasks_handed_once_busyPool :
    ∃ s os, (machine Nat [0, 1]).run (State.init [0, 1]) busyPool = some (s, os) ∧
      (∀ w ∈ ([0, 1] : List (Fin 4)), s.threads w = .returned) ∧ accepted os = [7, 8, 9] ∧
      ((executed os).map Prod.snd).Perm [7, 8, 9] := by
  have h : ((machine Nat [0, 1]).run (State.init [0, 1]) busyPool).map
      (fun r => (r.1.threads 0, r.1.threads 1, accepted r.2)) =
      some (.returned, .returned, [7, 8, 9]) := by decide
  obtain ⟨⟨s, os⟩, hrun, hs⟩ := Option.map_eq_some_iff.mp h
  simp only [Prod.mk.injEq] at hs
  obtain ⟨h0, h1, hacc⟩ := hs
  have hret : ∀ w ∈ ([0, 1] : List (Fin 4)), s.threads w = .returned := by simp [h0, h1]
  have hall := (tasks_handed_once [0, 1] (by simp) _ hrun).2.2.2.2 hret
  exact ⟨s, os, hrun, hret, hacc, hacc ▸ hall.2⟩

end CppUtil.Threadpool

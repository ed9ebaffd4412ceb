import CppUtil.Lockfree.LockFreeStackLaws

/-!
# Where the nodes of a `LockFreeStack` are

A node is on the list from `head_`, or a thread has it. A `Pop` that exchanges
`head_` for the `next` it read keeps this up only if the node still has that
`next`: it may have been popped, given another one and pushed again while the
`Pop` was between its read and its exchange. `placed_iff_current`: every node
stays in its one place throughout exactly those runs in which each exchange of
a `Pop` finds `next` as it was read.
-/

namespace CppUtil.Lockfree

open Lib

attribute [local instance] neZero_two

variable {Tid Node : Type} [DecidableEq Tid] [DecidableEq Node]

/-- If this step is the exchange of a `Pop` that goes through, the node it takes
off still has the `next` that was read. -/
def Current (s : State Tid Node) : Tid × Act Node → Prop
  | (t, .next) => (s.threads t).frame.Current s.shared
  | _ => True

instance (s : State Tid Node) : (x : Tid × Act Node) → Decidable (Current s x)
  | (t, .next) => inferInstanceAs (Decidable ((s.threads t).frame.Current s.shared))
  | (_, .push _) | (_, .pop) | (_, .spurious) => isTrue trivial

section

variable [Fintype Tid]

def State.having (s : State Tid Node) (n : Node) : Nat :=
  total (fun th => th.nodes.count n) s.threads

/-- The list from `head_` is `l`; every node is on it or with a thread, as often
as it was with a thread at first; and it is on the list as often as it was
pushed and not popped since. -/
structure Placed (owned : Tid → List Node) (os : List (Tid × Event Node)) (s : State Tid Node)
    (l : List Node) : Prop where
  linked : Linked s.shared.next s.shared.head_ l
  places : ∀ n, l.count n + s.having n = total (List.count n) owned
  events : ∀ n, l.count n + (os.map Prod.snd).count (.popped (some n)) =
    (os.map Prod.snd).count (.pushed n)

structure Placed.Ok (owned : Tid → List Node) (os : List (Tid × Event Node)) (s : State Tid Node)
    (l : List Node) : Prop where
  placed : Placed owned os s l
  frames : ∀ t, (s.threads t).frame.Ok s.shared

variable {owned : Tid → List Node} {s s' : State Tid Node}

omit [DecidableEq Tid] in
theorem Placed.init (next : Node → Option Node) (owned : Tid → List Node) :
    Placed.Ok owned [] (State.init next owned) [] := by
  refine ⟨⟨trivial, fun n => ?_, fun n => rfl⟩, fun t => trivial⟩
  simp [State.having, State.init, Thread.nodes, Frame.node, total]

theorem State.having_eq (s : State Tid Node) (t : Tid) (n : Node) :
    s.having n = (s.threads t).nodes.count n + others (fun th => th.nodes.count n) s.threads t :=
  total_eq ..

theorem Placed.not_mem (h : Placed owned os s l) (hone : ∀ n, total (List.count n) owned ≤ 1)
    (hn : n ∈ (s.threads t).nodes) : n ∉ l := by
  intro hl
  have h₁ := h.places n
  have h₂ := hone n
  have h₃ := List.count_pos_iff.mpr hn
  have h₄ := List.count_pos_iff.mpr hl
  rw [s.having_eq t] at h₁
  omega

theorem Placed.not_both (h : Placed owned os s l) (hone : ∀ n, total (List.count n) owned ≤ 1)
    (hu : u ≠ t) (hn : n ∈ (s.threads u).nodes) : n ∉ (s.threads t).nodes := by
  intro ht
  have h₁ := h.places n
  have h₂ := hone n
  have h₃ := List.count_pos_iff.mpr hn
  have h₄ := List.count_pos_iff.mpr ht
  have h₅ : (s.threads u).nodes.count n ≤ others (fun th => th.nodes.count n) s.threads t :=
    le_others (f := fun th => (Thread.nodes th).count n) hu
  rw [s.having_eq t] at h₁
  omega

theorem Placed.Ok.step {x : Tid × Act Node} (h : Placed.Ok owned os s l)
    (hone : ∀ n, total (List.count n) owned ≤ 1) (hx : Current s x)
    (hs : (machine Tid Node).step s x = some (s', o)) : ∃ l', Placed.Ok owned (os ++ o) s' l' := by
  obtain ⟨t, act⟩ := x
  obtain ⟨sh, th, es, hstep, rfl, rfl⟩ := Machine.interleave_step_iff.mp hs
  obtain ⟨l', hm⟩ := Thread.step_moves h.placed.linked (fun n => h.placed.not_mem hone)
    (h.frames t) (by rintro rfl; exact hx) hstep
  refine ⟨l', ⟨hm.linked, fun n => ?_, fun n => ?_⟩,
    (Function.forall_update_iff s.threads fun _ th => th.frame.Ok sh).mpr
      ⟨hm.frame, fun u hu => ?_⟩⟩
  · have h₁ := h.placed.places n
    have h₂ := hm.places n
    rw [s.having_eq t] at h₁
    rw [State.having, total_update]
    omega
  · have h₁ := h.placed.events n
    have h₂ := hm.events n
    simp only [List.map_append, List.map_map, Function.comp_def, List.map_id', List.count_append]
    omega
  · have hfr := h.frames u
    cases hf : (s.threads u).frame with
    | pushExchange n q =>
      rw [hf] at hfr
      have hn : n ∈ (s.threads u).nodes := by simp [Thread.nodes, hf, Frame.node]
      exact (hm.keeps n (h.placed.not_both hone hu hn)).trans hfr
    | idle | pushing | linking | popping | reading | popExchange => trivial

/-- An exchange with a `next` that is no longer the node's loses nodes, or
brings one onto the list that a thread has. -/
theorem Placed.not_placed (h : Placed owned os s l) (hfr : (s.threads t).frame = .popExchange a n)
    (ha : s.shared.head_ = some a) (hne : s.shared.next a ≠ n)
    (hs : (machine Tid Node).step s (t, .next) = some (s', o)) :
    ¬ ∃ l', Placed owned (os ++ o) s' l' := by
  rintro ⟨l', h'⟩
  obtain ⟨sh, th, es, hstep, rfl, rfl⟩ := Machine.interleave_step_iff.mp hs
  simp only [Thread.step, Thread.next, hfr, ha, ↓reduceIte] at hstep
  cases hstep
  have hl := h.linked
  rw [ha, linked_some_iff] at hl
  obtain ⟨m, rfl, hm⟩ := hl
  -- the node went to the thread, so the lists have the same nodes
  have hperm : l'.Perm m := by
    rw [List.perm_iff_count]
    intro b
    have h₁ := h.places b
    have h₂ := h'.places b
    rw [s.having_eq t] at h₁
    rw [State.having, total_update] at h₂
    simp only [Thread.nodes, hfr, Frame.node, List.nil_append, List.count_cons] at h₁ h₂
    omega
  exact hne (hm.eq_of_perm h'.linked hperm).symm

/-- Nodes that each belong to one thread at first are in one place throughout
exactly those runs in which every exchange of a `Pop` is current. -/
theorem placed_iff_current (next : Node → Option Node) (owned : Tid → List Node)
    (hone : ∀ n, total (List.count n) owned ≤ 1) (as : List (Tid × Act Node))
    (hrun : (machine Tid Node).run (State.init next owned) as = some (s, os)) :
    (machine Tid Node).Throughout (fun os s => ∃ l, Placed owned os s l) []
        (State.init next owned) as ↔
      (machine Tid Node).Meets Current (State.init next owned) as := by
  refine Machine.throughout_iff_meets Current (fun os s => ∃ l, Placed.Ok owned os s l) _
    ?_ ?_ ?_ ⟨[], Placed.init next owned⟩ hrun
  · rintro os s ⟨l, h⟩
    exact ⟨l, h.placed⟩
  · rintro os s x o s' ⟨l, h⟩ hx hs
    exact h.step hone hx hs
  · rintro os s ⟨t, act⟩ o s' ⟨l, h⟩ hx hs
    cases act with
    | push | pop | spurious => exact absurd trivial hx
    | next =>
      cases hf : (s.threads t).frame with
      | popExchange a n =>
        simp only [Current, hf, Frame.Current, not_forall] at hx
        obtain ⟨ha, hne⟩ := hx
        exact h.placed.not_placed hf ha hne hs
      | idle | pushing | linking | pushExchange | popping | reading =>
        simp [Current, hf, Frame.Current] at hx

end

def twoNodes : Fin 2 → List (Fin 2)
  | 0 => [0, 1]
  | 1 => []

theorem twoNodes_once : ∀ n, total (List.count n) twoNodes ≤ 1 := by
  decide

def push (t : Fin 2) (n : Fin 2) : List (Fin 2 × Act (Fin 2)) :=
  [(t, .push n), (t, .next), (t, .next), (t, .next)]

def pop (t : Fin 2) : List (Fin 2 × Act (Fin 2)) :=
  [(t, .pop), (t, .next), (t, .next), (t, .next)]

def pushedAgain : List (Fin 2 × Act (Fin 2)) :=
  push 0 1 ++ push 0 0 ++ [(1, .pop), (1, .next), (1, .next)] ++ pop 0 ++
    [(1, .next), (1, .next), (1, .next), (1, .spurious)] ++ push 0 0 ++
    [(1, .next), (1, .next), (1, .next)]

set_option maxRecDepth 4000 in
theorem placed_pushedAgain :
    ∃ s os, (machine (Fin 2) (Fin 2)).run (State.init (fun _ => none) twoNodes) pushedAgain =
        some (s, os) ∧ (s.threads 1).owned = [0] ∧
      (machine (Fin 2) (Fin 2)).Throughout (fun os s => ∃ l, Placed twoNodes os s l) []
        (State.init (fun _ => none) twoNodes) pushedAgain := by
  have h : ((machine (Fin 2) (Fin 2)).run (State.init (fun _ => none) twoNodes) pushedAgain).map
      (fun r => (r.1.threads 1).owned) = some [0] := by decide
  obtain ⟨⟨s, os⟩, hrun, hs⟩ := Option.map_eq_some_iff.mp h
  exact ⟨s, os, hrun, hs, (placed_iff_current _ _ twoNodes_once _ hrun).mpr (by decide)⟩

/-- Thread 1 has read the next node of node 0, which is node 1, when thread 0
pops both and pushes node 0 again. Its exchange puts node 1 back on the list. -/
def staleNext : List (Fin 2 × Act (Fin 2)) :=
  push 0 1 ++ push 0 0 ++ [(1, .pop), (1, .next), (1, .next)] ++ pop 0 ++ pop 0 ++ push 0 0 ++
    [(1, .next)] ++ pop 1

set_option maxRecDepth 4000 in
/-- Node 1 was pushed once and popped twice, and both threads have it. -/
theorem popped_twice_staleNext :
    ∃ s os, (machine (Fin 2) (Fin 2)).run (State.init (fun _ => none) twoNodes) staleNext =
        some (s, os) ∧ 1 ∈ (s.threads 0).owned ∧ 1 ∈ (s.threads 1).owned ∧
      (os.map Prod.snd).count (.pushed 1) = 1 ∧
      (os.map Prod.snd).count (.popped (some 1)) = 2 := by
  have h : ((machine (Fin 2) (Fin 2)).run (State.init (fun _ => none) twoNodes) staleNext).map
      (fun r => ((r.1.threads 0).owned, (r.1.threads 1).owned, r.2.map Prod.snd)) =
      some ([1], [1, 0], [.pushed 1, .pushed 0, .popped (some 0), .popped (some 1), .pushed 0,
        .popped (some 0), .popped (some 1)]) := by decide
  obtain ⟨⟨s, os⟩, hrun, hs⟩ := Option.map_eq_some_iff.mp h
  simp only [Prod.mk.injEq] at hs
  obtain ⟨h0, h1, hos⟩ := hs
  exact ⟨s, os, hrun, by simp [h0], by simp [h1], by rw [hos]; decide, by rw [hos]; decide⟩

end CppUtil.Lockfree

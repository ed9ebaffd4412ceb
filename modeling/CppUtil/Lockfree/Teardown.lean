import CppUtil.Lockfree.LockFreeStackRuns
import CppUtil.Lib.Progress

/-!
# `~LockFreeStack`

The destructor pops until the stack is empty and deletes what it gets. It runs
when no other thread is at the stack. `destructor_frees`: if every node was in
its one place until then, it reads no node that it has deleted, deletes each
node of the stack once, and comes to its end; with the nodes that threads have,
these are all nodes there are.
-/

namespace CppUtil.Lockfree

open Lib

attribute [local instance] neZero_two

variable {Node : Type}

/-- `frame` is where the call of `Pop` stands, `.idle` the head of the loop. A
read of a node that was deleted is a fault. -/
structure Teardown (Node : Type) where
  shared : Shared Node
  frame : Frame Node := .idle
  deleted : List Node := []
  finished : Bool := false
  fault : Bool := false

namespace Teardown

def returned (d : Teardown Node) : Event Node → Teardown Node
  | .popped none => { d with finished := true }
  | .popped (some node) => { d with deleted := d.deleted ++ [node] }
  | .pushed _ => d

variable [DecidableEq Node]

def step (d : Teardown Node) : Act Node → Option (Teardown Node × List Empty)
  | .push _ | .pop => none
  | act =>
    if d.finished || d.fault then none
    else
      match d.frame, act with
      | .idle, .next => some ({ d with frame := .popping }, [])
      | .reading a, .next =>
        if a ∈ d.deleted then some ({ d with fault := true }, [])
        else some ({ d with frame := .popExchange a (d.shared.next a) }, [])
      | frame, act =>
        -- here as well a compare-exchange may fail spuriously
        (Thread.step d.shared ⟨[], frame⟩ act).map fun (shared, th, o) =>
          (o.foldl returned { d with shared, frame := th.frame }, [])

def machine (Node : Type) [DecidableEq Node] : Machine (Teardown Node) (Act Node) Empty := ⟨step⟩

-- ---------------------------------------------------------------------------
-- One step
-- ---------------------------------------------------------------------------

end Teardown

/-- The destructor is in `Pop`, and what it has read of the head is current:
nobody else is there to change it. -/
def Frame.AtPop (sh : Shared Node) : Frame Node → Prop
  | .idle | .popping => True
  | .reading a => sh.head_ = some a
  | .popExchange a n => sh.head_ = some a ∧ n = sh.next a
  | .pushing _ | .linking _ _ | .pushExchange _ _ => False

def Frame.toReturn : Frame Node → Nat
  | .idle => 3
  | .popping => 2
  | .reading _ => 1
  | _ => 0

namespace Teardown

/-- Of the nodes `l` of the stack, `rest` are still to be deleted. -/
structure Leaves (l rest : List Node) (d : Teardown Node) : Prop where
  parts : l = d.deleted ++ rest
  linked : Linked d.shared.next d.shared.head_ rest
  stage : d.frame.AtPop d.shared
  finished : d.finished → rest = []
  sound : d.fault = false

/-- The steps a destructor has to take, when there are `n` nodes in all. -/
def rank (n : Nat) (d : Teardown Node) : Nat :=
  if d.finished then 0 else 4 * (n - d.deleted.length) + d.frame.toReturn + 1

variable {l rest : List Node} {d d' : Teardown Node} {act : Act Node}

theorem Leaves.moves (h : Leaves l rest d) (hfr : fr.AtPop d.shared) :
    Leaves l rest { d with frame := fr } :=
  ⟨h.parts, h.linked, hfr, h.finished, h.sound⟩

theorem rank_moves (hgo : d.finished = false) (hless : fr.toReturn < d.frame.toReturn) :
    rank n { d with frame := fr } < rank n d := by
  simp only [rank, hgo, Bool.false_eq_true, ↓reduceIte]
  omega

theorem Leaves.delete (h : Leaves l rest d) (hgo : d.finished = false)
    (ha : d.shared.head_ = some a) :
    ∃ rest', Leaves l rest' { d with
        shared := { d.shared with head_ := d.shared.next a }, frame := .idle,
        deleted := d.deleted ++ [a] } ∧
      rank l.length { d with
        shared := { d.shared with head_ := d.shared.next a }, frame := .idle,
        deleted := d.deleted ++ [a] } < rank l.length d := by
  have hlinked := h.linked
  rw [ha, linked_some_iff] at hlinked
  obtain ⟨rest', rfl, hrest⟩ := hlinked
  refine ⟨rest', ⟨by simp [h.parts], hrest, trivial, ?_, h.sound⟩, ?_⟩
  · simp [hgo]
  · have hlength : l.length = d.deleted.length + (rest'.length + 1) := by simp [h.parts]
    simp only [rank, hgo, Bool.false_eq_true, ↓reduceIte, List.length_append, List.length_singleton,
      Frame.toReturn]
    omega

variable [DecidableEq Node]

theorem Leaves.go (h : Leaves l rest d) (hs : step d act = some (d', o)) :
    d.finished = false ∧ ¬ (d.finished || d.fault) = true := by
  cases hfin : d.finished with
  | false => exact ⟨rfl, by simp [h.sound]⟩
  | true => cases act <;> simp [step, hfin] at hs

theorem Leaves.next (h : Leaves l rest d) (hl : l.Nodup) (hs : step d .next = some (d', o)) :
    ∃ rest', Leaves l rest' d' ∧ rank l.length d' < rank l.length d := by
  have hstage := h.stage
  obtain ⟨hgo, hif⟩ := h.go hs
  simp only [step, if_neg hif] at hs
  cases hfr : d.frame with
  | pushing | linking | pushExchange =>
    rw [hfr] at hstage
    exact hstage.elim
  | idle =>
    rw [hfr] at hs
    cases hs
    exact ⟨rest, h.moves trivial, rank_moves hgo (by simp [hfr, Frame.toReturn])⟩
  | popping =>
    rw [hfr] at hs
    simp only [Thread.step, Thread.next] at hs
    cases hhead : d.shared.head_ with
    | none =>
      rw [hhead] at hs
      cases hs
      have hnil : rest = [] := by simpa [hhead] using h.linked
      refine ⟨[], ⟨by simp [h.parts, hnil, returned], ?_, trivial, fun _ => rfl, h.sound⟩, ?_⟩
      · simp [returned, hhead]
      · simp [rank, returned, hgo]
    | some a =>
      rw [hhead] at hs
      cases hs
      exact ⟨rest, h.moves hhead, rank_moves hgo (by simp [hfr, Frame.toReturn])⟩
  | reading a =>
    rw [hfr] at hs hstage
    have hlive : a ∉ d.deleted := by
      have hlinked := h.linked
      rw [show d.shared.head_ = some a from hstage, linked_some_iff] at hlinked
      obtain ⟨rest', rfl, -⟩ := hlinked
      rw [h.parts] at hl
      exact fun ha => List.disjoint_of_nodup_append hl ha List.mem_cons_self
    simp only [hlive, ↓reduceIte] at hs
    cases hs
    exact ⟨rest, h.moves ⟨hstage, rfl⟩, rank_moves hgo (by simp [hfr, Frame.toReturn])⟩
  | popExchange a n =>
    rw [hfr] at hs hstage
    obtain ⟨ha, rfl⟩ := hstage
    simp only [Thread.step, Thread.next, ha, ↓reduceIte] at hs
    cases hs
    exact h.delete hgo ha

theorem Leaves.step (h : Leaves l rest d) (hl : l.Nodup) (hs : step d act = some (d', o)) :
    ∃ rest', Leaves l rest' d' ∧ (act = .next → rank l.length d' < rank l.length d) := by
  cases act with
  | push | pop => cases hs
  | next =>
    obtain ⟨rest', hleaves, hrank⟩ := h.next hl hs
    exact ⟨rest', hleaves, fun _ => hrank⟩
  | spurious =>
    have hstage := h.stage
    simp only [Teardown.step, if_neg (h.go hs).2] at hs
    cases hfr : d.frame with
    | pushing | linking | pushExchange =>
      rw [hfr] at hstage
      exact hstage.elim
    | popExchange =>
      rw [hfr] at hs
      cases hs
      exact ⟨rest, h.moves trivial, nofun⟩
    | _ =>
      rw [hfr] at hs
      cases hs

theorem Leaves.enabled (h : Leaves l rest d) (hgo : d.finished = false) :
    (Teardown.step d .next).isSome := by
  have hstage := h.stage
  simp only [Teardown.step, hgo, h.sound, Bool.or_self, Bool.false_eq_true, ↓reduceIte]
  cases hfr : d.frame with
  | pushing | linking | pushExchange =>
    rw [hfr] at hstage
    exact hstage.elim
  | idle => rfl
  | popping =>
    simp only [Thread.step, Thread.next]
    cases d.shared.head_ <;> rfl
  | reading a =>
    dsimp only
    split <;> rfl
  | popExchange a n =>
    simp only [Thread.step, Thread.next]
    split <;> rfl

theorem Leaves.run (h : Leaves l rest d) (hl : l.Nodup)
    (hrun : (machine Node).run d bs = some (d', es)) :
    (∃ rest', Leaves l rest' d') ∧
      ((∀ act ∈ bs, act = .next) → bs.length ≤ rank l.length d) := by
  have hkeeps : ∀ d₁ act o d₂, (∃ rest, Leaves l rest d₁) → Teardown.step d₁ act = some (d₂, o) →
      ∃ rest, Leaves l rest d₂ := by
    rintro d₁ act o d₂ ⟨rest₁, h₁⟩ hs
    obtain ⟨rest₂, h₂, -⟩ := h₁.step hl hs
    exact ⟨rest₂, h₂⟩
  constructor
  · exact Machine.run_invariant (fun _ _ => True) (fun d => ∃ rest, Leaves l rest d)
      (fun d₁ act o d₂ hi _ hs => hkeeps d₁ act o d₂ hi hs) ⟨rest, h⟩ .trivial hrun
  · intro hnext
    have hle := Machine.run_length_le (fun _ act => act = .next) (fun d => ∃ rest, Leaves l rest d)
      (rank l.length) (fun d₁ act o d₂ hi _ hs => hkeeps d₁ act o d₂ hi hs) ?_ ⟨rest, h⟩
      (.of_forall hnext) hrun
    · omega
    · rintro d₁ act o d₂ ⟨rest₁, h₁⟩ hact hs
      obtain ⟨rest₂, -, hrank⟩ := h₁.step hl hs
      exact hrank hact

end Teardown

-- ---------------------------------------------------------------------------
-- After any run
-- ---------------------------------------------------------------------------

variable {Tid : Type} [Fintype Tid] [DecidableEq Tid] [DecidableEq Node] {s : State Tid Node}

/-- After a run in which every node was in its one place and all calls have
returned, the stack is some list `l`: the nodes pushed and not popped since,
which together with those of the threads are all nodes. The destructor deletes
a part of `l`, in order, and at its end all of it; it never reads a deleted
node, it can always go on, and without spurious failures it takes at most
`4 * l.length + 4` steps. -/
theorem destructor_frees (next : Node → Option Node) (owned : Tid → List Node)
    (hone : ∀ n, total (List.count n) owned ≤ 1) (as : List (Tid × Act Node))
    (hcurrent : (machine Tid Node).Meets Current (State.init next owned) as)
    (hrun : (machine Tid Node).run (State.init next owned) as = some (s, os))
    (hidle : ∀ t, (s.threads t).frame = .idle) :
    ∃ l, (∀ n, l.count n + (os.map Prod.snd).count (.popped (some n)) =
        (os.map Prod.snd).count (.pushed n)) ∧
      (∀ n, l.count n + total (fun th => th.owned.count n) s.threads =
        total (List.count n) owned) ∧
      ∀ bs d es, (Teardown.machine Node).run { shared := s.shared } bs = some (d, es) →
        d.fault = false ∧ d.deleted <+: l ∧ (d.finished = true → d.deleted = l) ∧
        (d.finished = false → (d.step .next).isSome) ∧
        ((∀ act ∈ bs, act = .next) → bs.length ≤ 4 * l.length + 4) := by
  have hkeeps : ∀ (as : List (Tid × Act Node)) os s x o s', (∃ l, Placed.Ok owned os s l) →
      Current s x → (machine Tid Node).step s x = some (s', o) →
      ∃ l, Placed.Ok owned (os ++ o) s' l := by
    rintro - os s x o s' ⟨l, h⟩ hx hs
    exact h.step hone hx hs
  obtain ⟨l, hok⟩ := @Machine.run_keeps _ _ _ (machine Tid Node) [] [] _ _ _ _ Current
    (fun _ os s => ∃ l, Placed.Ok owned os s l) hkeeps ⟨[], Placed.init next owned⟩ hcurrent hrun
  have hplaces := hok.placed.places
  refine ⟨l, hok.placed.events, fun n => ?_, fun bs d es hbs => ?_⟩
  · rw [← hplaces n, Nat.add_left_cancel_iff]
    refine Finset.sum_congr rfl fun t _ => ?_
    simp [Thread.nodes, hidle t, Frame.node]
  · have hnodup : l.Nodup := by
      rw [List.nodup_iff_count_le_one]
      intro n
      have := hplaces n
      have := hone n
      omega
    have hstart : Teardown.Leaves l l { shared := s.shared } :=
      ⟨rfl, hok.placed.linked, trivial, by simp, rfl⟩
    obtain ⟨⟨rest, hleaves⟩, hlength⟩ := hstart.run hnodup hbs
    refine ⟨hleaves.sound, ⟨rest, hleaves.parts.symm⟩, fun hfin => ?_, hleaves.enabled, fun hnext => ?_⟩
    · rw [hleaves.parts, hleaves.finished hfin, List.append_nil]
    · simpa [Teardown.rank, Frame.toReturn] using hlength hnext

theorem destructor_frees_oneLeft :
    ∃ s os d es, (machine (Fin 2) (Fin 2)).run (State.init (fun _ => none) twoNodes)
        (push 0 1 ++ push 0 0 ++ pop 1) = some (s, os) ∧
      (Teardown.machine (Fin 2)).run { shared := s.shared }
        [.next, .next, .next, .spurious, .next, .next, .next, .next, .next] = some (d, es) ∧
      d.finished = true ∧ d.fault = false ∧
      (d.deleted.count 1 + (os.map Prod.snd).count (.popped (some 1)) =
        (os.map Prod.snd).count (.pushed 1)) := by
  have h : ((machine (Fin 2) (Fin 2)).run (State.init (fun _ => none) twoNodes)
      (push 0 1 ++ push 0 0 ++ pop 1)).map (fun r =>
        (decide (∀ t, (r.1.threads t).frame.node = [] ∧ (r.1.threads t).frame.toReturn = 3),
        ((Teardown.machine (Fin 2)).run { shared := r.1.shared }
          [.next, .next, .next, .spurious, .next, .next, .next, .next, .next]).map
            fun d => d.1.finished)) = some (true, some true) := by decide
  obtain ⟨⟨s, os⟩, hrun, hs⟩ := Option.map_eq_some_iff.mp h
  simp only [Prod.mk.injEq, decide_eq_true_eq] at hs
  obtain ⟨⟨d, es⟩, hd, hfin⟩ := Option.map_eq_some_iff.mp hs.2
  have hidle : ∀ t, (s.threads t).frame = .idle := by
    intro t
    have hthree := (hs.1 t).2
    cases hfr : (s.threads t).frame <;> simp [hfr, Frame.toReturn] at hthree ⊢
  obtain ⟨l, hevents, -, hall⟩ :=
    destructor_frees _ _ twoNodes_once _ (by decide) hrun hidle
  obtain ⟨hsound, -, hdone, -⟩ := hall _ d es hd
  exact ⟨s, os, d, es, hrun, hd, hfin, hsound, by rw [hdone hfin]; exact hevents 1⟩

end CppUtil.Lockfree

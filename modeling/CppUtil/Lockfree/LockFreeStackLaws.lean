import CppUtil.Lockfree.LockFreeStack

/-!
# One step on a `LockFreeStack`

`Thread.Moves` says what a step does to the list from `head_` and to the nodes
its thread has: between them they keep every node, and only a node of the
thread gets a new `next`. `Thread.step_moves` proves it of every step but one:
a `Pop` whose exchange goes through although the node no longer has the `next`
that was read.
-/

namespace CppUtil.Lockfree

open Lib

variable {Node : Type} [DecidableEq Node]

def Frame.node : Frame Node → List Node
  | .pushing n | .linking n _ | .pushExchange n _ => [n]
  | .idle | .popping | .reading _ | .popExchange _ _ => []

def Thread.nodes (th : Thread Node) : List Node := th.frame.node ++ th.owned

def Frame.Ok (sh : Shared Node) : Frame Node → Prop
  | .pushExchange n h => sh.next n = h
  | _ => True

/-- If the exchange of a `Pop` goes through, the node it takes off still has
the `next` that was read. -/
def Frame.Current (sh : Shared Node) : Frame Node → Prop
  | .popExchange a n => sh.head_ = some a → sh.next a = n
  | _ => True

instance (sh : Shared Node) : (fr : Frame Node) → Decidable (fr.Current sh)
  | .popExchange a n => inferInstanceAs (Decidable (sh.head_ = some a → sh.next a = n))
  | .idle | .pushing _ | .linking _ _ | .pushExchange _ _ | .popping | .reading _ => isTrue trivial

-- ---------------------------------------------------------------------------
-- One step
-- ---------------------------------------------------------------------------

structure Thread.Moves (sh : Shared Node) (th : Thread Node) (l : List Node)
    (sh' : Shared Node) (th' : Thread Node) (l' : List Node) (o : List (Event Node)) : Prop where
  linked : Linked sh'.next sh'.head_ l'
  places : ∀ n, l'.count n + th'.nodes.count n = l.count n + th.nodes.count n
  events : ∀ n, l'.count n + o.count (.popped (some n)) = l.count n + o.count (.pushed n)
  frame : th'.frame.Ok sh'
  keeps : ∀ n, n ∉ th.nodes → sh'.next n = sh.next n

variable {sh sh' : Shared Node} {th th' : Thread Node} {l : List Node}

theorem Thread.moves_frame (hl : Linked sh.next sh.head_ l) (hnode : fr.node = th.frame.node)
    (hfr : fr.Ok sh) (ho : ∀ n, o.count (.popped (some n)) = o.count (.pushed n)) :
    th.Moves sh l sh { th with frame := fr } l o where
  linked := hl
  places n := by rw [Thread.nodes, hnode, Thread.nodes]
  events n := by rw [ho]
  frame := hfr
  keeps _ _ := rfl

theorem Thread.moves_push (hl : Linked sh.next sh.head_ l) (hidle : th.frame = .idle)
    (hn : n ∈ th.owned) : th.Moves sh l sh ⟨th.owned.erase n, .pushing n⟩ l [] where
  linked := hl
  places m := by
    have hperm : (n :: th.owned.erase n).Perm th.owned := (List.perm_cons_erase hn).symm
    simp [Thread.nodes, Frame.node, hidle, hperm.count_eq m]
  events _ := rfl
  frame := trivial
  keeps _ _ := rfl

theorem Thread.moves_linking (hl : Linked sh.next sh.head_ l)
    (hown : ∀ m ∈ th.nodes, m ∉ l) (hfr : th.frame = .linking n h) :
    th.Moves sh l { sh with next := Function.update sh.next n h }
      { th with frame := .pushExchange n h } l [] := by
  have hn : n ∈ th.nodes := by simp [Thread.nodes, hfr, Frame.node]
  refine ⟨hl.update (hown n hn), fun m => ?_, fun _ => rfl, Function.update_self .., fun m hm => ?_⟩
  · simp [Thread.nodes, hfr, Frame.node]
  · apply Function.update_of_ne
    rintro rfl
    exact hm hn

theorem Thread.moves_pushExchange (hl : Linked sh.next sh.head_ l)
    (hok : th.frame.Ok sh) (hfr : th.frame = .pushExchange n h) (hh : sh.head_ = h) :
    th.Moves sh l { sh with head_ := some n } { th with frame := .idle } (n :: l)
      [.pushed n] := by
  rw [hfr] at hok
  refine ⟨linked_cons_iff.mpr ⟨rfl, ?_⟩, fun m => ?_, fun m => ?_, trivial, fun _ _ => rfl⟩
  · rwa [hok, ← hh]
  · simp only [Thread.nodes, hfr, Frame.node, List.nil_append, List.singleton_append,
      List.count_cons]
    omega
  · simp [List.count_cons]

theorem Thread.moves_popExchange (hl : Linked sh.next sh.head_ l)
    (hcur : th.frame.Current sh) (hfr : th.frame = .popExchange a n) (ha : sh.head_ = some a) :
    ∃ l', th.Moves sh l { sh with head_ := n } ⟨a :: th.owned, .idle⟩ l' [.popped (some a)] := by
  rw [hfr] at hcur
  rw [ha, linked_some_iff, hcur ha] at hl
  obtain ⟨l', rfl, hl'⟩ := hl
  refine ⟨l', hl', fun m => ?_, fun m => ?_, trivial, fun _ _ => rfl⟩
  · simp only [Thread.nodes, hfr, Frame.node, List.nil_append, List.count_cons]
    omega
  · simp [List.count_cons]

theorem Thread.next_moves (hl : Linked sh.next sh.head_ l) (hown : ∀ m ∈ th.nodes, m ∉ l)
    (hok : th.frame.Ok sh) (hcur : th.frame.Current sh)
    (hs : th.next sh = some (sh', th', o)) : ∃ l', th.Moves sh l sh' th' l' o := by
  unfold Thread.next at hs
  cases hfr : th.frame with
  | idle =>
    rw [hfr] at hs
    cases hs
  | pushing n =>
    rw [hfr] at hs
    cases hs
    exact ⟨l, Thread.moves_frame hl (by rw [hfr]; rfl) trivial fun _ => rfl⟩
  | linking n h =>
    rw [hfr] at hs
    cases hs
    exact ⟨l, Thread.moves_linking hl hown hfr⟩
  | pushExchange n h =>
    rw [hfr] at hs
    dsimp only at hs
    split at hs
    · cases hs
      exact ⟨n :: l, Thread.moves_pushExchange hl hok hfr ‹_›⟩
    · cases hs
      exact ⟨l, Thread.moves_frame hl (by rw [hfr]; rfl) trivial fun _ => rfl⟩
  | popping =>
    rw [hfr] at hs
    dsimp only at hs
    split at hs
    · cases hs
      exact ⟨l, Thread.moves_frame hl (by rw [hfr]; rfl) trivial fun _ => by simp⟩
    · cases hs
      exact ⟨l, Thread.moves_frame hl (by rw [hfr]; rfl) trivial fun _ => rfl⟩
  | reading a =>
    rw [hfr] at hs
    cases hs
    exact ⟨l, Thread.moves_frame hl (by rw [hfr]; rfl) trivial fun _ => rfl⟩
  | popExchange a n =>
    rw [hfr] at hs
    dsimp only at hs
    split at hs
    · cases hs
      exact Thread.moves_popExchange hl hcur hfr ‹_›
    · cases hs
      exact ⟨l, Thread.moves_frame hl (by rw [hfr]; rfl) trivial fun _ => rfl⟩

theorem Thread.step_moves (hl : Linked sh.next sh.head_ l) (hown : ∀ m ∈ th.nodes, m ∉ l)
    (hok : th.frame.Ok sh) (hcur : act = .next → th.frame.Current sh)
    (hs : th.step sh act = some (sh', th', o)) : ∃ l', th.Moves sh l sh' th' l' o := by
  unfold Thread.step at hs
  cases act with
  | next => exact Thread.next_moves hl hown hok (hcur rfl) hs
  | push n =>
    cases hfr : th.frame <;> rw [hfr] at hs
    case idle =>
      simp only [Option.ite_none_right_eq_some] at hs
      obtain ⟨hn, ⟨⟩⟩ := hs
      exact ⟨l, Thread.moves_push hl hfr hn⟩
    all_goals cases hs
  | pop | spurious =>
    cases hfr : th.frame <;> rw [hfr] at hs <;> cases hs
    all_goals exact ⟨l, Thread.moves_frame hl (by rw [hfr]; rfl) trivial fun _ => rfl⟩

end CppUtil.Lockfree

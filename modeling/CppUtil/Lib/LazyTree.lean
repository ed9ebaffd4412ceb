import Mathlib.Algebra.BigOperators.Intervals
import Mathlib.Algebra.Ring.Basic
import Mathlib.Tactic.LinearCombination
import Mathlib.Tactic.Ring

/-!
# Perfect binary trees with pending additions

A tree of depth `d` covers the `2 ^ d` indices from `lo` on. Every node keeps
the sum of its indices and an amount still to be added to each index below it.
The depth is in the type, so only perfect trees can be built.

`get` reads the array a tree stands for. It looks at the leaves and at the
pending amounts only, never at the sums of inner nodes; `Consistent` says that
these sums agree with it. Both notions are needed apart: an operation can keep
the array right and leave a wrong sum behind.
-/

namespace CppUtil.Lib

inductive LazyTree (R : Type*) : Nat → Type _
  | leaf (sum pending : R) : LazyTree R 0
  | node (sum pending : R) (left right : LazyTree R d) : LazyTree R (d + 1)

namespace LazyTree

variable {R : Type*}

def sum : LazyTree R d → R
  | .leaf s _ | .node s _ _ _ => s

def pending : LazyTree R d → R
  | .leaf _ z | .node _ z _ _ => z

@[simp] theorem sum_leaf (s z : R) : (leaf s z).sum = s := rfl
@[simp] theorem sum_node (s z : R) (l r : LazyTree R d) : (node s z l r).sum = s := rfl

variable [CommRing R]

/-- The value at index `k` of the array the tree stands for, when the tree
covers the indices from `lo` on. -/
def get : LazyTree R d → Nat → Nat → R
  | .leaf s _, _, _ => s
  | .node (d := d) _ z l r, lo, k =>
    z + if k < lo + 2 ^ d then l.get lo k else r.get (lo + 2 ^ d) k

/-- Every inner sum is the sum of its indices, pending amounts above it apart. -/
def Consistent : LazyTree R d → Prop
  | .leaf _ _ => True
  | .node (d := d) s z l r =>
    s = l.sum + r.sum + z * 2 ^ (d + 1) ∧ l.Consistent ∧ r.Consistent

-- ---------------------------------------------------------------------------
-- Operations
-- ---------------------------------------------------------------------------

def zero : (d : Nat) → LazyTree R d
  | 0 => .leaf 0 0
  | d + 1 => .node 0 0 (zero d) (zero d)

def addAll (x : R) : LazyTree R d → LazyTree R d
  | .leaf s z => .leaf (s + x) (z + x)
  | .node (d := d) s z l r => .node (s + x * 2 ^ (d + 1)) (z + x) l r

/-- Add `x` at index `k`. The sums on the path are recomputed from the
children, and the pending amounts on the path stay where they are. -/
def addAt (k : Nat) (x : R) : LazyTree R d → Nat → LazyTree R d
  | .leaf s z, _ => .leaf (s + x) z
  | .node (d := d) _ z l r, lo =>
    if k < lo + 2 ^ d then
      let l' := l.addAt k x lo
      .node (l'.sum + r.sum) z l' r
    else
      let r' := r.addAt k x (lo + 2 ^ d)
      .node (l.sum + r'.sum) z l r'

def addRange (i j : Nat) (x : R) : LazyTree R d → Nat → LazyTree R d
  | .leaf s z, _ => (LazyTree.leaf s z).addAll x
  | .node (d := d) s z l r, lo =>
    if i ≤ lo ∧ lo + 2 ^ (d + 1) ≤ j + 1 then (LazyTree.node s z l r).addAll x
    else
      let l' := if i < lo + 2 ^ d then (l.addAll z).addRange i j x lo else l.addAll z
      let r' := if lo + 2 ^ d ≤ j then (r.addAll z).addRange i j x (lo + 2 ^ d) else r.addAll z
      .node (l'.sum + r'.sum) 0 l' r'

/-- The sum over the indices from `i` to `j`, with the tree left behind:
pending amounts on the way have moved down, sums have not been recomputed. -/
def query (i j : Nat) : LazyTree R d → Nat → R × LazyTree R d
  | .leaf s z, _ => (s, .leaf s z)
  | .node (d := d) s z l r, lo =>
    if i ≤ lo ∧ lo + 2 ^ (d + 1) ≤ j + 1 then (s, .node s z l r)
    else
      let a := if i < lo + 2 ^ d then (l.addAll z).query i j lo else (0, l.addAll z)
      let b := if lo + 2 ^ d ≤ j then (r.addAll z).query i j (lo + 2 ^ d) else (0, r.addAll z)
      (a.1 + b.1, .node s 0 a.2 b.2)

-- ---------------------------------------------------------------------------
-- Pending amounts
-- ---------------------------------------------------------------------------

@[simp] theorem zero_sum : (zero d : LazyTree R d).sum = 0 := by
  cases d <;> rfl

@[simp] theorem zero_get : (zero d : LazyTree R d).get lo k = 0 := by
  induction d generalizing lo with
  | zero => rfl
  | succ d ih => simp [zero, get, ih]

theorem zero_consistent : (zero d : LazyTree R d).Consistent := by
  induction d with
  | zero => trivial
  | succ d ih => exact ⟨by simp, ih, ih⟩

@[simp] theorem addAll_sum (x : R) (t : LazyTree R d) : (t.addAll x).sum = t.sum + x * 2 ^ d := by
  cases t <;> simp [addAll]

@[simp] theorem addAll_zero (t : LazyTree R d) : t.addAll 0 = t := by
  cases t <;> simp [addAll]

@[simp] theorem addAll_get (x : R) (t : LazyTree R d) :
    (t.addAll x).get lo k = t.get lo k + x := by
  cases t with
  | leaf s z => rfl
  | node s z l r => simp only [addAll, get]; ring

@[simp] theorem addAll_consistent (x : R) (t : LazyTree R d) :
    (t.addAll x).Consistent ↔ t.Consistent := by
  cases t with
  | leaf s z => exact Iff.rfl
  | node s z l r =>
    simp only [addAll, Consistent]
    refine and_congr_left fun _ => ⟨fun h => ?_, fun h => ?_⟩
    · linear_combination h
    · linear_combination h

theorem Consistent.sum_eq {t : LazyTree R d} (h : t.Consistent) (lo : Nat) :
    t.sum = ∑ k ∈ Finset.Ico lo (lo + 2 ^ d), t.get lo k := by
  induction t generalizing lo with
  | leaf s z => simp [get]
  | @node d s z l r ihl ihr =>
    obtain ⟨hs, hl, hr⟩ := h
    have hsplit : lo + 2 ^ (d + 1) = lo + 2 ^ d + 2 ^ d := by rw [pow_succ]; omega
    have hleft : ∑ k ∈ Finset.Ico lo (lo + 2 ^ d), (node s z l r).get lo k =
        z * 2 ^ d + l.sum := by
      rw [ihl hl lo, Finset.sum_congr rfl (g := fun k => z + l.get lo k)]
      · simp [Finset.sum_add_distrib, mul_comm]
      · intro k hk
        simp [get, (Finset.mem_Ico.mp hk).2]
    have hright : ∑ k ∈ Finset.Ico (lo + 2 ^ d) (lo + 2 ^ d + 2 ^ d), (node s z l r).get lo k =
        z * 2 ^ d + r.sum := by
      rw [ihr hr (lo + 2 ^ d), Finset.sum_congr rfl (g := fun k => z + r.get (lo + 2 ^ d) k)]
      · simp [Finset.sum_add_distrib, mul_comm]
      · intro k hk
        simp [get, Nat.not_lt.mpr (Finset.mem_Ico.mp hk).1]
    rw [hsplit, ← Finset.sum_Ico_consecutive _ (Nat.le_add_right lo (2 ^ d)) (Nat.le_add_right _ _),
      hleft, hright, sum_node, hs]
    ring

-- ---------------------------------------------------------------------------
-- Adding over a range
-- ---------------------------------------------------------------------------

theorem addRange_get (x : R) (t : LazyTree R d) (hi : i < lo + 2 ^ d) (hj : lo ≤ j)
    (hlo : lo ≤ k) (hk : k < lo + 2 ^ d) :
    (t.addRange i j x lo).get lo k = t.get lo k + if i ≤ k ∧ k ≤ j then x else 0 := by
  induction d generalizing lo with
  | zero =>
    cases t with
    | leaf s z =>
      have hik : i ≤ k ∧ k ≤ j := by omega
      simp [addRange, hik]
  | succ d ih =>
    cases t with
    | node s z l r =>
      rw [pow_succ] at hi hk
      simp only [addRange]
      split
      · rename_i hin
        have hik : i ≤ k ∧ k ≤ j := by rw [pow_succ] at hin; omega
        rw [addAll_get, if_pos hik]
      · simp only [get, zero_add]
        by_cases hm : k < lo + 2 ^ d
        · simp only [if_pos hm]
          split
          · rename_i hl
            rw [ih _ hl hj hlo hm, addAll_get]
            ring
          · have hik : ¬(i ≤ k ∧ k ≤ j) := by omega
            rw [addAll_get, if_neg hik]
            ring
        · simp only [if_neg hm]
          split
          · rename_i hr
            rw [ih _ (by omega) hr (by omega) (by omega), addAll_get]
            ring
          · have hik : ¬(i ≤ k ∧ k ≤ j) := by omega
            rw [addAll_get, if_neg hik]
            ring

theorem Consistent.addRange {t : LazyTree R d} (h : t.Consistent) (i j : Nat) (x : R) (lo : Nat) :
    (t.addRange i j x lo).Consistent := by
  induction d generalizing lo with
  | zero => cases t; trivial
  | succ d ih =>
    cases t with
    | node s z l r =>
      have hl : (l.addAll z).Consistent := (addAll_consistent z l).mpr h.2.1
      have hr : (r.addAll z).Consistent := (addAll_consistent z r).mpr h.2.2
      simp only [LazyTree.addRange]
      split
      · exact (addAll_consistent x _).mpr h
      · refine ⟨by ring, ?_, ?_⟩
        · split
          · exact ih hl lo
          · exact hl
        · split
          · exact ih hr (lo + 2 ^ d)
          · exact hr

-- ---------------------------------------------------------------------------
-- Queries
-- ---------------------------------------------------------------------------

theorem query_get (t : LazyTree R d) (i j lo k : Nat) :
    (t.query i j lo).2.get lo k = t.get lo k := by
  induction d generalizing lo with
  | zero => cases t; rfl
  | succ d ih =>
    cases t with
    | node s z l r =>
      simp only [query]
      split
      · rfl
      · simp only [get, zero_add]
        split
        · split
          · rw [ih, addAll_get, add_comm]
          · rw [addAll_get, add_comm]
        · split
          · rw [ih, addAll_get, add_comm]
          · rw [addAll_get, add_comm]

theorem query_sum (t : LazyTree R d) (i j lo : Nat) : (t.query i j lo).2.sum = t.sum := by
  cases t with
  | leaf s z => rfl
  | node s z l r =>
    simp only [query]
    split <;> rfl

theorem Consistent.query {t : LazyTree R d} (h : t.Consistent) (i j lo : Nat) :
    (t.query i j lo).2.Consistent := by
  induction d generalizing lo with
  | zero => cases t; trivial
  | succ d ih =>
    cases t with
    | node s z l r =>
      have hl : (l.addAll z).Consistent := (addAll_consistent z l).mpr h.2.1
      have hr : (r.addAll z).Consistent := (addAll_consistent z r).mpr h.2.2
      simp only [LazyTree.query]
      split
      · exact h
      · refine ⟨?_, ?_, ?_⟩
        · have hs := h.1
          split <;> split <;> simp only [query_sum, addAll_sum, hs] <;> ring
        · split
          · exact ih hl lo
          · exact hl
        · split
          · exact ih hr (lo + 2 ^ d)
          · exact hr

theorem Consistent.query_eq {t : LazyTree R d} (h : t.Consistent) (hi : i < lo + 2 ^ d)
    (hj : lo ≤ j) :
    (t.query i j lo).1 =
      ∑ k ∈ Finset.Ico lo (lo + 2 ^ d), if i ≤ k ∧ k ≤ j then t.get lo k else 0 := by
  induction d generalizing lo with
  | zero =>
    cases t with
    | leaf s z =>
      have hij : i ≤ lo ∧ lo ≤ j := by omega
      simp [LazyTree.query, get, hij]
  | succ d ih =>
    cases t with
    | node s z l r =>
      have hsplit : lo + 2 ^ (d + 1) = lo + 2 ^ d + 2 ^ d := by rw [pow_succ]; omega
      have hl : (l.addAll z).Consistent := (addAll_consistent z l).mpr h.2.1
      have hr : (r.addAll z).Consistent := (addAll_consistent z r).mpr h.2.2
      simp only [LazyTree.query]
      split
      · rename_i hin
        change (node s z l r).sum = _
        rw [h.sum_eq lo]
        refine Finset.sum_congr rfl fun k hk => ?_
        rw [Finset.mem_Ico] at hk
        rw [if_pos (by omega)]
      · rw [hsplit, ← Finset.sum_Ico_consecutive _ (Nat.le_add_right lo (2 ^ d)) (Nat.le_add_right _ _)]
        refine congrArg₂ (· + ·) ?_ ?_
        · split
          · rename_i hil
            rw [ih hl hil hj]
            refine Finset.sum_congr rfl fun k hk => ?_
            simp [get, (Finset.mem_Ico.mp hk).2, add_comm]
          · refine (Finset.sum_eq_zero fun k hk => ?_).symm
            rw [Finset.mem_Ico] at hk
            rw [if_neg (by omega)]
        · split
          · rename_i hjr
            rw [ih hr (by omega) hjr]
            refine Finset.sum_congr rfl fun k hk => ?_
            simp [get, Nat.not_lt.mpr (Finset.mem_Ico.mp hk).1, add_comm]
          · refine (Finset.sum_eq_zero fun k hk => ?_).symm
            rw [Finset.mem_Ico] at hk
            rw [if_neg (by omega)]

/-- Queries see every sum: if all queries inside the tree are answered right,
no inner sum is wrong. Together with `Consistent.query_eq` this makes
`Consistent` the exact condition for right answers. -/
theorem consistent_of_query {t : LazyTree R d}
    (h : ∀ i j, lo ≤ i → i ≤ j → j < lo + 2 ^ d →
      (t.query i j lo).1 = ∑ k ∈ Finset.Icc i j, t.get lo k) : t.Consistent := by
  induction d generalizing lo with
  | zero => cases t; trivial
  | succ d ih =>
    cases t with
    | node s z l r =>
      have hpos : 0 < 2 ^ d := Nat.two_pow_pos d
      have hsplit : lo + 2 ^ (d + 1) = lo + 2 ^ d + 2 ^ d := by rw [pow_succ]; omega
      -- A range inside one half is answered by that half, after its amount came down.
      have hl : (l.addAll z).Consistent := by
        refine @ih lo _ fun i j hi hij hj => ?_
        have hq := h i j hi hij (by omega)
        rw [LazyTree.query, if_neg (by omega), if_pos (by omega), if_neg (by omega)] at hq
        simp only [add_zero] at hq
        rw [hq]
        refine Finset.sum_congr rfl fun k hk => ?_
        rw [Finset.mem_Icc] at hk
        rw [get, if_pos (by omega), addAll_get, add_comm]
      have hr : (r.addAll z).Consistent := by
        refine @ih (lo + 2 ^ d) _ fun i j hi hij hj => ?_
        have hq := h i j (by omega) hij (by omega)
        rw [LazyTree.query, if_neg (by omega), if_neg (by omega), if_pos (by omega)] at hq
        simp only [zero_add] at hq
        rw [hq]
        refine Finset.sum_congr rfl fun k hk => ?_
        rw [Finset.mem_Icc] at hk
        rw [get, if_neg (by omega), addAll_get, add_comm]
      rw [addAll_consistent] at hl hr
      -- The whole range is answered by the sum of the root.
      have hq := h lo (lo + 2 ^ (d + 1) - 1) le_rfl (by omega) (by omega)
      have hc : (node (l.sum + r.sum + z * 2 ^ (d + 1)) z l r).Consistent := ⟨rfl, hl, hr⟩
      have hs := hc.sum_eq lo
      rw [LazyTree.query, if_pos (by omega)] at hq
      refine ⟨?_, hl, hr⟩
      change s = _ at hq
      rw [sum_node] at hs
      rw [hq, hs]
      refine Finset.sum_congr ?_ fun k _ => rfl
      ext k
      rw [Finset.mem_Icc, Finset.mem_Ico]
      omega

-- ---------------------------------------------------------------------------
-- Adding at one index
-- ---------------------------------------------------------------------------

theorem addAt_get (x : R) (t : LazyTree R d) (hk : k < lo + 2 ^ d) (hlo : lo ≤ k)
    (hi : i < lo + 2 ^ d) (hli : lo ≤ i) :
    (t.addAt k x lo).get lo i = t.get lo i + if i = k then x else 0 := by
  induction t generalizing lo with
  | leaf s z =>
    have hik : i = k := by omega
    simp [addAt, get, hik]
  | @node d s z l r ihl ihr =>
    rw [pow_succ] at hk hi
    simp only [addAt]
    split
    · rename_i hkl
      simp only [get]
      split
      · rename_i hil
        rw [ihl hkl hlo hil hli, add_assoc]
      · have hik : i ≠ k := by omega
        rw [if_neg hik, add_zero]
    · rename_i hkr
      simp only [get]
      split
      · have hik : i ≠ k := by omega
        rw [if_neg hik, add_zero]
      · rw [ihr (by omega) (by omega) (by omega) (by omega), add_assoc]

/-- No pending amount on the path to index `k` changes a sum. -/
def Clear (k : Nat) : LazyTree R d → Nat → Prop
  | .leaf _ _, _ => True
  | .node (d := d) _ z l r, lo =>
    z * 2 ^ (d + 1) = 0 ∧ if k < lo + 2 ^ d then l.Clear k lo else r.Clear k (lo + 2 ^ d)

/-- Adding at one index recomputes the sums on its path as if nothing were
pending there, so it keeps a tree consistent exactly when the path is clear. -/
theorem Consistent.addAt_iff {t : LazyTree R d} (h : t.Consistent) (k : Nat) (x : R) (lo : Nat) :
    (t.addAt k x lo).Consistent ↔ t.Clear k lo := by
  induction t generalizing lo with
  | leaf s z => exact Iff.rfl
  | @node d s z l r ihl ihr =>
    obtain ⟨-, hl, hr⟩ := h
    simp only [addAt, Clear]
    split
    · simp only [Consistent, left_eq_add, ihl hl, hr, and_true]
    · simp only [Consistent, left_eq_add, ihr hr, hl, true_and]

end LazyTree

end CppUtil.Lib

import CppUtil.DataStructure.SegmentTreeLaws

/-!
# Sequences of operations on a segment tree

The array a sequence of updates stands for is `contents`. Point updates,
range updates and queries all keep the vectors in step with it
(`exec_represents`), whatever their order. The sums of inner nodes are another
matter: a point update recomputes the sums on its path without handing down
the pending tags there. `queries_right_iff` says exactly when this does harm.
-/

namespace CppUtil.DataStructure

open Lib (LazyTree)

inductive Op
  | updatePoint (k : Nat) (increment : Word)
  | updateRange (kRange : Range) (increment : Word)
  | query (queryRange : Range)
  deriving DecidableEq, Repr

def Range.Within (n : Nat) (r : Range) : Prop := 1 ≤ r.left ∧ r.left ≤ r.right ∧ r.right ≤ n

instance : Decidable (Range.Within n r) := inferInstanceAs (Decidable (_ ∧ _ ∧ _))

def Op.Valid (n : Nat) : Op → Prop
  | .updatePoint k _ => 1 ≤ k ∧ k ≤ n
  | .updateRange r _ | .query r => r.Within n

instance : (op : Op) → Decidable (op.Valid n)
  | .updatePoint _ _ => inferInstanceAs (Decidable (_ ∧ _))
  | .updateRange _ _ | .query _ => inferInstanceAs (Decidable (Range.Within _ _))

def exec (t : SegmentTree) : Op → Option SegmentTree
  | .updatePoint k x => t.updatePoint k x
  | .updateRange r x => t.updateRange r x
  | .query r => (t.query r).map Prod.snd

def after (n : Nat) (ops : List Op) : Option SegmentTree := do
  let t ← SegmentTree.new n
  ops.foldlM exec t

-- ---------------------------------------------------------------------------
-- What the operations mean
-- ---------------------------------------------------------------------------

def Op.apply (a : Nat → Word) : Op → Nat → Word
  | .updatePoint k x => fun i => a i + if i = k then x else 0
  | .updateRange r x => fun i => a i + if r.left ≤ i ∧ i ≤ r.right then x else 0
  | .query _ => a

def contents (ops : List Op) : Nat → Word := ops.foldl Op.apply fun _ => 0

/-- The inner nodes a point update of `k` passes, with the lengths of their ranges. -/
def path : Nat → Nat → Nat → Range → List (Nat × Nat)
  | 0, _, _, _ => []
  | fuel + 1, k, current, currentRange =>
    if currentRange.length = 1 then []
    else
      let middle := currentRange.middle
      (current, currentRange.length) ::
        if k ≤ middle then path fuel k (current <<< 1) ⟨currentRange.left, middle⟩
        else path fuel k (current <<< 1 ||| 1) ⟨middle + 1, currentRange.right⟩

/-- No tag pending on the path to `k` amounts to anything: times the length of
its range it is zero modulo `2 ^ 32`. -/
def SegmentTree.PathClear (t : SegmentTree) (k : Nat) : Prop :=
  ∀ p ∈ path t.fuel k t.root t.rootRange,
    t.lazyAdd[p.1]?.all (fun tag => tag * BitVec.ofNat 32 p.2 = 0)

instance : Decidable (SegmentTree.PathClear t k) :=
  inferInstanceAs (Decidable (∀ p ∈ path t.fuel k t.root t.rootRange, _))

-- ---------------------------------------------------------------------------
-- One operation
-- ---------------------------------------------------------------------------

def Op.onTree (tree : LazyTree Word d) : Op → LazyTree Word d
  | .updatePoint k x => tree.addAt k x 1
  | .updateRange r x => tree.addRange r.left r.right x 1
  | .query r => (tree.query r.left r.right 1).2

/-- `t` holds `tree`, and `tree` stands for the array `a`. -/
structure Represents (t : SegmentTree) (tree : LazyTree Word d) (a : Nat → Word) : Prop where
  covers : Covers d t
  holds : Holds t tree 1
  get : ∀ k, 1 ≤ k → k ≤ 2 ^ d → tree.get 1 k = a k

variable {tree : LazyTree Word d}

theorem Represents.query (h : Represents t tree a) (hr : r.Within (2 ^ d)) :
    ∃ t', t.query r = some ((tree.query r.left r.right 1).1, t') ∧
      Represents t' (tree.query r.left r.right 1).2 a := by
  obtain ⟨h1, h2, h3⟩ := hr
  obtain ⟨t', hq, hh, hf⟩ := @queryFrom_holds d t 1 t.fuel r.left 1 r.right tree h.holds
    Nat.one_pos h.covers.fuel (by omega) (by omega)
  refine ⟨t', ?_, h.covers.of_sameOff hf, hh, fun k hk hk' => ?_⟩
  · rw [SegmentTree.query, h.covers.root, h.covers.rootRange]
    exact hq
  · rw [LazyTree.query_get]
    exact h.get k hk hk'

theorem exec_represents (h : Represents t tree a) (hv : op.Valid (2 ^ d)) :
    ∃ t', exec t op = some t' ∧ Represents t' (op.onTree tree) (op.apply a) := by
  cases op with
  | updatePoint k x =>
    obtain ⟨t', hu, hh, hf⟩ := @updatePointFrom_holds d t 1 t.fuel k x 1 tree h.holds
      Nat.one_pos h.covers.fuel
    refine ⟨t', ?_, h.covers.of_sameOff hf, hh, fun i hi hi' => ?_⟩
    · rw [exec, SegmentTree.updatePoint, h.covers.root, h.covers.rootRange]
      exact hu
    · obtain ⟨hk, hk'⟩ := hv
      rw [Op.onTree, LazyTree.addAt_get x tree (by omega) hk (by omega) hi, h.get i hi hi', Op.apply]
  | updateRange r x =>
    obtain ⟨h1, h2, h3⟩ := hv
    obtain ⟨t', hu, hh, hf⟩ := @updateRangeFrom_holds d t 1 t.fuel r.left 1 r.right x tree h.holds
      Nat.one_pos h.covers.fuel (by omega) (by omega)
    refine ⟨t', ?_, h.covers.of_sameOff hf, hh, fun i hi hi' => ?_⟩
    · rw [exec, SegmentTree.updateRange, h.covers.root, h.covers.rootRange]
      exact hu
    · rw [Op.onTree, LazyTree.addRange_get x tree (by omega) (by omega) hi (by omega),
        h.get i hi hi', Op.apply]
  | query r =>
    obtain ⟨t', hq, hrep⟩ := h.query hv
    exact ⟨t', by rw [exec, hq]; rfl, hrep⟩

theorem path_clear_iff (h : Holds t tree c) (hf : d < fuel) :
    (∀ p ∈ path fuel k c (span lo d),
      t.lazyAdd[p.1]?.all (fun tag => tag * BitVec.ofNat 32 p.2 = 0)) ↔ tree.Clear k lo := by
  induction tree generalizing c lo fuel with
  | leaf s z =>
    obtain ⟨fuel, rfl⟩ := Nat.exists_eq_add_of_lt hf
    simp [path, LazyTree.Clear]
  | @node d s z l r ihl ihr =>
    obtain ⟨fuel, rfl⟩ := Nat.exists_eq_add_of_lt hf
    have hm := @span_middle lo d
    have hlen : ¬(span lo (d + 1)).length = 1 := by
      have := Nat.two_pow_pos d
      rw [span_length, pow_succ]; omega
    have hz : t.lazyAdd[c]? = some z := h.1.2
    have hpow := ofNat_two_pow (d + 1)
    rw [path, if_neg hlen, LazyTree.Clear, List.forall_mem_cons]
    simp only [hz, Option.all_some, decide_eq_true_eq, span_length, hpow]
    refine and_congr_right fun _ => ?_
    by_cases hk : k < lo + 2 ^ d
    · rw [if_pos hk, if_pos (by omega), ← ihl h.2.1 (show d < d + 1 + fuel by omega)]
      simp only [span_left, span_leftHalf, shiftLeft_one_eq]
    · rw [if_neg hk, if_neg (by omega), ← ihr h.2.2 (show d < d + 1 + fuel by omega)]
      simp only [span_rightHalf, shiftLeft_one_eq, two_mul_or_one]

theorem Represents.pathClear_iff (h : Represents t tree a) :
    t.PathClear k ↔ tree.Clear k 1 := by
  rw [SegmentTree.PathClear, h.covers.root, h.covers.rootRange]
  exact path_clear_iff h.holds h.covers.fuel

theorem sum_within {r : Range} (hr : r.Within (2 ^ d)) (f : Nat → Word) :
    (∑ k ∈ Finset.Ico 1 (1 + 2 ^ d), if r.left ≤ k ∧ k ≤ r.right then f k else 0) =
      ∑ k ∈ Finset.Icc r.left r.right, f k := by
  obtain ⟨h1, h2, h3⟩ := hr
  rw [← Finset.sum_filter]
  refine Finset.sum_congr ?_ fun k _ => rfl
  ext k
  simp only [Finset.mem_filter, Finset.mem_Ico, Finset.mem_Icc]
  omega

/-- All queries are answered right exactly when no inner sum is wrong. -/
theorem Represents.queries_iff (h : Represents t tree a) :
    (∀ r : Range, r.Within (2 ^ d) →
      ∃ t', t.query r = some (∑ k ∈ Finset.Icc r.left r.right, a k, t')) ↔ tree.Consistent := by
  have hsum {i j : Nat} (hi : 1 ≤ i) (hj : j ≤ 2 ^ d) :
      ∑ k ∈ Finset.Icc i j, tree.get 1 k = ∑ k ∈ Finset.Icc i j, a k := by
    refine Finset.sum_congr rfl fun k hk => ?_
    rw [Finset.mem_Icc] at hk
    exact h.get k (by omega) (by omega)
  constructor
  · intro hq
    refine @LazyTree.consistent_of_query Word _ d 1 tree fun i j hi hij hj => ?_
    have hj' : j ≤ 2 ^ d := by omega
    have hr : Range.Within (2 ^ d) ⟨i, j⟩ := ⟨hi, hij, hj'⟩
    obtain ⟨t₁, h₁⟩ := hq ⟨i, j⟩ hr
    obtain ⟨t₂, h₂, -⟩ := h.query hr
    rw [h₁, Option.some.injEq, Prod.mk.injEq] at h₂
    rw [hsum hi hj']
    exact h₂.1.symm
  · intro hc r hr
    obtain ⟨t', hq, -⟩ := h.query hr
    refine ⟨t', ?_⟩
    rw [hq, hc.query_eq (by have := hr.2; omega) (by have := hr.1; have := hr.2; omega),
      sum_within hr, hsum hr.1 hr.2.2]

theorem onTree_consistent_iff {op : Op} (h : tree.Consistent) :
    (op.onTree tree).Consistent ↔ ∀ k x, op = .updatePoint k x → tree.Clear k 1 := by
  cases op with
  | updatePoint k x =>
    rw [Op.onTree, h.addAt_iff]
    constructor
    · rintro hk _ _ ⟨⟩
      exact hk
    · intro hk
      exact hk k x rfl
  | updateRange r x =>
    refine ⟨fun _ _ _ he => (nomatch he), fun _ => h.addRange r.left r.right x 1⟩
  | query r =>
    refine ⟨fun _ _ _ he => (nomatch he), fun _ => h.query r.left r.right 1⟩

-- ---------------------------------------------------------------------------
-- Runs
-- ---------------------------------------------------------------------------

def treeAfter (d : Nat) (ops : List Op) : LazyTree Word d :=
  ops.foldl Op.onTree (LazyTree.zero d)

theorem after_concat (n : Nat) (ops : List Op) (op : Op) :
    after n (ops ++ [op]) = (after n ops).bind fun t => exec t op := by
  simp [after, List.foldlM_append]
  cases SegmentTree.new n <;> simp

theorem after_represents (hv : ∀ op ∈ ops, op.Valid (2 ^ d)) :
    ∃ t, after (2 ^ d) ops = some t ∧ Represents t (treeAfter d ops) (contents ops) := by
  induction ops using List.reverseRecOn with
  | nil =>
    obtain ⟨t, hnew, hcov, hh⟩ := new_holds d
    refine ⟨t, by simp [after, hnew], hcov, hh, fun k _ _ => ?_⟩
    simp [treeAfter, contents]
  | append_singleton ops op ih =>
    obtain ⟨t, ht, hrep⟩ := ih fun o ho => hv o (List.mem_append_left _ ho)
    obtain ⟨t', ht', hrep'⟩ := exec_represents hrep (hv op (by simp))
    refine ⟨t', ?_, ?_⟩
    · rw [after_concat, ht, Option.bind_some, ht']
    · simpa [treeAfter, contents] using hrep'

/-- The sums stay right through a run exactly when every point update finds a
clear path. -/
theorem treeAfter_consistent_iff :
    (∀ p, p <+: ops → (treeAfter d p).Consistent) ↔
      ∀ p k x, p ++ [.updatePoint k x] <+: ops → (treeAfter d p).Clear k 1 := by
  constructor
  · intro h p k x hp
    have hbefore := h p ((List.prefix_append p _).trans hp)
    have hafter := h _ hp
    rw [treeAfter, List.foldl_concat] at hafter
    exact (onTree_consistent_iff hbefore).mp hafter k x rfl
  · intro h p hp
    induction p using List.reverseRecOn with
    | nil => exact LazyTree.zero_consistent
    | append_singleton p op ih =>
      have hbefore := ih ((List.prefix_append p _).trans hp)
      rw [treeAfter, List.foldl_concat]
      refine (onTree_consistent_iff hbefore).mpr ?_
      rintro k x rfl
      exact h p k x hp

/-- For every sequence of valid operations on a fresh tree: each query that is
or could be asked at any point of it returns the sum of the array over its
range if and only if every point update of the sequence finds no tag that
matters on its path. -/
theorem queries_right_iff (d : Nat) (ops : List Op) (hv : ∀ op ∈ ops, op.Valid (2 ^ d)) :
    (∀ p, p <+: ops → ∀ r : Range, r.Within (2 ^ d) →
      ∃ t t', after (2 ^ d) p = some t ∧
        t.query r = some (∑ k ∈ Finset.Icc r.left r.right, contents p k, t')) ↔
    ∀ p k x, p ++ [.updatePoint k x] <+: ops →
      ∃ t, after (2 ^ d) p = some t ∧ t.PathClear k := by
  have hafter (p : List Op) (hp : p <+: ops) := @after_represents d p fun op ho => hv op (hp.mem ho)
  calc
    _ ↔ ∀ p, p <+: ops → (treeAfter d p).Consistent := by
      refine forall₂_congr fun p hp => ?_
      obtain ⟨t, ht, hrep⟩ := hafter p hp
      rw [← hrep.queries_iff]
      refine forall₂_congr fun r _ => ?_
      simp only [ht, Option.some.injEq, exists_and_left, exists_eq_left']
    _ ↔ _ := treeAfter_consistent_iff
    _ ↔ _ := by
      refine forall₃_congr fun p k x => forall_congr' fun hp => ?_
      obtain ⟨t, ht, hrep⟩ := hafter p ((List.prefix_append p _).trans hp)
      rw [← hrep.pathClear_iff]
      simp only [ht, Option.some.injEq, exists_eq_left']

theorem queries_right_point_then_range :
    (∀ op ∈ [Op.updatePoint 1 5, .updateRange ⟨1, 2⟩ 7], op.Valid (2 ^ 1)) ∧
    ∀ p, p <+: [Op.updatePoint 1 5, .updateRange ⟨1, 2⟩ 7] → ∀ r : Range, r.Within (2 ^ 1) →
      ∃ t t', after (2 ^ 1) p = some t ∧
        t.query r = some (∑ k ∈ Finset.Icc r.left r.right, contents p k, t') := by
  refine ⟨by decide, (queries_right_iff 1 _ (by decide)).mpr fun p k x hp => ?_⟩
  have hp' : p = [] ∧ k = 1 := by
    match p, hp with
    | [], hp => simp at hp; exact ⟨rfl, hp.1⟩
    | [_], hp => simp at hp
    | _ :: _ :: _, hp => have := hp.length_le; simp at this
  obtain ⟨rfl, rfl⟩ := hp'
  have hclear : ∀ t ∈ after (2 ^ 1) [], t.PathClear 1 := by decide
  obtain ⟨t, ht, -⟩ := @after_represents 1 [] (by simp)
  exact ⟨t, ht, hclear t ht⟩

/-- A range update that leaves a tag at the root, then a point update: the
query returns 1 where the array sums to 3. -/
theorem queries_right_fails_range_then_point :
    (∀ op ∈ [Op.updateRange ⟨1, 2⟩ 1, .updatePoint 1 1], op.Valid (2 ^ 1)) ∧
    ¬∃ t t', after (2 ^ 1) [.updateRange ⟨1, 2⟩ 1, .updatePoint 1 1] = some t ∧
      t.query ⟨1, 2⟩ = some (∑ k ∈ Finset.Icc 1 2,
        contents [.updateRange ⟨1, 2⟩ 1, .updatePoint 1 1] k, t') := by
  refine ⟨by decide, ?_⟩
  rintro ⟨t, t', ht, hq⟩
  have hcode : ((after (2 ^ 1) [.updateRange ⟨1, 2⟩ 1, .updatePoint 1 1]).bind
      fun t => (t.query ⟨1, 2⟩).map Prod.fst) = some 1 := by decide
  rw [ht, Option.bind_some, hq, Option.map_some] at hcode
  have hsum : ∑ k ∈ Finset.Icc 1 2, contents [.updateRange ⟨1, 2⟩ 1, .updatePoint 1 1] k = 3 := by
    decide
  rw [hsum, Option.some.injEq] at hcode
  exact absurd hcode (show (3 : Word) ≠ 1 by decide)

end CppUtil.DataStructure

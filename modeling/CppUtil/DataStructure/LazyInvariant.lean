import CppUtil.DataStructure.SegmentTreeRuns

/-!
# The lazy representation

What `sum_` and `lazy_add_` stand for, said of the two vectors alone and for any
contents: the value at an index is the sum of its leaf and the tags of the nodes
above it, and the sum of a node leaves out the tags above it. Node `i` has the
children `2 * i` and `2 * i + 1`, so the nodes above it are `i / 2`, `i / 4` and
so on, and the leaf of index `k` is node `2 ^ d + k - 1`.

`read` makes a `LazyTree` of the vectors. The invariant is that this tree is
`Consistent` (`read_consistent_iff`), which `Query` and the range `Update` keep.
-/

namespace CppUtil.DataStructure

open Lib (LazyTree)

namespace SegmentTree

def sumAt (t : SegmentTree) (i : Nat) : Word := t.sum.getD i 0

def tagAt (t : SegmentTree) (i : Nat) : Word := t.lazyAdd.getD i 0

/-- The total of the tags of the strict ancestors of node `i`. -/
def tagsAbove (t : SegmentTree) (i : Nat) : Word :=
  ∑ j ∈ Finset.range i.log2, t.tagAt (i / 2 ^ (j + 1))

/-- The represented array, for `2 ^ d` indices from 1 on. -/
def value (t : SegmentTree) (d k : Nat) : Word :=
  t.sumAt (2 ^ d + k - 1) + t.tagsAbove (2 ^ d + k - 1)

end SegmentTree

/-- The range of node `i` in a tree over `2 ^ d` indices. -/
def nodeRange (d i : Nat) : Range := span (i * 2 ^ (d - i.log2) + 1 - 2 ^ d) (d - i.log2)

/-- The sum of node `i` is right, when the tags above it are taken in. -/
def NodeSum (d : Nat) (t : SegmentTree) (i : Nat) : Prop :=
  t.sumAt i + BitVec.ofNat 32 (nodeRange d i).length * t.tagsAbove i =
    ∑ k ∈ Finset.Icc (nodeRange d i).left (nodeRange d i).right, t.value d k

instance : Decidable (NodeSum d t i) := inferInstanceAs (Decidable (_ = _))

structure LazyInvariant (d : Nat) (t : SegmentTree) : Prop where
  covers : Covers d t
  sum_length : t.sum.length = 2 * 2 ^ d
  lazyAdd_length : t.lazyAdd.length = 2 * 2 ^ d
  nodeSum : ∀ i < 2 * 2 ^ d, 0 < i → NodeSum d t i

-- ---------------------------------------------------------------------------
-- Places of nodes
-- ---------------------------------------------------------------------------

/-- Node `c` has `h` levels below it, and its indices start at `lo`. -/
structure Place (d h c lo : Nat) : Prop where
  pos : c ≠ 0
  level : c.log2 + h = d
  first : lo + 2 ^ d = c * 2 ^ h + 1

theorem Place.root : Place d d 1 1 where
  pos := Nat.one_ne_zero
  level := by rw [show Nat.log2 1 = 0 by decide, Nat.zero_add]
  first := by rw [Nat.one_mul, Nat.add_comm]

theorem log2_child (hc : c ≠ 0) (he : e / 2 = c) : e.log2 = c.log2 + 1 := by
  rw [Nat.log2_def, if_pos (by omega), he]

theorem Place.left (h : Place d (m + 1) c lo) : Place d m (2 * c) lo where
  pos := by have := h.pos; omega
  level := by rw [log2_child h.pos (by omega)]; have := h.level; omega
  first := by rw [h.first, pow_succ]; ring

theorem Place.right (h : Place d (m + 1) c lo) : Place d m (2 * c + 1) (lo + 2 ^ m) where
  pos := Nat.succ_ne_zero _
  level := by rw [log2_child h.pos (by omega)]; have := h.level; omega
  first := by rw [Nat.add_right_comm, h.first, pow_succ]; ring

theorem Place.nodeRange (h : Place d m c lo) : nodeRange d c = span lo m := by
  have hlevel : d - c.log2 = m := by
    have := h.level
    omega
  rw [DataStructure.nodeRange, hlevel, ← h.first, Nat.add_sub_cancel]

theorem below_succ_iff : Below (d + 1) c i ↔ i = c ∨ Below d (2 * c) i ∨ Below d (2 * c + 1) i := by
  constructor
  · rintro ⟨k, hk, hi⟩
    cases k with
    | zero => exact .inl (by simpa using hi)
    | succ k =>
      rw [pow_succ, ← Nat.div_div_eq_div_mul] at hi
      rcases Nat.mod_two_eq_zero_or_one (i / 2 ^ k) with hmod | hmod
      · exact .inr (.inl ⟨k, by omega, by omega⟩)
      · exact .inr (.inr ⟨k, by omega, by omega⟩)
  · rintro (rfl | hl | hr)
    · exact .refl
    · exact hl.left
    · exact hr.right

theorem below_root_iff : Below d 1 i ↔ i < 2 * 2 ^ d ∧ 0 < i := by
  constructor
  · rintro ⟨k, hk, hi⟩
    have hpow : 2 ^ k ≤ 2 ^ d := Nat.pow_le_pow_right Nat.two_pos hk
    obtain ⟨hlow, hhigh⟩ := (Nat.div_eq_iff (Nat.two_pow_pos k)).mp hi
    have := Nat.two_pow_pos k
    omega
  · rintro ⟨hlt, hpos⟩
    have hne : i ≠ 0 := Nat.ne_of_gt hpos
    obtain ⟨hlow, hhigh⟩ := (Nat.log2_eq_iff hne).mp rfl
    rw [pow_succ] at hhigh
    refine ⟨i.log2, ?_, (Nat.div_eq_iff (Nat.two_pow_pos _)).mpr (by omega)⟩
    rw [Nat.mul_comm, ← pow_succ] at hlt
    exact Nat.lt_succ_iff.mp ((Nat.log2_lt hne).mpr hlt)

-- ---------------------------------------------------------------------------
-- The vectors as a tree
-- ---------------------------------------------------------------------------

namespace SegmentTree

def read (t : SegmentTree) : (d : Nat) → Nat → LazyTree Word d
  | 0, c => .leaf (t.sumAt c) (t.tagAt c)
  | d + 1, c => .node (t.sumAt c) (t.tagAt c) (t.read d (2 * c)) (t.read d (2 * c + 1))

@[simp] theorem sum_read (t : SegmentTree) : (t.read d c).sum = t.sumAt c := by
  cases d <;> rfl

theorem tagsAbove_child (t : SegmentTree) (hc : c ≠ 0) (he : e / 2 = c) :
    t.tagsAbove e = t.tagAt c + t.tagsAbove c := by
  have hstep (j : Nat) : e / 2 ^ (j + 1 + 1) = c / 2 ^ (j + 1) := by
    rw [pow_succ', ← Nat.div_div_eq_div_mul, he]
  rw [tagsAbove, log2_child hc he, Finset.sum_range_succ', add_comm, zero_add, pow_one, he]
  simp only [hstep, tagsAbove]

theorem tagsAbove_left (t : SegmentTree) (hc : c ≠ 0) :
    t.tagsAbove (2 * c) = t.tagAt c + t.tagsAbove c := t.tagsAbove_child hc (by omega)

theorem tagsAbove_right (t : SegmentTree) (hc : c ≠ 0) :
    t.tagsAbove (2 * c + 1) = t.tagAt c + t.tagsAbove c := t.tagsAbove_child hc (by omega)

end SegmentTree

variable {t t' : SegmentTree}

theorem Holds.eq_read {tree : LazyTree Word d} (h : Holds t tree c) : tree = t.read d c := by
  have hsum {i : Nat} {s : Word} (hs : t.sum[i]? = some s) : t.sumAt i = s := by
    rw [SegmentTree.sumAt, List.getD_eq_getElem?_getD, hs, Option.getD_some]
  have htag {i : Nat} {z : Word} (hz : t.lazyAdd[i]? = some z) : t.tagAt i = z := by
    rw [SegmentTree.tagAt, List.getD_eq_getElem?_getD, hz, Option.getD_some]
  induction tree generalizing c with
  | leaf s z => rw [SegmentTree.read, hsum h.1, htag h.2]
  | node s z l r ihl ihr =>
    rw [SegmentTree.read, hsum h.1.1, htag h.1.2, ← ihl h.2.1, ← ihr h.2.2]

theorem holds_read (hs : (c + 1) * 2 ^ d ≤ t.sum.length) (hz : (c + 1) * 2 ^ d ≤ t.lazyAdd.length) :
    Holds t (t.read d c) c := by
  have hsum {i : Nat} (hi : i < t.sum.length) : t.sum[i]? = some (t.sumAt i) := by
    rw [SegmentTree.sumAt, List.getD_eq_getElem?_getD, List.getElem?_eq_getElem hi,
      Option.getD_some]
  have htag {i : Nat} (hi : i < t.lazyAdd.length) : t.lazyAdd[i]? = some (t.tagAt i) := by
    rw [SegmentTree.tagAt, List.getD_eq_getElem?_getD, List.getElem?_eq_getElem hi,
      Option.getD_some]
  have hle : c + 1 ≤ (c + 1) * 2 ^ d := Nat.le_mul_of_pos_right _ (Nat.two_pow_pos d)
  induction d generalizing c with
  | zero => exact ⟨hsum (by omega), htag (by omega)⟩
  | succ d ih =>
    have hpos := Nat.two_pow_pos d
    have hl : (2 * c + 1) * 2 ^ d + 2 ^ d = (c + 1) * 2 ^ (d + 1) := by ring
    have hr : (2 * c + 1 + 1) * 2 ^ d = (c + 1) * 2 ^ (d + 1) := by ring
    refine ⟨⟨hsum (by omega), htag (by omega)⟩, ih (by omega) (by omega) ?_,
      ih (by omega) (by omega) ?_⟩
    · exact Nat.le_mul_of_pos_right _ hpos
    · exact Nat.le_mul_of_pos_right _ hpos

theorem get_read (t : SegmentTree) (hat : Place d m c lo) (hlo : lo ≤ k) (hk : k < lo + 2 ^ m) :
    (t.read m c).get lo k + t.tagsAbove c = t.value d k := by
  induction m generalizing c lo with
  | zero =>
    have hleaf : 2 ^ d + k - 1 = c := by
      have hfirst := hat.first
      simp only [pow_zero, Nat.mul_one] at hfirst hk
      omega
    rw [SegmentTree.value, hleaf, SegmentTree.read, LazyTree.get]
  | succ m ih =>
    rw [pow_succ] at hk
    simp only [SegmentTree.read, LazyTree.get]
    split
    · rename_i hleft
      rw [← ih hat.left hlo hleft, t.tagsAbove_left hat.pos]
      ring
    · rename_i hright
      rw [← ih hat.right (by omega) (by omega), t.tagsAbove_right hat.pos]
      ring

-- ---------------------------------------------------------------------------
-- The invariant of the vectors is that of the tree
-- ---------------------------------------------------------------------------

theorem nodeSum_iff (hat : Place d m c lo) :
    NodeSum d t c ↔
      t.sumAt c + t.tagsAbove c * 2 ^ m = ∑ k ∈ Finset.Ico lo (lo + 2 ^ m), t.value d k := by
  have hrange : Finset.Icc (span lo m).left (span lo m).right = Finset.Ico lo (lo + 2 ^ m) := by
    ext k
    have := @span_right lo m
    rw [Finset.mem_Icc, Finset.mem_Ico, span_left]
    omega
  rw [NodeSum, hat.nodeRange, span_length, ofNat_two_pow, hrange, mul_comm]

theorem nodeSum_of_consistent (hat : Place d m c lo) (h : (t.read m c).Consistent) :
    NodeSum d t c := by
  have hvalue : ∀ k ∈ Finset.Ico lo (lo + 2 ^ m),
      t.value d k = (t.read m c).get lo k + t.tagsAbove c := by
    intro k hk
    rw [Finset.mem_Ico] at hk
    rw [get_read t hat hk.1 hk.2]
  rw [nodeSum_iff hat, Finset.sum_congr rfl hvalue, Finset.sum_add_distrib, ← h.sum_eq lo,
    SegmentTree.sum_read]
  simp [mul_comm]

theorem read_consistent_iff (hat : Place d m c lo) :
    (t.read m c).Consistent ↔ ∀ i, Below m c i → NodeSum d t i := by
  induction m generalizing c lo with
  | zero =>
    refine ⟨fun h i hi => ?_, fun _ => trivial⟩
    obtain ⟨k, hk, rfl⟩ := hi
    cases Nat.le_zero.mp hk
    simpa using nodeSum_of_consistent hat h
  | succ m ih =>
    constructor
    · rintro h i hi
      rcases below_succ_iff.mp hi with rfl | hl | hr
      · exact nodeSum_of_consistent hat h
      · exact (ih hat.left).mp h.2.1 i hl
      · exact (ih hat.right).mp h.2.2 i hr
    · intro h
      have hc := (nodeSum_iff hat).mp (h c .refl)
      have hl := (nodeSum_iff hat.left).mp (h _ Below.refl.left)
      have hr := (nodeSum_iff hat.right).mp (h _ Below.refl.right)
      rw [t.tagsAbove_left hat.pos] at hl
      rw [t.tagsAbove_right hat.pos] at hr
      have hsplit : lo + 2 ^ (m + 1) = lo + 2 ^ m + 2 ^ m := by rw [pow_succ]; omega
      rw [hsplit, ← Finset.sum_Ico_consecutive _ (Nat.le_add_right lo (2 ^ m))
        (Nat.le_add_right _ _), ← hl, ← hr] at hc
      refine ⟨?_, (ih hat.left).mpr fun i hi => h i hi.left,
        (ih hat.right).mpr fun i hi => h i hi.right⟩
      rw [SegmentTree.sum_read, SegmentTree.sum_read]
      linear_combination hc

theorem LazyInvariant.consistent (h : LazyInvariant d t) : (t.read d 1).Consistent :=
  (read_consistent_iff .root).mpr fun i hi =>
    h.nodeSum i (below_root_iff.mp hi).1 (below_root_iff.mp hi).2

theorem LazyInvariant.represents (h : LazyInvariant d t) :
    Represents t (t.read d 1) (t.value d) where
  covers := h.covers
  holds := holds_read (by rw [h.sum_length]) (by rw [h.lazyAdd_length])
  get k hk hk' := by
    rw [← get_read t .root hk (by omega)]
    exact (add_zero _).symm

-- ---------------------------------------------------------------------------
-- `Query` and the range `Update`
-- ---------------------------------------------------------------------------

theorem Holds.entries {tree : LazyTree Word d} (h : Holds t tree c) (hi : Below d c i) :
    t.sum[i]? ≠ none ∧ t.lazyAdd[i]? ≠ none := by
  induction tree generalizing c with
  | leaf s z =>
    obtain ⟨k, hk, rfl⟩ := hi
    cases Nat.le_zero.mp hk
    rw [pow_zero, Nat.div_one] at h
    simp [h.1, h.2]
  | node s z l r ihl ihr =>
    rcases below_succ_iff.mp hi with rfl | hl | hr
    · simp [h.1]
    · exact ihl h.2.1 hl
    · exact ihr h.2.2 hr

theorem SameOff.lengths {tree tree' : LazyTree Word d} (hoff : SameOff d c t t')
    (h : Holds t tree c) (h' : Holds t' tree' c) :
    t'.sum.length = t.sum.length ∧ t'.lazyAdd.length = t.lazyAdd.length := by
  have hlength {v v' : List Word} (hv : ∀ i : Nat, v'[i]? = none ↔ v[i]? = none) :
      v'.length = v.length := by
    simp only [List.getElem?_eq_none_iff] at hv
    exact eq_of_forall_ge_iff hv
  constructor
  · refine hlength fun i => ?_
    by_cases hi : Below d c i
    · simp only [(h.entries hi).1, (h'.entries hi).1]
    · rw [hoff.sum i hi]
  · refine hlength fun i => ?_
    by_cases hi : Below d c i
    · simp only [(h.entries hi).2, (h'.entries hi).2]
    · rw [hoff.lazyAdd i hi]

theorem LazyInvariant.of_sameOff {tree : LazyTree Word d} (h : LazyInvariant d t)
    (hoff : SameOff d 1 t t') (hh : Holds t' tree 1) (hc : tree.Consistent) :
    LazyInvariant d t' ∧ ∀ k, 1 ≤ k → k ≤ 2 ^ d → t'.value d k = tree.get 1 k := by
  obtain ⟨hsum, hlazy⟩ := hoff.lengths h.represents.holds hh
  cases hh.eq_read
  have h' : LazyInvariant d t' := by
    refine ⟨h.covers.of_sameOff hoff, hsum.trans h.sum_length, hlazy.trans h.lazyAdd_length, ?_⟩
    intro i hlt hpos
    exact (read_consistent_iff .root).mp hc i (below_root_iff.mpr ⟨hlt, hpos⟩)
  exact ⟨h', fun k hk hk' => (h'.represents.get k hk hk').symm⟩

/-- `Query` returns the sum over its range and changes nothing the vectors stand
for; the range `Update` adds the increment on its range and nowhere else. -/
theorem query_update_keep (d : Nat) (t : SegmentTree) (h : LazyInvariant d t) (r : Range)
    (hr : r.Within (2 ^ d)) :
    (∃ t', t.query r = some (∑ k ∈ Finset.Icc r.left r.right, t.value d k, t') ∧
      LazyInvariant d t' ∧ ∀ k, 1 ≤ k → k ≤ 2 ^ d → t'.value d k = t.value d k) ∧
    ∀ increment, ∃ t', t.updateRange r increment = some t' ∧ LazyInvariant d t' ∧
      ∀ k, 1 ≤ k → k ≤ 2 ^ d →
        t'.value d k = t.value d k + if r.left ≤ k ∧ k ≤ r.right then increment else 0 := by
  obtain ⟨h1, h2, h3⟩ := hr
  have hrep := h.represents
  constructor
  · obtain ⟨t', hq, hh, hoff⟩ := @queryFrom_holds d t 1 t.fuel r.left 1 r.right _ hrep.holds
      Nat.one_pos hrep.covers.fuel (by omega) (by omega)
    obtain ⟨h', hvalue⟩ := h.of_sameOff hoff hh (h.consistent.query _ _ _)
    obtain ⟨t₁, ht₁⟩ := hrep.queries_iff.mpr h.consistent r ⟨h1, h2, h3⟩
    have hcode : t.query r = some (((t.read d 1).query r.left r.right 1).1, t') := by
      rw [SegmentTree.query, hrep.covers.root, hrep.covers.rootRange]
      exact hq
    rw [hcode, Option.some.injEq, Prod.mk.injEq] at ht₁
    refine ⟨t', by rw [hcode, ht₁.1], h', fun k hk hk' => ?_⟩
    rw [hvalue k hk hk', LazyTree.query_get, hrep.get k hk hk']
  · intro increment
    obtain ⟨t', hu, hh, hoff⟩ := @updateRangeFrom_holds d t 1 t.fuel r.left 1 r.right increment _
      hrep.holds Nat.one_pos hrep.covers.fuel (by omega) (by omega)
    obtain ⟨h', hvalue⟩ := h.of_sameOff hoff hh (h.consistent.addRange _ _ _ _)
    refine ⟨t', ?_, h', fun k hk hk' => ?_⟩
    · rw [SegmentTree.updateRange, hrep.covers.root, hrep.covers.rootRange]
      exact hu
    · rw [hvalue k hk hk', LazyTree.addRange_get _ _ (by omega) (by omega) hk (by omega),
        hrep.get k hk hk']

def tagged : SegmentTree :=
  { sum := [0, 10, 3, 5], lazyAdd := [0, 1, 0, 0], root := 1, rootRange := ⟨1, 2⟩ }

theorem query_update_keep_tagged :
    (∃ t', tagged.query ⟨1, 1⟩ = some (4, t') ∧ t' ≠ tagged ∧ LazyInvariant 1 t') ∧
    ∃ t', tagged.updateRange ⟨1, 1⟩ 7 = some t' ∧ LazyInvariant 1 t' ∧ t'.value 1 1 = 11 := by
  have htagged : LazyInvariant 1 tagged := ⟨⟨rfl, rfl⟩, rfl, rfl, by decide⟩
  obtain ⟨⟨t', hq, h', -⟩, hu⟩ := query_update_keep 1 tagged htagged ⟨1, 1⟩ (by decide)
  obtain ⟨t'', hu, h'', hvalue⟩ := hu 7
  have hne : tagged.query ⟨1, 1⟩ ≠ some (4, tagged) := by decide
  have hsum : ∑ k ∈ Finset.Icc 1 1, tagged.value 1 k = 4 := by decide
  rw [hsum] at hq
  refine ⟨⟨t', hq, ?_, h'⟩, t'', hu, h'', ?_⟩
  · rintro rfl
    exact hne hq
  · rw [hvalue 1 (by decide) (by decide)]
    decide

end CppUtil.DataStructure

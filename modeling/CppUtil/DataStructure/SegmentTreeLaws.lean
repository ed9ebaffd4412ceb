import CppUtil.DataStructure.SegmentTree
import CppUtil.Lib.LazyTree

/-!
# The two vectors hold a lazy tree

`Holds t c tree`: the entries of `sum_` and `lazy_add_` at node `c` and at the
nodes below it are those of `tree`. Every recursion of the segment tree is
matched with the operation of `LazyTree` it performs: it returns, the vectors
then hold the resulting tree, and entries at other nodes are as they were.
-/

namespace CppUtil.DataStructure

open Lib (LazyTree)

-- ---------------------------------------------------------------------------
-- Arithmetic
-- ---------------------------------------------------------------------------

theorem setWidth_signExtend (x : Word) : (x.signExtend 64).setWidth 32 = x := by
  ext i hi
  have h64 : i < 64 := by omega
  simp [hi, h64, BitVec.getElem_signExtend]

theorem ofNat_two_pow (d : Nat) : BitVec.ofNat 32 (2 ^ d) = (2 : Word) ^ d := by
  induction d with
  | zero => rfl
  | succ d ih => rw [pow_succ, pow_succ, BitVec.ofNat_mul, ih]; rfl

/-- Going through 64 bits makes no difference: the result is cut to 32. -/
theorem addScaled_eq (x : Word) (d : Nat) (s : Word) :
    addScaled x (2 ^ d) s = s + x * 2 ^ d := by
  rw [addScaled, BitVec.setWidth_add _ _ (by decide), BitVec.setWidth_mul _ _ (by decide),
    setWidth_signExtend, setWidth_signExtend, BitVec.setWidth_ofNat_of_le (by decide),
    ofNat_two_pow]

@[simp] theorem shiftLeft_one_eq (c : Nat) : c <<< 1 = 2 * c := by
  rw [Nat.shiftLeft_eq]; omega

@[simp] theorem two_mul_or_one (c : Nat) : 2 * c ||| 1 = 2 * c + 1 := by
  rw [← shiftLeft_one_eq, ← Nat.shiftLeft_add_eq_or_of_lt (by decide)]

def span (lo d : Nat) : Range := ⟨lo, lo + 2 ^ d - 1⟩

@[simp] theorem span_left : (span lo d).left = lo := rfl

theorem span_right : (span lo d).right + 1 = lo + 2 ^ d := by
  have := Nat.two_pow_pos d
  simp only [span]; omega

@[simp] theorem span_length : (span lo d).length = 2 ^ d := by
  rw [Range.length, span_right, span_left, Nat.add_sub_cancel_left]

theorem span_middle : (span lo (d + 1)).middle + 1 = lo + 2 ^ d := by
  have := Nat.two_pow_pos d
  simp only [Range.middle, Nat.shiftRight_one, span, pow_succ]
  omega

theorem span_leftHalf : (⟨lo, (span lo (d + 1)).middle⟩ : Range) = span lo d := by
  have := @span_middle lo d
  simp only [span, Range.mk.injEq, true_and]
  simp only [span] at this
  omega

theorem span_rightHalf :
    (⟨(span lo (d + 1)).middle + 1, (span lo (d + 1)).right⟩ : Range) = span (lo + 2 ^ d) d := by
  have hr := @span_right lo (d + 1)
  rw [pow_succ] at hr
  rw [span_middle]
  simp only [span, Range.mk.injEq, true_and] at hr ⊢
  omega

-- ---------------------------------------------------------------------------
-- Node indices
-- ---------------------------------------------------------------------------

/-- Node `i` is `c` or at most `d` levels below it. -/
def Below (d c i : Nat) : Prop := ∃ k ≤ d, i / 2 ^ k = c

theorem Below.refl : Below d c c := ⟨0, Nat.zero_le d, by simp⟩

theorem Below.child (h : Below d e i) (he : e / 2 = c) : Below (d + 1) c i := by
  obtain ⟨k, hk, rfl⟩ := h
  exact ⟨k + 1, by omega, by rw [pow_succ, ← Nat.div_div_eq_div_mul, he]⟩

theorem Below.left (h : Below d (2 * c) i) : Below (d + 1) c i := h.child (by omega)

theorem Below.right (h : Below d (2 * c + 1) i) : Below (d + 1) c i := h.child (by omega)

theorem Below.le (h : Below d c i) : c ≤ i := by
  obtain ⟨k, -, rfl⟩ := h
  exact Nat.div_le_self i _

theorem Below.disjoint (hc : 0 < c) (hl : Below d (2 * c) i) (hr : Below d (2 * c + 1) i) :
    False := by
  obtain ⟨k, -, hk⟩ := hl
  obtain ⟨m, -, hm⟩ := hr
  rcases Nat.lt_trichotomy k m with h | h | h
  · obtain ⟨n, rfl⟩ := Nat.exists_eq_add_of_lt h
    have : 2 * c / 2 ^ (n + 1) ≤ c := by
      rw [pow_succ', ← Nat.div_div_eq_div_mul]
      exact (Nat.div_le_self _ _).trans (by omega)
    rw [show k + n + 1 = k + (n + 1) by omega, pow_add, ← Nat.div_div_eq_div_mul, hk] at hm
    omega
  · subst h; omega
  · obtain ⟨n, rfl⟩ := Nat.exists_eq_add_of_lt h
    have : (2 * c + 1) / 2 ^ (n + 1) ≤ c := by
      rw [pow_succ', ← Nat.div_div_eq_div_mul]
      exact (Nat.div_le_self _ _).trans (by omega)
    rw [show m + n + 1 = m + (n + 1) by omega, pow_add, ← Nat.div_div_eq_div_mul, hm] at hk
    omega

-- ---------------------------------------------------------------------------
-- Vectors and trees
-- ---------------------------------------------------------------------------

/-- Entries at nodes other than `c` and the `d` levels below it are unchanged. -/
structure SameOff (d c : Nat) (t t' : SegmentTree) : Prop where
  root : t'.root = t.root
  rootRange : t'.rootRange = t.rootRange
  sum : ∀ i, ¬Below d c i → t'.sum[i]? = t.sum[i]?
  lazyAdd : ∀ i, ¬Below d c i → t'.lazyAdd[i]? = t.lazyAdd[i]?

theorem SameOff.refl (t : SegmentTree) : SameOff d c t t :=
  ⟨rfl, rfl, fun _ _ => rfl, fun _ _ => rfl⟩

theorem SameOff.trans (h : SameOff d c t t') (h' : SameOff d c t' t'') : SameOff d c t t'' where
  root := h'.root.trans h.root
  rootRange := h'.rootRange.trans h.rootRange
  sum i hi := (h'.sum i hi).trans (h.sum i hi)
  lazyAdd i hi := (h'.lazyAdd i hi).trans (h.lazyAdd i hi)

theorem SameOff.mono (h : SameOff d c t t') (hb : ∀ i, Below d c i → Below d' c' i) :
    SameOff d' c' t t' where
  root := h.root
  rootRange := h.rootRange
  sum i hi := h.sum i fun hi' => hi (hb i hi')
  lazyAdd i hi := h.lazyAdd i fun hi' => hi (hb i hi')

/-- The vectors hold `tree` at node `c`. -/
def Holds (t : SegmentTree) : LazyTree Word d → Nat → Prop
  | .leaf s z, c => t.sum[c]? = some s ∧ t.lazyAdd[c]? = some z
  | .node s z l r, c =>
    (t.sum[c]? = some s ∧ t.lazyAdd[c]? = some z) ∧ Holds t l (2 * c) ∧ Holds t r (2 * c + 1)

theorem Holds.sum {tree : LazyTree Word d} (h : Holds t tree c) : t.sum[c]? = some tree.sum := by
  cases tree with
  | leaf s z => exact h.1
  | node s z l r => exact h.1.1

theorem Holds.lazyAdd {tree : LazyTree Word d} (h : Holds t tree c) :
    t.lazyAdd[c]? = some tree.pending := by
  cases tree with
  | leaf s z => exact h.2
  | node s z l r => exact h.1.2

theorem Holds.congr {tree : LazyTree Word d} (h : Holds t tree c)
    (hs : ∀ i, Below d c i → t'.sum[i]? = t.sum[i]?)
    (hz : ∀ i, Below d c i → t'.lazyAdd[i]? = t.lazyAdd[i]?) : Holds t' tree c := by
  induction tree generalizing c with
  | leaf s z => exact ⟨(hs c .refl).trans h.1, (hz c .refl).trans h.2⟩
  | node s z l r ihl ihr =>
    obtain ⟨⟨h1, h2⟩, hl, hr⟩ := h
    exact ⟨⟨(hs c .refl).trans h1, (hz c .refl).trans h2⟩,
      ihl hl (fun i hi => hs i hi.left) (fun i hi => hz i hi.left),
      ihr hr (fun i hi => hs i hi.right) (fun i hi => hz i hi.right)⟩

theorem Holds.left_of_sameOff {tree : LazyTree Word d} (h : Holds t tree (2 * c)) (hc : 0 < c)
    (hf : SameOff d (2 * c + 1) t t') : Holds t' tree (2 * c) :=
  h.congr (fun i hi => hf.sum i fun hr => hi.disjoint hc hr)
    (fun i hi => hf.lazyAdd i fun hr => hi.disjoint hc hr)

theorem Holds.right_of_sameOff {tree : LazyTree Word d} (h : Holds t tree (2 * c + 1)) (hc : 0 < c)
    (hf : SameOff d (2 * c) t t') : Holds t' tree (2 * c + 1) :=
  h.congr (fun i hi => hf.sum i fun hl => hl.disjoint hc hi)
    (fun i hi => hf.lazyAdd i fun hl => hl.disjoint hc hi)

theorem Holds.addAll {tree : LazyTree Word d} (h : Holds t tree c) (hc : 0 < c)
    (hs : t'.sum[c]? = some (tree.sum + x * 2 ^ d)) (hz : t'.lazyAdd[c]? = some (tree.pending + x))
    (hs' : ∀ i, Below d c i → i ≠ c → t'.sum[i]? = t.sum[i]?)
    (hz' : ∀ i, Below d c i → i ≠ c → t'.lazyAdd[i]? = t.lazyAdd[i]?) :
    Holds t' (tree.addAll x) c := by
  cases tree with
  | leaf s z => exact ⟨by simpa using hs, hz⟩
  | node s z l r =>
    refine ⟨⟨hs, hz⟩, h.2.1.congr (fun i hi => hs' i hi.left ?_) (fun i hi => hz' i hi.left ?_),
      h.2.2.congr (fun i hi => hs' i hi.right ?_) (fun i hi => hz' i hi.right ?_)⟩
    all_goals
      have := hi.le
      omega

-- ---------------------------------------------------------------------------
-- Operations on one node
-- ---------------------------------------------------------------------------

theorem getElem?_set_of_some {v : List Word} (h : v[i]? = some x) :
    (v.set i a)[j]? = if j = i then some a else v[j]? := by
  obtain ⟨hi, -⟩ := List.getElem?_eq_some_iff.mp h
  rw [List.getElem?_set]
  by_cases hij : i = j
  · subst hij; simp [hi]
  · simp [hij, Ne.symm hij]

theorem modifySum_eq {t : SegmentTree} (h : t.sum[i]? = some x) :
    t.modifySum i f = some { t with sum := t.sum.set i (f x) } := by
  simp [SegmentTree.modifySum, modify, h]

theorem pushUp_holds {l r : LazyTree Word d} (h : Holds t (.node s z l r) c) (hc : 0 < c) :
    ∃ t', t.pushUp c = some t' ∧ Holds t' (.node (l.sum + r.sum) z l r) c ∧
      SameOff (d + 1) c t t' := by
  obtain ⟨⟨hs, hz⟩, hl, hr⟩ := h
  have hset {j : Nat} := @getElem?_set_of_some c s (l.sum + r.sum) j t.sum hs
  refine ⟨{ t with sum := t.sum.set c (l.sum + r.sum) }, ?_, ⟨⟨?_, hz⟩, ?_, ?_⟩, rfl, rfl, ?_, ?_⟩
  · simp only [Accessor.pushUp, plainAccess_sum, plainAccess_modifySum, two_mul_or_one,
      shiftLeft_one_eq, hl.sum, hr.sum, Option.bind_eq_bind, Option.bind_some, modifySum_eq hs]
  · simp [hset]
  · refine hl.congr (fun i hi => ?_) fun _ _ => rfl
    have := hi.le
    simp only [hset]
    rw [if_neg (by omega)]
  · refine hr.congr (fun i hi => ?_) fun _ _ => rfl
    have := hi.le
    simp only [hset]
    rw [if_neg (by omega)]
  · intro i hi
    have hic : i ≠ c := fun h => hi (h ▸ .refl)
    simp [hset, hic]
  · intro _ _; rfl

theorem pushDown_entries {l r : LazyTree Word d} (h : Holds t (.node s z l r) c) (hc : 0 < c)
    (hz0 : z ≠ 0) :
    ∃ t', t.pushDown c (span lo (d + 1)) = some t' ∧ t'.root = t.root ∧
      t'.rootRange = t.rootRange ∧
      (∀ i : Nat, t'.sum[i]? = if i = 2 * c + 1 then some (r.sum + z * 2 ^ d)
        else if i = 2 * c then some (l.sum + z * 2 ^ d) else t.sum[i]?) ∧
      ∀ i : Nat, t'.lazyAdd[i]? = if i = c then some 0
        else if i = 2 * c + 1 then some (r.pending + z)
        else if i = 2 * c then some (l.pending + z) else t.lazyAdd[i]? := by
  obtain ⟨⟨-, hz⟩, hl, hr⟩ := h
  have hlr : 2 * c + 1 ≠ 2 * c := by omega
  have hcl : c ≠ 2 * c := by omega
  have hcr : c ≠ 2 * c + 1 := by omega
  -- Every write finds an entry, which the writes before it have left alone.
  have hz1 {j : Nat} := @getElem?_set_of_some _ _ (l.pending + z) j _ hl.lazyAdd
  have hz2' : (t.lazyAdd.set (2 * c) (l.pending + z))[2 * c + 1]? = some r.pending := by
    rw [hz1, if_neg hlr, hr.lazyAdd]
  have hz2 {j : Nat} := @getElem?_set_of_some _ _ (r.pending + z) j _ hz2'
  have hz3' : ((t.lazyAdd.set (2 * c) (l.pending + z)).set (2 * c + 1) (r.pending + z))[c]? =
      some z := by
    rw [hz2, if_neg hcr, hz1, if_neg hcl, hz]
  have hz3 {j : Nat} := @getElem?_set_of_some _ _ 0 j _ hz3'
  have hs1 {j : Nat} := @getElem?_set_of_some _ _ (l.sum + z * 2 ^ d) j _ hl.sum
  have hs2' : (t.sum.set (2 * c) (l.sum + z * 2 ^ d))[2 * c + 1]? = some r.sum := by
    rw [hs1, if_neg hlr, hr.sum]
  have hs2 {j : Nat} := @getElem?_set_of_some _ _ (r.sum + z * 2 ^ d) j _ hs2'
  refine ⟨{ t with
    sum := (t.sum.set (2 * c) (l.sum + z * 2 ^ d)).set (2 * c + 1) (r.sum + z * 2 ^ d)
    lazyAdd := ((t.lazyAdd.set (2 * c) (l.pending + z)).set (2 * c + 1) (r.pending + z)).set c 0 },
    ?_, rfl, rfl, fun i => by simp only [hs2, hs1], fun i => by simp only [hz3, hz2, hz1]⟩
  have hleft : (⟨(span lo (d + 1)).left, (span lo (d + 1)).middle⟩ : Range).length = 2 ^ d := by
    rw [span_left, span_leftHalf, span_length]
  have hright :
      (⟨(span lo (d + 1)).middle + 1, (span lo (d + 1)).right⟩ : Range).length = 2 ^ d := by
    rw [span_rightHalf, span_length]
  simp only [Accessor.pushDown, plainAccess_descend, plainAccess_lazyAdd, plainAccess_modifySum,
    plainAccess_modifyLazyAdd, hz, Option.bind_eq_bind, Option.bind_some, if_neg hz0,
    shiftLeft_one_eq, two_mul_or_one, hleft, hright, SegmentTree.modifyLazyAdd,
    SegmentTree.modifySum, modify, Option.map_some, hl.lazyAdd, hz2', hl.sum, hs2', hz3',
    addScaled_eq]

theorem pushDown_holds {l r : LazyTree Word d} (h : Holds t (.node s z l r) c) (hc : 0 < c) :
    ∃ t', t.pushDown c (span lo (d + 1)) = some t' ∧
      Holds t' (.node s 0 (l.addAll z) (r.addAll z)) c ∧ SameOff (d + 1) c t t' := by
  by_cases hz0 : z = 0
  · subst hz0
    refine ⟨t, by simp [Accessor.pushDown, h.1.2], ?_, .refl t⟩
    simpa only [LazyTree.addAll_zero] using h
  obtain ⟨t', hdown, hroot, hrange, hsum, hlazy⟩ := @pushDown_entries d t s z c lo l r h hc hz0
  obtain ⟨⟨hs, -⟩, hl, hr⟩ := h
  have hlr : 2 * c ≠ 2 * c + 1 := by omega
  have hcl : c ≠ 2 * c := by omega
  have hcr : c ≠ 2 * c + 1 := by omega
  have hsame : ∀ i, i ≠ c → i ≠ 2 * c → i ≠ 2 * c + 1 →
      t'.sum[i]? = t.sum[i]? ∧ t'.lazyAdd[i]? = t.lazyAdd[i]? := by
    intro i hic hil hir
    rw [hsum, hlazy]
    simp only [if_neg hic, if_neg hil, if_neg hir, and_self]
  -- Below a child only the entries of the child itself have changed.
  have hleft : ∀ i, Below d (2 * c) i → i ≠ 2 * c →
      t'.sum[i]? = t.sum[i]? ∧ t'.lazyAdd[i]? = t.lazyAdd[i]? := by
    intro i hi hne
    have := hi.le
    exact hsame i (by omega) hne fun h => hi.disjoint hc (h ▸ .refl)
  have hright : ∀ i, Below d (2 * c + 1) i → i ≠ 2 * c + 1 →
      t'.sum[i]? = t.sum[i]? ∧ t'.lazyAdd[i]? = t.lazyAdd[i]? := by
    intro i hi hne
    have := hi.le
    exact hsame i (by omega) (fun h => Below.disjoint hc (h ▸ .refl) hi) hne
  have hoff : ∀ i, ¬Below (d + 1) c i →
      t'.sum[i]? = t.sum[i]? ∧ t'.lazyAdd[i]? = t.lazyAdd[i]? := by
    intro i hi
    exact hsame i (fun h => hi (h ▸ .refl)) (fun h => hi (h ▸ Below.refl.left))
      fun h => hi (h ▸ Below.refl.right)
  refine ⟨t', hdown, ⟨⟨?_, ?_⟩,
    hl.addAll (by omega) ?_ ?_ (fun i hi hne => (hleft i hi hne).1)
      fun i hi hne => (hleft i hi hne).2,
    hr.addAll (by omega) ?_ ?_ (fun i hi hne => (hright i hi hne).1)
      fun i hi hne => (hright i hi hne).2⟩,
    hroot, hrange, fun i hi => (hoff i hi).1, fun i hi => (hoff i hi).2⟩
  · rw [hsum, if_neg hcr, if_neg hcl, hs]
  · rw [hlazy, if_pos rfl]
  · rw [hsum, if_neg hlr, if_pos rfl]
  · rw [hlazy, if_neg hcl.symm, if_neg hlr, if_pos rfl]
  · rw [hsum, if_pos rfl]
  · rw [hlazy, if_neg hcr.symm, if_pos rfl]

-- ---------------------------------------------------------------------------
-- Recursions over the tree
-- ---------------------------------------------------------------------------

theorem Holds.node_of_children {l l' r r' : LazyTree Word d} (h : Holds t (.node s z l r) c)
    (hc : 0 < c) (hl : Holds t₁ l' (2 * c)) (hf₁ : SameOff d (2 * c) t t₁)
    (hr : Holds t₂ r' (2 * c + 1)) (hf₂ : SameOff d (2 * c + 1) t₁ t₂) :
    Holds t₂ (.node s z l' r') c ∧ SameOff (d + 1) c t t₂ := by
  have h₁ : ¬Below d (2 * c) c := fun hb => by have := hb.le; omega
  have h₂ : ¬Below d (2 * c + 1) c := fun hb => by have := hb.le; omega
  refine ⟨⟨⟨?_, ?_⟩, hl.left_of_sameOff hc hf₂, hr⟩, ?_⟩
  · rw [hf₂.sum c h₂, hf₁.sum c h₁, h.sum]; rfl
  · rw [hf₂.lazyAdd c h₂, hf₁.lazyAdd c h₁, h.lazyAdd]; rfl
  · exact (hf₁.mono fun _ => Below.left).trans (hf₂.mono fun _ => Below.right)

theorem visit_or_skip {α β : Type} {p q : Prop} [Decidable p] [Decidable q] {x : Option α}
    {s : α} {y z : β} (R : α → β → Prop) (hpq : p ↔ q)
    (hvisit : q → ∃ a, x = some a ∧ R a y) (hskip : R s z) :
    ∃ a, (if p then x else some s) = some a ∧ R a (if q then y else z) := by
  by_cases hq : q
  · rw [if_pos (hpq.mpr hq), if_pos hq]
    exact hvisit hq
  · rw [if_neg (mt hpq.mp hq), if_neg hq]
    exact ⟨s, rfl, hskip⟩

theorem queryFrom_holds {tree : LazyTree Word d} (h : Holds t tree c) (hc : 0 < c)
    (hf : d < fuel) (hi : i < lo + 2 ^ d) (hj : lo ≤ j) :
    ∃ t', SegmentTree.queryFrom fuel t ⟨i, j⟩ c (span lo d) = some ((tree.query i j lo).1, t') ∧
      Holds t' (tree.query i j lo).2 c ∧ SameOff d c t t' := by
  induction d generalizing t c lo fuel with
  | zero =>
    obtain ⟨fuel, rfl⟩ := Nat.exists_eq_add_of_lt hf
    cases tree with
    | leaf s z =>
      have hin : lo ≥ i ∧ (span lo 0).right ≤ j := by
        have := @span_right lo 0
        omega
      refine ⟨t, ?_, h, .refl t⟩
      simp only [Accessor.queryFrom, plainAccess_visit, plainAccess_sum, span_left, if_pos hin,
        h.1, LazyTree.query]
      rfl
  | succ d ih =>
    obtain ⟨fuel, rfl⟩ := Nat.exists_eq_add_of_lt hf
    cases tree with
    | node s z l r =>
      have hm := @span_middle lo d
      have hr := @span_right lo (d + 1)
      by_cases hin : i ≤ lo ∧ lo + 2 ^ (d + 1) ≤ j + 1
      · have hin' : lo ≥ i ∧ (span lo (d + 1)).right ≤ j := by omega
        refine ⟨t, ?_, ?_, .refl t⟩
        · simp only [Accessor.queryFrom, plainAccess_visit, plainAccess_sum, span_left, if_pos hin',
            h.sum, LazyTree.query, if_pos hin]
          rfl
        · simpa only [LazyTree.query, if_pos hin] using h
      · have hin' : ¬(lo ≥ i ∧ (span lo (d + 1)).right ≤ j) := by omega
        obtain ⟨t₁, hdown, h₁, hf₁⟩ := @pushDown_holds d t s z c lo l r h hc
        obtain ⟨⟨a, t₂⟩, hq₂, rfl, h₂, hf₂⟩ := visit_or_skip (s := (0, t₁)) (z := (0, l.addAll z))
          (fun (res : Word × SegmentTree) (tree : Word × LazyTree Word d) =>
            res.1 = tree.1 ∧ Holds res.2 tree.2 (2 * c) ∧ SameOff d (2 * c) t₁ res.2)
          (show i ≤ (span lo (d + 1)).middle ↔ i < lo + 2 ^ d by omega)
          (fun hl => by
            obtain ⟨t₂, hq, hh, hoff⟩ := @ih t₁ (2 * c) (d + 1 + fuel) lo _ h₁.2.1
              (by omega) (by omega) hl hj
            exact ⟨_, hq, rfl, hh, hoff⟩)
          ⟨rfl, h₁.2.1, .refl t₁⟩
        have hr₂ := h₁.2.2.right_of_sameOff hc hf₂
        obtain ⟨⟨b, t₃⟩, hq₃, rfl, h₃, hf₃⟩ := visit_or_skip (s := (0, t₂)) (z := (0, r.addAll z))
          (fun (res : Word × SegmentTree) (tree : Word × LazyTree Word d) =>
            res.1 = tree.1 ∧ Holds res.2 tree.2 (2 * c + 1) ∧ SameOff d (2 * c + 1) t₂ res.2)
          (show j ≥ lo + 2 ^ d ↔ lo + 2 ^ d ≤ j from Iff.rfl)
          (fun hjr => by
            obtain ⟨t₃, hq, hh, hoff⟩ := @ih t₂ (2 * c + 1) (d + 1 + fuel) (lo + 2 ^ d) _ hr₂
              (by omega) (by omega) (by rw [pow_succ] at hi; omega) hjr
            exact ⟨_, hq, rfl, hh, hoff⟩)
          ⟨rfl, hr₂, .refl t₂⟩
        obtain ⟨hnode, hoff⟩ := h₁.node_of_children hc h₂ hf₂ h₃ hf₃
        simp only [LazyTree.query, if_neg hin]
        refine ⟨t₃, ?_, hnode, hf₁.trans hoff⟩
        simp only [Accessor.queryFrom, plainAccess_visit, span_left, if_neg hin', hdown,
          Option.bind_eq_bind, Option.bind_some, Option.pure_def, shiftLeft_one_eq, two_mul_or_one,
          span_leftHalf, span_rightHalf, hq₂]
        simp only [hm, hq₃, Option.bind_some]

theorem updatePointFrom_holds {tree : LazyTree Word d} (h : Holds t tree c) (hc : 0 < c)
    (hf : d < fuel) :
    ∃ t', SegmentTree.updatePointFrom fuel t k x c (span lo d) = some t' ∧
      Holds t' (tree.addAt k x lo) c ∧ SameOff d c t t' := by
  induction d generalizing t c lo fuel with
  | zero =>
    obtain ⟨fuel, rfl⟩ := Nat.exists_eq_add_of_lt hf
    cases tree with
    | leaf s z =>
      have hset {j : Nat} := @getElem?_set_of_some c s (s + x) j t.sum h.1
      refine ⟨{ t with sum := t.sum.set c (s + x) }, ?_, ⟨by simp [hset], h.2⟩, rfl, rfl, ?_, ?_⟩
      · simp only [Accessor.updatePointFrom, plainAccess_visit, plainAccess_modifySum, span_length,
          pow_zero, if_true, modifySum_eq h.1, Option.bind_eq_bind, Option.bind_some]
      · intro i hi
        have hic : i ≠ c := fun h => hi (h ▸ .refl)
        simp [hset, hic]
      · intro _ _; rfl
  | succ d ih =>
    obtain ⟨fuel, rfl⟩ := Nat.exists_eq_add_of_lt hf
    cases tree with
    | node s z l r =>
      have hm := @span_middle lo d
      have hlen : ¬(span lo (d + 1)).length = 1 := by
        have := Nat.two_pow_pos d
        rw [span_length, pow_succ]; omega
      by_cases hk : k < lo + 2 ^ d
      · obtain ⟨t₁, hup, h₁, hf₁⟩ :=
          @ih t (2 * c) (d + 1 + fuel) lo l h.2.1 (by omega) (by omega)
        obtain ⟨hnode, hoff⟩ := h.node_of_children hc h₁ hf₁
          (h.2.2.right_of_sameOff hc hf₁) (.refl t₁)
        obtain ⟨t₂, hpush, h₂, hf₂⟩ := pushUp_holds hnode hc
        refine ⟨t₂, ?_, by simpa only [LazyTree.addAt, if_pos hk] using h₂, hoff.trans hf₂⟩
        simp only [Accessor.updatePointFrom, plainAccess_visit, if_neg hlen, span_left,
          shiftLeft_one_eq, span_leftHalf, if_pos (show k ≤ (span lo (d + 1)).middle by omega), hup,
          Option.bind_eq_bind, Option.bind_some, hpush]
      · obtain ⟨t₁, hup, h₁, hf₁⟩ :=
          @ih t (2 * c + 1) (d + 1 + fuel) (lo + 2 ^ d) r h.2.2 (by omega) (by omega)
        obtain ⟨hnode, hoff⟩ := h.node_of_children hc h.2.1 (.refl t) h₁ hf₁
        obtain ⟨t₂, hpush, h₂, hf₂⟩ := pushUp_holds hnode hc
        refine ⟨t₂, ?_, by simpa only [LazyTree.addAt, if_neg hk] using h₂, hoff.trans hf₂⟩
        simp only [Accessor.updatePointFrom, plainAccess_visit, if_neg hlen, shiftLeft_one_eq,
          two_mul_or_one, span_rightHalf, if_neg (show ¬k ≤ (span lo (d + 1)).middle by omega), hup,
          Option.bind_eq_bind, Option.bind_some, hpush]

theorem updateRangeFrom_inside {tree : LazyTree Word d} (h : Holds t tree c) (hc : 0 < c)
    (hin : i ≤ lo ∧ (span lo d).right ≤ j) :
    ∃ t', SegmentTree.updateRangeFrom (fuel + 1) t ⟨i, j⟩ x c (span lo d) = some t' ∧
      Holds t' (tree.addAll x) c ∧ SameOff d c t t' := by
  have hs {m : Nat} := @getElem?_set_of_some _ _ (tree.sum + x * 2 ^ d) m _ h.sum
  have hz {m : Nat} := @getElem?_set_of_some _ _ (tree.pending + x) m _ h.lazyAdd
  refine ⟨{ t with
    sum := t.sum.set c (tree.sum + x * 2 ^ d)
    lazyAdd := t.lazyAdd.set c (tree.pending + x) },
    ?_, h.addAll hc (by simp only [hs, if_true]) (by simp only [hz, if_true]) ?_ ?_,
    rfl, rfl, ?_, ?_⟩
  · simp only [Accessor.updateRangeFrom, plainAccess_visit, plainAccess_modifySum,
      plainAccess_modifyLazyAdd, span_left, ge_iff_le, if_pos hin, span_length, modifySum_eq h.sum, Option.bind_eq_bind, Option.bind_some, addScaled_eq,
      SegmentTree.modifyLazyAdd, modify, h.lazyAdd, Option.map_some]
  · intro i _ hne
    simp only [hs, if_neg hne]
  · intro i _ hne
    simp only [hz, if_neg hne]
  · intro i hi
    have hic : i ≠ c := fun h => hi (h ▸ .refl)
    simp only [hs, if_neg hic]
  · intro i hi
    have hic : i ≠ c := fun h => hi (h ▸ .refl)
    simp only [hz, if_neg hic]

theorem updateRangeFrom_holds {tree : LazyTree Word d} (h : Holds t tree c) (hc : 0 < c)
    (hf : d < fuel) (hi : i < lo + 2 ^ d) (hj : lo ≤ j) :
    ∃ t', SegmentTree.updateRangeFrom fuel t ⟨i, j⟩ x c (span lo d) = some t' ∧
      Holds t' (tree.addRange i j x lo) c ∧ SameOff d c t t' := by
  induction d generalizing t c lo fuel with
  | zero =>
    obtain ⟨fuel, rfl⟩ := Nat.exists_eq_add_of_lt hf
    have hr := @span_right lo 0
    cases tree with
    | leaf s z => exact updateRangeFrom_inside h hc (by omega)
  | succ d ih =>
    obtain ⟨fuel, rfl⟩ := Nat.exists_eq_add_of_lt hf
    cases tree with
    | node s z l r =>
      have hm := @span_middle lo d
      have hr := @span_right lo (d + 1)
      by_cases hin : i ≤ lo ∧ lo + 2 ^ (d + 1) ≤ j + 1
      · simp only [LazyTree.addRange, if_pos hin]
        exact updateRangeFrom_inside h hc (by omega)
      · have hin' : ¬(i ≤ lo ∧ j ≥ (span lo (d + 1)).right) := by omega
        obtain ⟨t₁, hdown, h₁, hf₁⟩ := @pushDown_holds d t s z c lo l r h hc
        obtain ⟨t₂, hq₂, h₂, hf₂⟩ := visit_or_skip
          (fun t₂ (tree : LazyTree Word d) => Holds t₂ tree (2 * c) ∧ SameOff d (2 * c) t₁ t₂)
          (show i ≤ (span lo (d + 1)).middle ↔ i < lo + 2 ^ d by omega)
          (@ih t₁ (2 * c) (d + 1 + fuel) lo _ h₁.2.1 (by omega) (by omega) · hj)
          ⟨h₁.2.1, .refl t₁⟩
        have hr₂ := h₁.2.2.right_of_sameOff hc hf₂
        obtain ⟨t₃, hq₃, h₃, hf₃⟩ := visit_or_skip
          (fun t₃ (tree : LazyTree Word d) =>
            Holds t₃ tree (2 * c + 1) ∧ SameOff d (2 * c + 1) t₂ t₃)
          (show j ≥ lo + 2 ^ d ↔ lo + 2 ^ d ≤ j from Iff.rfl)
          (@ih t₂ (2 * c + 1) (d + 1 + fuel) (lo + 2 ^ d) _ hr₂ (by omega) (by omega)
            (by rw [pow_succ] at hi; omega))
          ⟨hr₂, .refl t₂⟩
        obtain ⟨hnode, hoff⟩ := h₁.node_of_children hc h₂ hf₂ h₃ hf₃
        obtain ⟨t₄, hpush, h₄, hf₄⟩ := pushUp_holds hnode hc
        refine ⟨t₄, ?_, by simpa only [LazyTree.addRange, if_neg hin] using h₄,
          (hf₁.trans hoff).trans hf₄⟩
        simp only [Accessor.updateRangeFrom, plainAccess_visit, span_left, if_neg hin', hdown,
          Option.bind_eq_bind, Option.bind_some, Option.pure_def, shiftLeft_one_eq, two_mul_or_one,
          span_leftHalf, span_rightHalf, hq₂]
        simp only [hm, hq₃, Option.bind_some, hpush]

-- ---------------------------------------------------------------------------
-- Construction
-- ---------------------------------------------------------------------------

structure AllZero (m : Nat) (t : SegmentTree) : Prop where
  sum : t.sum = List.replicate m 0
  lazyAdd : t.lazyAdd = List.replicate m 0

theorem AllZero.modifySum (h : AllZero m t) (hi : i < m) :
    t.modifySum i (fun _ => 0) = some t := by
  have hget : t.sum[i]? = some 0 := by rw [h.sum, List.getElem?_replicate, if_pos hi]
  rw [modifySum_eq hget]
  congr
  rw [h.sum, List.set_replicate_self]

theorem AllZero.build (h : AllZero m t) (hf : d < fuel) (hc : (c + 1) * 2 ^ d ≤ m)
    (hlo : lo + 2 ^ d ≤ m) : t.build fuel c (span lo d) = some t := by
  induction d generalizing c lo fuel with
  | zero =>
    obtain ⟨fuel, rfl⟩ := Nat.exists_eq_add_of_lt hf
    have hread : t.lazyAdd[lo]? = some 0 := by
      rw [h.lazyAdd, List.getElem?_replicate, if_pos (by omega)]
    simp only [Accessor.build, plainAccess_visit, plainAccess_lazyAdd, plainAccess_modifySum,
      span_length, pow_zero, if_true, span_left, hread,
      Option.bind_eq_bind, Option.bind_some]
    exact h.modifySum (by omega)
  | succ d ih =>
    obtain ⟨fuel, rfl⟩ := Nat.exists_eq_add_of_lt hf
    have hpos := Nat.two_pow_pos d
    rw [pow_succ] at hc hlo
    have hc' : (c + 1) * 2 ^ d * 2 ≤ m := by rwa [Nat.mul_assoc]
    have hle : c + 1 ≤ (c + 1) * 2 ^ d := Nat.le_mul_of_pos_right _ hpos
    have hlen : ¬(span lo (d + 1)).length = 1 := by rw [span_length, pow_succ]; omega
    have hl : (2 * c + 1) * 2 ^ d + 2 ^ d = (c + 1) * 2 ^ d * 2 := by ring
    have hr : (2 * c + 1 + 1) * 2 ^ d = (c + 1) * 2 ^ d * 2 := by ring
    have hs {i : Nat} (hi : i < m) : t.sum[i]? = some 0 := by
      rw [h.sum, List.getElem?_replicate, if_pos hi]
    have hleft := @ih (d + 1 + fuel) (2 * c) lo (by omega) (by omega) (by omega)
    have hright := @ih (d + 1 + fuel) (2 * c + 1) (lo + 2 ^ d) (by omega) (by omega) (by omega)
    simp only [Accessor.build, plainAccess_visit, if_neg hlen, span_left, shiftLeft_one_eq,
      two_mul_or_one, span_leftHalf, span_rightHalf, hleft, hright, Option.bind_eq_bind,
      Option.bind_some]
    simp only [Accessor.pushUp, plainAccess_sum, plainAccess_modifySum, shiftLeft_one_eq,
      two_mul_or_one, hs (show 2 * c < m by omega), hs (show 2 * c + 1 < m by omega),
      Option.bind_eq_bind, Option.bind_some, add_zero]
    exact h.modifySum (by omega)

theorem AllZero.holds (h : AllZero m t) (hc : (c + 1) * 2 ^ d ≤ m) :
    Holds t (LazyTree.zero d) c := by
  induction d generalizing c with
  | zero =>
    constructor
    · rw [h.sum, List.getElem?_replicate, if_pos (by omega)]
    · rw [h.lazyAdd, List.getElem?_replicate, if_pos (by omega)]
  | succ d ih =>
    have hpos := Nat.two_pow_pos d
    rw [pow_succ, ← Nat.mul_assoc] at hc
    have hle : c + 1 ≤ (c + 1) * 2 ^ d := Nat.le_mul_of_pos_right _ hpos
    have hl : (2 * c + 1) * 2 ^ d + 2 ^ d = (c + 1) * 2 ^ d * 2 := by ring
    have hr : (2 * c + 1 + 1) * 2 ^ d = (c + 1) * 2 ^ d * 2 := by ring
    refine ⟨⟨?_, ?_⟩, ih (by omega), ih (by omega)⟩
    · rw [h.sum, List.getElem?_replicate, if_pos (by omega)]
    · rw [h.lazyAdd, List.getElem?_replicate, if_pos (by omega)]

structure Covers (d : Nat) (t : SegmentTree) : Prop where
  root : t.root = 1
  rootRange : t.rootRange = span 1 d

theorem Covers.fuel (h : Covers d t) : d < t.fuel := by
  rw [SegmentTree.fuel, h.rootRange, span_length]
  exact Nat.lt_two_pow_self

theorem Covers.of_sameOff (h : Covers d t) (hf : SameOff d' c t t') : Covers d t' :=
  ⟨hf.root.trans h.root, hf.rootRange.trans h.rootRange⟩

theorem rootRange_eq (d : Nat) : (⟨1, 2 ^ d⟩ : Range) = span 1 d := by
  simp only [span, Nat.add_sub_cancel_left]

theorem two_pow_check (d : Nat) : 2 ^ d > 0 ∧ 2 ^ d &&& (2 ^ d - 1) = 0 := by
  refine ⟨Nat.two_pow_pos d, ?_⟩
  rw [Nat.and_two_pow_sub_one_eq_mod, Nat.mod_self]

theorem new_holds (d : Nat) :
    ∃ t, SegmentTree.new (2 ^ d) = some t ∧ Covers d t ∧ Holds t (LazyTree.zero d) 1 := by
  have hpos := Nat.two_pow_pos d
  let t : SegmentTree :=
    { sum := List.replicate (2 ^ d <<< 1) 0, lazyAdd := List.replicate (2 ^ d <<< 1) 0,
      root := 1, rootRange := span 1 d }
  have hz : AllZero (2 * 2 ^ d) t := by
    constructor <;> simp only [t, shiftLeft_one_eq]
  have hcov : Covers d t := ⟨rfl, rfl⟩
  refine ⟨t, ?_, hcov, hz.holds (by omega)⟩
  rw [SegmentTree.new, Accessor.new, if_pos (two_pow_check d), rootRange_eq]
  exact @AllZero.build (2 * 2 ^ d) t d t.fuel 1 1 hz hcov.fuel (by omega) (by omega)

end CppUtil.DataStructure

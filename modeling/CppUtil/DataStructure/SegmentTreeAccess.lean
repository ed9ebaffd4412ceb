import CppUtil.DataStructure.SegmentTreeRuns
import CppUtil.Lib.Logged

/-!
# What the segment tree accesses

The recursions run with a log of the nodes they visit, the nodes they push down and
the entries they access (`loggedAccess`); without the log they are the recursions of
the model (`build_result` and so on).

A node of depth `d` has its index in `[2 ^ d, 2 ^ (d + 1))` and a range of
`n / 2 ^ d` indices. Both halves of such a node are nodes again (`Node.left`,
`Node.right`), which carries the four recursions from the root to the leaves:
`accesses_safe`, for vectors of `2 * n` entries with any contents.
-/

namespace CppUtil.DataStructure

open Lib (Logged)
open Lib.Logged (Ok)

inductive Access
  /-- A call of one of the recursions. -/
  | visit (current : Nat) (currentRange : Range)
  | pushDown (current : Nat) (currentRange : Range)
  | sum (i : Nat)
  | lazyAdd (i : Nat)
  deriving DecidableEq

-- ---------------------------------------------------------------------------
-- The recursions with a log
-- ---------------------------------------------------------------------------

def loggedAccess : Accessor (Logged Access) where
  sum t i := do
    Logged.emit (.sum i)
    Logged.ofOption t.sum[i]?
  lazyAdd t i := do
    Logged.emit (.lazyAdd i)
    Logged.ofOption t.lazyAdd[i]?
  modifySum t i f := do
    Logged.emit (.sum i)
    Logged.ofOption (t.modifySum i f)
  modifyLazyAdd t i f := do
    Logged.emit (.lazyAdd i)
    Logged.ofOption (t.modifyLazyAdd i f)
  visit current currentRange := Logged.emit (.visit current currentRange)
  descend current currentRange := Logged.emit (.pushDown current currentRange)
  stop := Logged.ofOption none

namespace Traced

abbrev build (fuel : Nat) (t : SegmentTree) (current : Nat) (currentRange : Range) :
    Logged Access SegmentTree :=
  loggedAccess.build fuel t current currentRange

abbrev queryFrom (fuel : Nat) (t : SegmentTree) (queryRange : Range) (current : Nat)
    (currentRange : Range) : Logged Access (Word × SegmentTree) :=
  loggedAccess.queryFrom fuel t queryRange current currentRange

abbrev updatePointFrom (fuel : Nat) (t : SegmentTree) (k : Nat) (increment : Word) (current : Nat)
    (currentRange : Range) : Logged Access SegmentTree :=
  loggedAccess.updatePointFrom fuel t k increment current currentRange

abbrev updateRangeFrom (fuel : Nat) (t : SegmentTree) (kRange : Range) (increment : Word)
    (current : Nat) (currentRange : Range) : Logged Access SegmentTree :=
  loggedAccess.updateRangeFrom fuel t kRange increment current currentRange

def exec (t : SegmentTree) : Op → Logged Access SegmentTree
  | .updatePoint k x => updatePointFrom t.fuel t k x t.root t.rootRange
  | .updateRange r x => updateRangeFrom t.fuel t r x t.root t.rootRange
  | .query r => do
    let (_, t) ← queryFrom t.fuel t r t.root t.rootRange
    return t

def after (n : Nat) (ops : List Op) : Logged Access SegmentTree := do
  let t ← loggedAccess.new n
  ops.foldlM exec t

end Traced

-- ---------------------------------------------------------------------------
-- Without the log
-- ---------------------------------------------------------------------------

section
variable {t : SegmentTree}

@[simp] theorem sum_result : (loggedAccess.sum t i).result = plainAccess.sum t i := rfl

@[simp] theorem lazyAdd_result :
    (loggedAccess.lazyAdd t i).result = plainAccess.lazyAdd t i := rfl

@[simp] theorem modifySum_result :
    (loggedAccess.modifySum t i f).result = plainAccess.modifySum t i f := rfl

@[simp] theorem modifyLazyAdd_result :
    (loggedAccess.modifyLazyAdd t i f).result = plainAccess.modifyLazyAdd t i f := rfl

@[simp] theorem visit_result : (loggedAccess.visit c r).result = plainAccess.visit c r := rfl

@[simp] theorem descend_result : (loggedAccess.descend c r).result = plainAccess.descend c r := rfl

@[simp] theorem stop_result :
    (loggedAccess.stop : Logged Access α).result = plainAccess.stop := rfl

@[simp] theorem pushUp_result : (loggedAccess.pushUp t c).result = t.pushUp c := by
  simp only [Accessor.pushUp, Logged.result_bind, sum_result, modifySum_result,
    Option.bind_eq_bind]

@[simp] theorem pushDown_result : (loggedAccess.pushDown t c r).result = t.pushDown c r := by
  simp only [Accessor.pushDown, Logged.result_bind, Logged.result_ite, Logged.result_pure,
    descend_result, lazyAdd_result, modifySum_result, modifyLazyAdd_result, Option.bind_eq_bind,
    Option.pure_def]

end

namespace Traced

theorem build_result : (build fuel t c r).result = SegmentTree.build fuel t c r := by
  induction fuel generalizing t c r with
  | zero => rfl
  | succ fuel ih =>
    simp only [Accessor.build, Logged.result_bind, Logged.result_ite, visit_result,
      lazyAdd_result, modifySum_result, pushUp_result, ih, Option.bind_eq_bind]

theorem queryFrom_result :
    (queryFrom fuel t q c r).result = SegmentTree.queryFrom fuel t q c r := by
  induction fuel generalizing t c r with
  | zero => rfl
  | succ fuel ih =>
    simp only [Accessor.queryFrom, Logged.result_bind, Logged.result_ite, Logged.result_pure,
      visit_result, sum_result, pushDown_result, ih, Option.bind_eq_bind, Option.pure_def]

theorem updatePointFrom_result : (updatePointFrom fuel t k x c r).result =
    SegmentTree.updatePointFrom fuel t k x c r := by
  induction fuel generalizing t c r with
  | zero => rfl
  | succ fuel ih =>
    simp only [Accessor.updatePointFrom, Logged.result_bind, Logged.result_ite, visit_result,
      modifySum_result, pushUp_result, ih, Option.bind_eq_bind]

theorem updateRangeFrom_result : (updateRangeFrom fuel t q x c r).result =
    SegmentTree.updateRangeFrom fuel t q x c r := by
  induction fuel generalizing t c r with
  | zero => rfl
  | succ fuel ih =>
    simp only [Accessor.updateRangeFrom, Logged.result_bind, Logged.result_ite,
      Logged.result_pure, visit_result, modifySum_result, modifyLazyAdd_result, pushDown_result,
      pushUp_result, ih, Option.bind_eq_bind, Option.pure_def]

theorem new_result (n : Nat) : (loggedAccess.new n).result = SegmentTree.new n := by
  simp only [Accessor.new, Logged.result_ite, build_result, stop_result]

theorem exec_result (t : SegmentTree) (op : Op) : (exec t op).result = DataStructure.exec t op := by
  cases op with
  | updatePoint k x => exact updatePointFrom_result
  | updateRange r x => exact updateRangeFrom_result
  | query r =>
    simp only [exec, DataStructure.exec, SegmentTree.query, Logged.result_bind,
      Logged.result_pure, queryFrom_result]
    exact (Option.map_eq_bind ..).symm

theorem after_result (n : Nat) (ops : List Op) :
    (after n ops).result = DataStructure.after n ops := by
  simp only [after, DataStructure.after, Logged.result_bind, new_result, Logged.result_foldlM,
    exec_result, Option.bind_eq_bind]

end Traced

-- ---------------------------------------------------------------------------
-- Nodes
-- ---------------------------------------------------------------------------

/-- A node of a tree of height `h`, `e` levels above the leaves. -/
structure Node (h c : Nat) (r : Range) (e : Nat) : Prop where
  index : ∃ d, d + e = h ∧ 2 ^ d ≤ c ∧ c < 2 ^ (d + 1)
  range : ∃ lo, r = span lo e ∧ 1 ≤ lo ∧ lo + 2 ^ e ≤ 2 ^ h + 1

theorem Node.root (h : Nat) : Node h 1 (span 1 h) h where
  index := ⟨0, Nat.zero_add h, Nat.le_refl 1, Nat.one_lt_two⟩
  range := ⟨1, rfl, Nat.le_refl 1, by omega⟩

theorem Node.left (hn : Node h c r (e + 1)) : Node h (c <<< 1) ⟨r.left, r.middle⟩ e := by
  obtain ⟨⟨d, hd, hc, hc'⟩, lo, rfl, hlo, hhi⟩ := hn
  rw [pow_succ] at hhi
  refine ⟨⟨d + 1, by omega, ?_, ?_⟩, lo, span_leftHalf, hlo, by omega⟩
  · rw [shiftLeft_one_eq, pow_succ]
    omega
  · rw [shiftLeft_one_eq, pow_succ]
    omega

theorem Node.right (hn : Node h c r (e + 1)) :
    Node h (c <<< 1 ||| 1) ⟨r.middle + 1, r.right⟩ e := by
  obtain ⟨⟨d, hd, hc, hc'⟩, lo, rfl, hlo, hhi⟩ := hn
  rw [pow_succ] at hhi
  refine ⟨⟨d + 1, by omega, ?_, ?_⟩, lo + 2 ^ e, span_rightHalf, by omega, by omega⟩
  · rw [shiftLeft_one_eq, two_mul_or_one, pow_succ]
    omega
  · rw [shiftLeft_one_eq, two_mul_or_one, pow_succ]
    omega

theorem Node.length (hn : Node h c r e) : r.length = 2 ^ e := by
  obtain ⟨-, lo, rfl, -⟩ := hn
  exact span_length

theorem Node.length_ne_one (hn : Node h c r (e + 1)) : r.length ≠ 1 := by
  have := Nat.two_pow_pos e
  rw [hn.length, pow_succ]
  omega

theorem Node.index_lt (hn : Node h c r e) : c < 2 * 2 ^ h := by
  obtain ⟨⟨d, hd, -, hc⟩, -⟩ := hn
  have hle : 2 ^ (d + 1) ≤ 2 ^ (h + 1) := Nat.pow_le_pow_right (by decide) (by omega)
  rw [pow_succ 2 h] at hle
  omega

theorem Node.left_lt (hn : Node h c r e) : r.left < 2 * 2 ^ h := by
  obtain ⟨-, lo, rfl, -, hhi⟩ := hn
  have hone := Nat.two_pow_pos e
  have hall := Nat.two_pow_pos h
  rw [span_left]
  omega

-- ---------------------------------------------------------------------------
-- Safe accesses
-- ---------------------------------------------------------------------------

def AtDepth (n d current : Nat) (currentRange : Range) : Prop :=
  2 ^ d ≤ current ∧ current < 2 ^ (d + 1) ∧ currentRange.length = n / 2 ^ d

/-- In a tree over `2 ^ h` indices. The leaves have depth `h`. -/
def Access.Safe (h : Nat) : Access → Prop
  | .visit current currentRange => ∃ d ≤ h, AtDepth (2 ^ h) d current currentRange
  | .pushDown current currentRange => ∃ d < h, AtDepth (2 ^ h) d current currentRange
  | .sum i | .lazyAdd i => i < 2 * 2 ^ h

theorem Node.atDepth (hn : Node h c r e) : ∃ d, d + e = h ∧ AtDepth (2 ^ h) d c r := by
  obtain ⟨d, hd, hc, hc'⟩ := hn.index
  refine ⟨d, hd, hc, hc', ?_⟩
  rw [hn.length, ← hd, pow_add, Nat.mul_div_cancel_left _ (Nat.two_pow_pos d)]

theorem Node.visit_safe (hn : Node h c r e) : (Access.visit c r).Safe h := by
  obtain ⟨d, hd, hat⟩ := hn.atDepth
  exact ⟨d, by omega, hat⟩

theorem Node.pushDown_safe (hn : Node h c r (e + 1)) : (Access.pushDown c r).Safe h := by
  obtain ⟨d, hd, hat⟩ := hn.atDepth
  exact ⟨d, by omega, hat⟩

/-- The tree covers `2 ^ h` indices and its vectors have twice as many entries. -/
structure Sized (h : Nat) (t : SegmentTree) : Prop extends Covers h t where
  sum : t.sum.length = 2 * 2 ^ h
  lazyAdd : t.lazyAdd.length = 2 * 2 ^ h

namespace Traced

variable {t : SegmentTree}

theorem sum_ok (ht : Sized h t) (hi : i < 2 * 2 ^ h) :
    Ok (Access.Safe h) (fun _ => True) (loggedAccess.sum t i) :=
  .bind (.emit hi) fun _ _ => .ofOption (List.getElem?_eq_getElem (ht.sum ▸ hi)) trivial

theorem lazyAdd_ok (ht : Sized h t) (hi : i < 2 * 2 ^ h) :
    Ok (Access.Safe h) (fun _ => True) (loggedAccess.lazyAdd t i) :=
  .bind (.emit hi) fun _ _ => .ofOption (List.getElem?_eq_getElem (ht.lazyAdd ▸ hi)) trivial

theorem modify_of_lt {v : List Word} (hi : i < v.length) (f : Word → Word) :
    ∃ v', modify v i f = some v' ∧ v'.length = v.length :=
  ⟨_, by rw [modify, List.getElem?_eq_getElem hi, Option.map_some], List.length_set⟩

theorem modifySum_ok (ht : Sized h t) (hi : i < 2 * 2 ^ h) (f : Word → Word) :
    Ok (Access.Safe h) (Sized h) (loggedAccess.modifySum t i f) := by
  obtain ⟨v, hv, hlen⟩ := modify_of_lt (ht.sum ▸ hi) f
  have hresult : t.modifySum i f = some { t with sum := v } := by
    rw [SegmentTree.modifySum, hv, Option.map_some]
  exact .bind (.emit hi) fun _ _ =>
    .ofOption hresult ⟨⟨ht.root, ht.rootRange⟩, hlen.trans ht.sum, ht.lazyAdd⟩

theorem modifyLazyAdd_ok (ht : Sized h t) (hi : i < 2 * 2 ^ h) (f : Word → Word) :
    Ok (Access.Safe h) (Sized h) (loggedAccess.modifyLazyAdd t i f) := by
  obtain ⟨v, hv, hlen⟩ := modify_of_lt (ht.lazyAdd ▸ hi) f
  have hresult : t.modifyLazyAdd i f = some { t with lazyAdd := v } := by
    rw [SegmentTree.modifyLazyAdd, hv, Option.map_some]
  exact .bind (.emit hi) fun _ _ =>
    .ofOption hresult ⟨⟨ht.root, ht.rootRange⟩, ht.sum, hlen.trans ht.lazyAdd⟩

theorem pushUp_ok (ht : Sized h t) (hn : Node h c r (e + 1)) :
    Ok (Access.Safe h) (Sized h) (loggedAccess.pushUp t c) :=
  .bind (sum_ok ht hn.left.index_lt) fun _ _ =>
    .bind (sum_ok ht hn.right.index_lt) fun _ _ => modifySum_ok ht hn.index_lt _

theorem pushDown_ok (ht : Sized h t) (hn : Node h c r (e + 1)) :
    Ok (Access.Safe h) (Sized h) (loggedAccess.pushDown t c r) := by
  have hleft := hn.left.index_lt
  have hright := hn.right.index_lt
  refine .bind (.emit hn.pushDown_safe) fun _ _ => ?_
  refine .bind (lazyAdd_ok ht hn.index_lt) fun tag _ => ?_
  refine .ite (fun _ => .pure ht) fun _ => ?_
  refine .bind (modifyLazyAdd_ok ht hleft _) fun _ ht => ?_
  refine .bind (modifyLazyAdd_ok ht hright _) fun _ ht => ?_
  refine .bind (modifySum_ok ht hleft _) fun _ ht => ?_
  refine .bind (modifySum_ok ht hright _) fun _ ht => ?_
  exact modifyLazyAdd_ok ht hn.index_lt _

-- ---------------------------------------------------------------------------
-- The recursions
-- ---------------------------------------------------------------------------

theorem build_ok (ht : Sized h t) (hn : Node h c r e) (hf : e < fuel) :
    Ok (Access.Safe h) (Sized h) (build fuel t c r) := by
  induction e generalizing t c r fuel with
  | zero =>
    obtain ⟨fuel, rfl⟩ := Nat.exists_eq_add_of_lt hf
    refine .bind (.emit hn.visit_safe) fun _ _ => .ite (fun _ => ?_) fun hlen => ?_
    · exact .bind (lazyAdd_ok ht hn.left_lt) fun _ _ => modifySum_ok ht hn.index_lt _
    · exact absurd hn.length hlen
  | succ e ih =>
    obtain ⟨fuel, rfl⟩ := Nat.exists_eq_add_of_lt hf
    refine .bind (.emit hn.visit_safe) fun _ _ => .ite (fun hlen => ?_) fun _ => ?_
    · exact absurd hlen hn.length_ne_one
    · refine .bind (ih ht hn.left (by omega)) fun _ ht => ?_
      exact .bind (ih ht hn.right (by omega)) fun _ ht => pushUp_ok ht hn

theorem updatePointFrom_ok (ht : Sized h t) (hn : Node h c r e) (hf : e < fuel) :
    Ok (Access.Safe h) (Sized h) (updatePointFrom fuel t k x c r) := by
  induction e generalizing t c r fuel with
  | zero =>
    obtain ⟨fuel, rfl⟩ := Nat.exists_eq_add_of_lt hf
    refine .bind (.emit hn.visit_safe) fun _ _ => .ite (fun _ => ?_) fun hlen => ?_
    · exact modifySum_ok ht hn.index_lt _
    · exact absurd hn.length hlen
  | succ e ih =>
    obtain ⟨fuel, rfl⟩ := Nat.exists_eq_add_of_lt hf
    refine .bind (.emit hn.visit_safe) fun _ _ => .ite (fun hlen => ?_) fun _ => ?_
    · exact absurd hlen hn.length_ne_one
    · refine .bind (.ite (fun _ => ?_) fun _ => ?_) fun _ ht => pushUp_ok ht hn
      · exact ih ht hn.left (by omega)
      · exact ih ht hn.right (by omega)

end Traced

def Range.Meets (q r : Range) : Prop := q.left ≤ r.right ∧ r.left ≤ q.right

theorem Node.leaf_inside {q : Range} (hn : Node h c r 0) (hm : q.Meets r) :
    r.left ≥ q.left ∧ r.right ≤ q.right := by
  obtain ⟨-, lo, rfl, -⟩ := hn
  exact ⟨hm.1, hm.2⟩

namespace Traced

variable {t : SegmentTree} {q : Range}

theorem half_ok {p : Prop} [Decidable p] {x : Logged Access (Word × SegmentTree)} (ht : Sized h t)
    (hx : p → Ok (Access.Safe h) (fun y => Sized h y.2) x) :
    Ok (Access.Safe h) (fun y => Sized h y.2) (if p then x else pure (0, t)) :=
  .ite hx fun _ => .pure ht

theorem queryFrom_ok (ht : Sized h t) (hn : Node h c r e) (hm : q.Meets r) (hf : e < fuel) :
    Ok (Access.Safe h) (fun p => Sized h p.2) (queryFrom fuel t q c r) := by
  induction e generalizing t c r fuel with
  | zero =>
    obtain ⟨fuel, rfl⟩ := Nat.exists_eq_add_of_lt hf
    refine .bind (.emit hn.visit_safe) fun _ _ => .ite (fun _ => ?_) fun hinside => ?_
    · exact .bind (sum_ok ht hn.index_lt) fun _ _ => .pure ht
    · exact absurd (hn.leaf_inside hm) hinside
  | succ e ih =>
    obtain ⟨fuel, rfl⟩ := Nat.exists_eq_add_of_lt hf
    refine .bind (.emit hn.visit_safe) fun _ _ => .ite (fun _ => ?_) fun _ => ?_
    · exact .bind (sum_ok ht hn.index_lt) fun _ _ => .pure ht
    · refine .bind (pushDown_ok ht hn) fun _ ht => ?_
      refine .bind (half_ok ht fun hle => ih ht hn.left ⟨hle, hm.2⟩ (by omega)) fun (a, t) ht => ?_
      refine .bind (half_ok ht fun hge => ih ht hn.right ⟨hm.1, hge⟩ (by omega)) fun (b, t) ht => ?_
      exact .pure ht

theorem updateRangeFrom_ok (ht : Sized h t) (hn : Node h c r e) (hm : q.Meets r) (hf : e < fuel) :
    Ok (Access.Safe h) (Sized h) (updateRangeFrom fuel t q x c r) := by
  induction e generalizing t c r fuel with
  | zero =>
    obtain ⟨fuel, rfl⟩ := Nat.exists_eq_add_of_lt hf
    refine .bind (.emit hn.visit_safe) fun _ _ => .ite (fun _ => ?_) fun hinside => ?_
    · refine .bind (modifySum_ok ht hn.index_lt _) fun _ ht => ?_
      exact modifyLazyAdd_ok ht hn.index_lt _
    · exact absurd (hn.leaf_inside hm) hinside
  | succ e ih =>
    obtain ⟨fuel, rfl⟩ := Nat.exists_eq_add_of_lt hf
    refine .bind (.emit hn.visit_safe) fun _ _ => .ite (fun _ => ?_) fun _ => ?_
    · refine .bind (modifySum_ok ht hn.index_lt _) fun _ ht => ?_
      exact modifyLazyAdd_ok ht hn.index_lt _
    · refine .bind (pushDown_ok ht hn) fun _ ht => ?_
      refine .bind (.ite (fun hle => ?_) fun _ => .pure ht) fun _ ht => ?_
      · exact ih ht hn.left ⟨hle, hm.2⟩ (by omega)
      · refine .bind (.ite (fun hge => ?_) fun _ => .pure ht) fun _ ht => pushUp_ok ht hn
        exact ih ht hn.right ⟨hm.1, hge⟩ (by omega)

end Traced

-- ---------------------------------------------------------------------------
-- From the root
-- ---------------------------------------------------------------------------

theorem Range.Within.meets {q : Range} (hq : q.Within (2 ^ h)) : q.Meets (span 1 h) := by
  obtain ⟨hl, hlr, hr⟩ := hq
  rw [← rootRange_eq]
  exact ⟨Nat.le_trans hlr hr, Nat.le_trans hl hlr⟩

/-- `x` is `y` with a log: it returns, its accesses are safe, and the tree it leaves
has the same size. -/
structure Safely (h : Nat) (tree : α → SegmentTree) (x : Logged Access α) (y : Option α) :
    Prop where
  erased : x.result = y
  returns : ∃ a, y = some a ∧ Sized h (tree a)
  accesses : ∀ e ∈ x.log, e.Safe h

theorem Safely.of_ok {tree : α → SegmentTree} {x : Logged Access α}
    (hok : Ok (Access.Safe h) (fun a => Sized h (tree a)) x) (herased : x.result = y) :
    Safely h tree x y :=
  ⟨herased, herased ▸ hok.result, hok.log⟩

/-- The recursions on a tree over `2 ^ h` indices, from its root and for every
index and every range. -/
theorem accesses_safe {t : SegmentTree} (ht : Sized h t) {q : Range} (hl : 1 ≤ q.left)
    (hlr : q.left ≤ q.right) (hr : q.right ≤ 2 ^ h) (k : Nat) (increment : Word) :
    Safely h id (Traced.build t.fuel t 1 ⟨1, 2 ^ h⟩) (t.build t.fuel 1 ⟨1, 2 ^ h⟩) ∧
    Safely h Prod.snd (Traced.queryFrom t.fuel t q 1 ⟨1, 2 ^ h⟩) (t.query q) ∧
    Safely h id (Traced.updatePointFrom t.fuel t k increment 1 ⟨1, 2 ^ h⟩)
      (t.updatePoint k increment) ∧
    Safely h id (Traced.updateRangeFrom t.fuel t q increment 1 ⟨1, 2 ^ h⟩)
      (t.updateRange q increment) := by
  have hmeets := Range.Within.meets ⟨hl, hlr, hr⟩
  have hroot := Node.root h
  have hfuel := ht.fuel
  rw [SegmentTree.query, SegmentTree.updatePoint, SegmentTree.updateRange, ht.root, ht.rootRange,
    rootRange_eq]
  refine ⟨?_, ?_, ?_, ?_⟩
  · exact .of_ok (Traced.build_ok ht hroot hfuel) Traced.build_result
  · exact .of_ok (Traced.queryFrom_ok ht hroot hmeets hfuel) Traced.queryFrom_result
  · exact .of_ok (Traced.updatePointFrom_ok ht hroot hfuel) Traced.updatePointFrom_result
  · exact .of_ok (Traced.updateRangeFrom_ok ht hroot hmeets hfuel) Traced.updateRangeFrom_result

def fourZeros : SegmentTree where
  sum := List.replicate 8 0
  lazyAdd := List.replicate 8 0
  root := 1
  rootRange := ⟨1, 4⟩

theorem accesses_safe_four : Safely 2 Prod.snd
    (Traced.queryFrom fourZeros.fuel fourZeros ⟨2, 3⟩ 1 ⟨1, 2 ^ 2⟩) (fourZeros.query ⟨2, 3⟩) :=
  (accesses_safe ⟨⟨rfl, rfl⟩, rfl, rfl⟩ (by decide) (by decide) (by decide) 1 0).2.1

-- ---------------------------------------------------------------------------
-- Whole runs
-- ---------------------------------------------------------------------------

namespace Traced

theorem new_ok (h : Nat) : Ok (Access.Safe h) (Sized h) (loggedAccess.new (2 ^ h)) := by
  refine .ite (fun _ => ?_) fun hcheck => absurd (two_pow_check h) hcheck
  let t : SegmentTree :=
    { sum := List.replicate (2 ^ h <<< 1) 0, lazyAdd := List.replicate (2 ^ h <<< 1) 0,
      root := 1, rootRange := ⟨1, 2 ^ h⟩ }
  have ht : Sized h t := by
    refine ⟨⟨rfl, rootRange_eq h⟩, ?_, ?_⟩
    · rw [List.length_replicate, shiftLeft_one_eq]
    · rw [List.length_replicate, shiftLeft_one_eq]
  exact build_ok ht (rootRange_eq h ▸ Node.root h) ht.fuel

theorem exec_ok (ht : Sized h t) (hv : op.Valid (2 ^ h)) :
    Ok (Access.Safe h) (Sized h) (exec t op) := by
  have hroot := Node.root h
  cases op with
  | updatePoint k x =>
    rw [exec, ht.root, ht.rootRange]
    exact updatePointFrom_ok ht hroot ht.fuel
  | updateRange r x =>
    rw [exec, ht.root, ht.rootRange]
    exact updateRangeFrom_ok ht hroot (Range.Within.meets hv) ht.fuel
  | query r =>
    rw [exec, ht.root, ht.rootRange]
    exact .bind (queryFrom_ok ht hroot (Range.Within.meets hv) ht.fuel) fun (_, _) ht => .pure ht

end Traced

theorem run_safe (h : Nat) (hv : ∀ op ∈ ops, op.Valid (2 ^ h)) :
    Safely h id (Traced.after (2 ^ h) ops) (after (2 ^ h) ops) :=
  .of_ok (.bind (Traced.new_ok h) fun _ ht => .foldlM ht fun _ ht op hop =>
    Traced.exec_ok ht (hv op hop)) (Traced.after_result _ _)

end CppUtil.DataStructure

import Mathlib.Data.BitVec
import Mathlib.Tactic.Simps.Basic

/-!
# The segment tree of `data_structure/segment_tree`

`sum_` and `lazy_add_` are vectors of `int`. An access outside a vector is
undefined behaviour in the source and gives `none` here, as do a failed
`CHECK` and a recursion that runs out of fuel. The arithmetic of `int` is taken
modulo `2 ^ 32`; indices and lengths (`std::size_t`) are natural numbers, which
is the same thing for every tree that fits in memory.

The recursions are written over the accesses they make (`Accessor`), so that they
can be run with a log of these as well.
-/

namespace CppUtil.DataStructure

abbrev Word := BitVec 32

structure Range where
  left : Nat
  right : Nat
  deriving DecidableEq, Repr

def Range.length (r : Range) : Nat := r.right + 1 - r.left

def Range.middle (r : Range) : Nat := (r.left + r.right) >>> 1

structure SegmentTree where
  sum : List Word
  lazyAdd : List Word
  root : Nat
  rootRange : Range
  deriving DecidableEq, Repr

-- ---------------------------------------------------------------------------
-- Vectors
-- ---------------------------------------------------------------------------

def modify (v : List Word) (i : Nat) (f : Word → Word) : Option (List Word) :=
  v[i]?.map fun x => v.set i (f x)

/-- `s += x * len`, where `len` is a `std::size_t`: both operands are converted
to 64 bits before the product and the sum are taken, and the result is cut back. -/
def addScaled (x : Word) (len : Nat) (s : Word) : Word :=
  (s.signExtend 64 + x.signExtend 64 * BitVec.ofNat 64 len).setWidth 32

namespace SegmentTree

def modifySum (t : SegmentTree) (i : Nat) (f : Word → Word) : Option SegmentTree :=
  (modify t.sum i f).map fun v => { t with sum := v }

def modifyLazyAdd (t : SegmentTree) (i : Nat) (f : Word → Word) : Option SegmentTree :=
  (modify t.lazyAdd i f).map fun v => { t with lazyAdd := v }

/-- Enough for every recursion: the depth of the tree is at most its length. -/
def fuel (t : SegmentTree) : Nat := t.rootRange.length

end SegmentTree

/-- How the recursions access the vectors. They announce their own calls and those of
`push_down`, and `stop` where the source would not go on. -/
structure Accessor (m : Type → Type) where
  sum : SegmentTree → Nat → m Word
  lazyAdd : SegmentTree → Nat → m Word
  modifySum : SegmentTree → Nat → (Word → Word) → m SegmentTree
  modifyLazyAdd : SegmentTree → Nat → (Word → Word) → m SegmentTree
  visit : Nat → Range → m Unit
  descend : Nat → Range → m Unit
  stop : {α : Type} → m α

namespace Accessor

variable {m : Type → Type} [Monad m] (A : Accessor m)

-- ---------------------------------------------------------------------------
-- Operations on one node
-- ---------------------------------------------------------------------------

def pushUp (t : SegmentTree) (current : Nat) : m SegmentTree := do
  let l ← A.sum t (current <<< 1)
  let r ← A.sum t (current <<< 1 ||| 1)
  A.modifySum t current fun _ => l + r

def pushDown (t : SegmentTree) (current : Nat) (currentRange : Range) : m SegmentTree := do
  A.descend current currentRange
  let tag ← A.lazyAdd t current
  if tag = 0 then
    return t
  let left := current <<< 1
  let right := current <<< 1 ||| 1
  let leftRange : Range := ⟨currentRange.left, currentRange.middle⟩
  let rightRange : Range := ⟨currentRange.middle + 1, currentRange.right⟩
  let t ← A.modifyLazyAdd t left (· + tag)
  let t ← A.modifyLazyAdd t right (· + tag)
  let t ← A.modifySum t left (addScaled tag leftRange.length)
  let t ← A.modifySum t right (addScaled tag rightRange.length)
  A.modifyLazyAdd t current fun _ => 0

-- ---------------------------------------------------------------------------
-- Recursions over the tree
-- ---------------------------------------------------------------------------

def build : Nat → SegmentTree → Nat → Range → m SegmentTree
  | 0, _, _, _ => A.stop
  | fuel + 1, t, current, currentRange => do
    A.visit current currentRange
    if currentRange.length = 1 then
      -- The source reads the leaf's value from `lazy_add_`, which is all zeros here.
      let v ← A.lazyAdd t currentRange.left
      A.modifySum t current fun _ => v
    else
      let middle := currentRange.middle
      let t ← build fuel t (current <<< 1) ⟨currentRange.left, middle⟩
      let t ← build fuel t (current <<< 1 ||| 1) ⟨middle + 1, currentRange.right⟩
      A.pushUp t current

def queryFrom : Nat → SegmentTree → Range → Nat → Range → m (Word × SegmentTree)
  | 0, _, _, _, _ => A.stop
  | fuel + 1, t, queryRange, current, currentRange => do
    A.visit current currentRange
    if currentRange.left ≥ queryRange.left ∧ currentRange.right ≤ queryRange.right then
      let s ← A.sum t current
      return (s, t)
    let middle := currentRange.middle
    let t ← A.pushDown t current currentRange
    let (a, t) ←
      (if queryRange.left ≤ middle then
        queryFrom fuel t queryRange (current <<< 1) ⟨currentRange.left, middle⟩
      else pure (0, t))
    let (b, t) ←
      (if queryRange.right ≥ middle + 1 then
        queryFrom fuel t queryRange (current <<< 1 ||| 1) ⟨middle + 1, currentRange.right⟩
      else pure (0, t))
    return (a + b, t)

def updatePointFrom : Nat → SegmentTree → Nat → Word → Nat → Range → m SegmentTree
  | 0, _, _, _, _, _ => A.stop
  | fuel + 1, t, k, increment, current, currentRange => do
    A.visit current currentRange
    if currentRange.length = 1 then
      A.modifySum t current (· + increment)
    else
      let middle := currentRange.middle
      let t ←
        (if k ≤ middle then
          updatePointFrom fuel t k increment (current <<< 1) ⟨currentRange.left, middle⟩
        else
          updatePointFrom fuel t k increment (current <<< 1 ||| 1) ⟨middle + 1, currentRange.right⟩)
      A.pushUp t current

def updateRangeFrom : Nat → SegmentTree → Range → Word → Nat → Range → m SegmentTree
  | 0, _, _, _, _, _ => A.stop
  | fuel + 1, t, kRange, increment, current, currentRange => do
    A.visit current currentRange
    if kRange.left ≤ currentRange.left ∧ kRange.right ≥ currentRange.right then
      let t ← A.modifySum t current (addScaled increment currentRange.length)
      A.modifyLazyAdd t current (· + increment)
    else
      let middle := currentRange.middle
      let t ← A.pushDown t current currentRange
      let t ←
        (if kRange.left ≤ middle then
          updateRangeFrom fuel t kRange increment (current <<< 1) ⟨currentRange.left, middle⟩
        else pure t)
      let t ←
        (if kRange.right ≥ middle + 1 then
          updateRangeFrom fuel t kRange increment (current <<< 1 ||| 1)
            ⟨middle + 1, currentRange.right⟩
        else pure t)
      A.pushUp t current

-- ---------------------------------------------------------------------------
-- Construction
-- ---------------------------------------------------------------------------

def new (length : Nat) : m SegmentTree :=
  if length > 0 ∧ length &&& (length - 1) = 0 then
    let t : SegmentTree :=
      { sum := List.replicate (length <<< 1) 0, lazyAdd := List.replicate (length <<< 1) 0,
        root := 1, rootRange := ⟨1, length⟩ }
    A.build t.fuel t t.root t.rootRange
  else A.stop

end Accessor

-- ---------------------------------------------------------------------------
-- Without a log
-- ---------------------------------------------------------------------------

@[simps]
def plainAccess : Accessor Option where
  sum t i := t.sum[i]?
  lazyAdd t i := t.lazyAdd[i]?
  modifySum := SegmentTree.modifySum
  modifyLazyAdd := SegmentTree.modifyLazyAdd
  visit _ _ := some ()
  descend _ _ := some ()
  stop := none

namespace SegmentTree

abbrev pushUp (t : SegmentTree) (current : Nat) : Option SegmentTree := plainAccess.pushUp t current

abbrev pushDown (t : SegmentTree) (current : Nat) (currentRange : Range) : Option SegmentTree :=
  plainAccess.pushDown t current currentRange

abbrev build (fuel : Nat) (t : SegmentTree) (current : Nat) (currentRange : Range) :
    Option SegmentTree :=
  plainAccess.build fuel t current currentRange

abbrev queryFrom (fuel : Nat) (t : SegmentTree) (queryRange : Range) (current : Nat)
    (currentRange : Range) : Option (Word × SegmentTree) :=
  plainAccess.queryFrom fuel t queryRange current currentRange

abbrev updatePointFrom (fuel : Nat) (t : SegmentTree) (k : Nat) (increment : Word) (current : Nat)
    (currentRange : Range) : Option SegmentTree :=
  plainAccess.updatePointFrom fuel t k increment current currentRange

abbrev updateRangeFrom (fuel : Nat) (t : SegmentTree) (kRange : Range) (increment : Word)
    (current : Nat) (currentRange : Range) : Option SegmentTree :=
  plainAccess.updateRangeFrom fuel t kRange increment current currentRange

abbrev new (length : Nat) : Option SegmentTree := plainAccess.new length

def updatePoint (t : SegmentTree) (k : Nat) (increment : Word) : Option SegmentTree :=
  updatePointFrom t.fuel t k increment t.root t.rootRange

def updateRange (t : SegmentTree) (kRange : Range) (increment : Word) : Option SegmentTree :=
  updateRangeFrom t.fuel t kRange increment t.root t.rootRange

def query (t : SegmentTree) (queryRange : Range) : Option (Word × SegmentTree) :=
  queryFrom t.fuel t queryRange t.root t.rootRange

end SegmentTree

end CppUtil.DataStructure

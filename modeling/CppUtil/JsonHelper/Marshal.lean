import CppUtil.JsonHelper.Types

/-!
# `Marshal`

One function per template of `marshal.h`, generic in what it does to an element,
and a recursion over the type that picks the template overload resolution picks.
A call returns a flag and the root after it, or throws.
-/

namespace CppUtil.JsonHelper

open Lang (Str Exn stdToString)

variable {V : Type} [J : JsonCpp V]

/-- How often `for (int i = 0; i < static_cast<int>(n); ++i)` goes round. -/
def intRounds (n : Nat) : Nat := (BitVec.ofNat 32 n).toInt.toNat

def Key.text : (k : Key) → k.Val → Str
  | .string, key => key
  | .int32, key => stdToString (Int32.toInt key)
  | .uint32, key => stdToString (UInt32.toNat key)
  | .int64, key => stdToString (Int64.toInt key)
  | .uint64, key => stdToString (UInt64.toNat key)

def marshalElems (m : α → V → Except Exn (Bool × V)) :
    List α → Nat → Bool → V → Except Exn (Bool × V)
  | [], _, ret, root => .ok (ret, root)
  | x :: xs, i, ret, root => do
    let child ← J.refElem root i
    let (ok, child) ← m x child
    marshalElems m xs (i + 1) (ret && ok) (J.setElem root i child)

def marshalVector (m : α → V → Except Exn (Bool × V)) (obj : List α) (root : V) :
    Except Exn (Bool × V) :=
  marshalElems m (obj.take (intRounds obj.length)) 0 true root

/-- `Marshal` for sets: an element that fails is not appended. -/
def marshalSet (m : α → V → Except Exn (Bool × V)) : List α → Bool → V → Except Exn (Bool × V)
  | [], ret, root => .ok (ret, root)
  | x :: xs, ret, root => do
    let (ok, elem) ← m x J.null
    if ok then
      let root ← J.append root elem
      marshalSet m xs ret root
    else marshalSet m xs false root

def marshalMap (m : α → V → Except Exn (Bool × V)) :
    List (Str × α) → Bool → V → Except Exn (Bool × V)
  | [], ret, root => .ok (ret, root)
  | (name, x) :: rest, ret, root => do
    let child ← J.refMember root name
    let (ok, child) ← m x child
    marshalMap m rest (ret && ok) (J.setMember root name child)

def castInt (signed : Bool) (e : BitVec width) : Int32 :=
  .ofBitVec (if signed then e.signExtend 32 else e.setWidth 32)

section
variable {F : Floats} [N : JsonDoubles V F]

def Scalar.of : (s : Scalar) → s.Val F → V
  | .bool => J.ofBool
  | .int32 => J.ofInt
  | .int64 => J.ofInt64
  | .uint32 => J.ofUInt
  | .uint64 => J.ofUInt64
  | .float => N.ofFloat
  | .double => N.ofDouble
  | .string => J.ofString
  | .enum signed _ => fun e => J.ofInt (castInt signed e)

mutual
def Ty.marshal (P : Platform) : (t : Ty) → t.Val F → V → Except Exn (Bool × V)
  | .scalar s, v, _ => .ok (true, s.of v)
  | .vector t, v, root => marshalVector (t.marshal P) v root
  | .set t, v, root => marshalSet (t.marshal P) (P.ordered.set v) true root
  | .unorderedSet t, v, root => marshalSet (t.marshal P) (P.unordered.set v) true root
  | .map k _ t, v, root =>
    marshalMap (t.marshal P) ((P.ordered.map v).map fun e => (k.text e.1, e.2)) true root
  | .unorderedMap k t, v, root =>
    marshalMap (t.marshal P) ((P.unordered.map v).map fun e => (k.text e.1, e.2)) true root
  | .struct fields, v, root => fields.marshal P v true root
/-- The member function `JSON_HELPER_MARSHAL_MEMBER_FUNCTION` defines. -/
def Fields.marshal (P : Platform) :
    (fields : Fields) → fields.Val F → Bool → V → Except Exn (Bool × V)
  | .last name t, v, ret, root => do
    let child ← J.refMember root name
    let (ok, child) ← t.marshal P v child
    .ok (ret && ok, J.setMember root name child)
  | .cons name t rest, v, ret, root => do
    let child ← J.refMember root name
    let (ok, child) ← t.marshal P v.1 child
    rest.marshal P v.2 (ret && ok) (J.setMember root name child)
end

-- ---------------------------------------------------------------------------
-- Pointers
-- ---------------------------------------------------------------------------

def kNullptrJsonStr : Str := "nullptr".toList

def marshalPointer (m : α → V → Except Exn (Bool × V)) : Pointer α → V → Except Exn (Bool × V)
  | none, _ => .ok (true, J.ofString kNullptrJsonStr)
  | some (_, x), root => m x root

def Pointee.marshal (P : Platform) : (t : Pointee) → t.Val F → V → Except Exn (Bool × V)
  | .object t => t.marshal P
  | .ptr t => marshalPointer (t.marshal P)

end

end CppUtil.JsonHelper

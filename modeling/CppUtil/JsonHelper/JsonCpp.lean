import CppUtil.Lang.Numeric

/-!
# The part of jsoncpp that `json_helper` uses

jsoncpp is a library in binary form: its code is not at hand, so its values
and operations are parameters (`JsonCpp`). What the helper relies on is stated
by `Documented`: a value can be viewed as null, a number, a boolean, a string,
an array or an object, and every operation does to the view what its
documentation says. The structures after it add what only some results need.
`Tree` is a small implementation that meets them all.

A reference into a value, as in `&((*root)[i])`, is given by what it refers to
(`refElem`) and by the effect of a write through it (`setElem`).
-/

namespace CppUtil.JsonHelper

open Lang (Str Exn)

class JsonCpp (V : Type) where
  null : V
  ofInt : Int32 → V
  ofInt64 : Int64 → V
  ofUInt : UInt32 → V
  ofUInt64 : UInt64 → V
  ofBool : Bool → V
  ofString : Str → V
  /-- What `(*root)[i]` refers to: a null value when it has just been created. -/
  refElem : V → Nat → Except Exn V
  setElem : V → Nat → V → V
  refMember : V → Str → Except Exn V
  setMember : V → Str → V → V
  append : V → V → Except Exn V
  isBool : V → Bool
  isIntegral : V → Bool
  isString : V → Bool
  isArray : V → Bool
  isObject : V → Bool
  asBool : V → Except Exn Bool
  asInt : V → Except Exn Int32
  asInt64 : V → Except Exn Int64
  asUInt : V → Except Exn UInt32
  asUInt64 : V → Except Exn UInt64
  asString : V → Except Exn Str
  size : V → UInt32
  /-- `operator[](int) const`. -/
  elem : V → Nat → Except Exn V
  /-- `operator[](const std::string&) const`. -/
  member : V → Str → Except Exn V
  getMemberNames : V → Except Exn (List Str)

structure Floats where
  float : Type
  double : Type
  floatEq : DecidableEq float
  doubleEq : DecidableEq double

class JsonDoubles (V : Type) (F : Floats) where
  ofFloat : F.float → V
  ofDouble : F.double → V
  isDouble : V → Bool
  asFloat : V → Except Exn F.float
  asDouble : V → Except Exn F.double

inductive View (V : Type)
  | null
  | int (n : Int)
  | real
  | bool (b : Bool)
  | string (s : Str)
  | array (elems : List V)
  | object (members : List (Str × V))

/-- The elements of an array. Null counts as the empty array where an element
is written. -/
def View.elems? : View V → Option (List V)
  | .null => some []
  | .array l => some l
  | _ => none

/-- The members of an object. Null counts as the empty object where a member
is read or written. -/
def View.members? : View V → Option (List (Str × V))
  | .null => some []
  | .object m => some m
  | _ => none

def maxSize : Nat := 2 ^ 32

structure Documented (V : Type) [J : JsonCpp V] where
  view : V → View V
  view_null : view J.null = .null
  view_ofInt : ∀ n : Int32, view (J.ofInt n) = .int n.toInt
  view_ofInt64 : ∀ n : Int64, view (J.ofInt64 n) = .int n.toInt
  view_ofUInt : ∀ n : UInt32, view (J.ofUInt n) = .int n.toNat
  view_ofUInt64 : ∀ n : UInt64, view (J.ofUInt64 n) = .int n.toNat
  view_ofBool : ∀ b, view (J.ofBool b) = .bool b
  view_ofString : ∀ s, view (J.ofString s) = .string s
  isBool : ∀ v, J.isBool v = true ↔ ∃ b, view v = .bool b
  isIntegral : ∀ v n, view v = .int n → J.isIntegral v = true
  isString : ∀ v, J.isString v = true ↔ ∃ s, view v = .string s
  isArray : ∀ v, J.isArray v = true ↔ ∃ l, view v = .array l
  isObject : ∀ v, J.isObject v = true ↔ ∃ m, view v = .object m
  asBool : ∀ v b, view v = .bool b → J.asBool v = .ok b
  asString : ∀ v s, view v = .string s → J.asString v = .ok s
  asInt : ∀ v n, view v = .int n →
    J.asInt v = if -2 ^ 31 ≤ n ∧ n < 2 ^ 31 then .ok (Int32.ofInt n) else .error .json
  asInt64 : ∀ v n, view v = .int n →
    J.asInt64 v = if -2 ^ 63 ≤ n ∧ n < 2 ^ 63 then .ok (Int64.ofInt n) else .error .json
  asUInt : ∀ v n, view v = .int n →
    J.asUInt v = if 0 ≤ n ∧ n < 2 ^ 32 then .ok (UInt32.ofInt n) else .error .json
  asUInt64 : ∀ v n, view v = .int n →
    J.asUInt64 v = if 0 ≤ n ∧ n < 2 ^ 64 then .ok (UInt64.ofInt n) else .error .json
  /-- An array is extended by the element just behind its last one. -/
  refElem_new : ∀ v l, (view v).elems? = some l → l.length + 1 < maxSize →
    J.refElem v l.length = .ok J.null
  setElem_new : ∀ v l x, (view v).elems? = some l → l.length + 1 < maxSize →
    view (J.setElem v l.length x) = .array (l ++ [x])
  append : ∀ v l x, (view v).elems? = some l → l.length + 1 < maxSize →
    ∃ v', J.append v x = .ok v' ∧ view v' = .array (l ++ [x])
  size : ∀ v l, view v = .array l → l.length < maxSize → (J.size v).toNat = l.length
  elem : ∀ v l i x, view v = .array l → l[i]? = some x → J.elem v i = .ok x
  /-- A name occurs once in an object. -/
  nodup : ∀ v m, view v = .object m → (m.map Prod.fst).Nodup
  refMember_new : ∀ v m k, (view v).members? = some m → k ∉ m.map Prod.fst →
    J.refMember v k = .ok J.null
  /-- Where a new member goes among the others is left open. -/
  setMember_new : ∀ v m k x, (view v).members? = some m → k ∉ m.map Prod.fst →
    ∃ m', view (J.setMember v k x) = .object m' ∧ m'.Perm ((k, x) :: m)
  member : ∀ v m k x, view v = .object m → (k, x) ∈ m → J.member v k = .ok x
  getMemberNames : ∀ v m, view v = .object m → J.getMemberNames v = .ok (m.map Prod.fst)

/-- What jsoncpp 1.6.0 documents of reading any value. A number is integral if it
has no fraction and fits in 64 bits; integral numbers are doubles, too. -/
structure DocumentedReads (V : Type) (F : Floats) [J : JsonCpp V] [N : JsonDoubles V F] extends
    Documented V where
  integral : ∀ v, J.isIntegral v = true → ∃ n, view v = .int n
  isDouble : ∀ v, N.isDouble v = true ↔ view v = .real ∨ ∃ n, view v = .int n
  asFloat : ∀ v, N.isDouble v = true → ∃ x, N.asFloat v = .ok x
  asDouble : ∀ v, N.isDouble v = true → ∃ x, N.asDouble v = .ok x
  size_ofNat : ∀ v l, view v = .array l → J.size v = .ofNat l.length
  member_missing : ∀ v m k, (view v).members? = some m → k ∉ m.map Prod.fst →
    J.member v k = .ok J.null
  member_throws : ∀ v k, (view v).members? = none → ∃ e, J.member v k = .error e

structure DocumentedDoubles (V : Type) (F : Floats) [J : JsonCpp V] [N : JsonDoubles V F] extends
    DocumentedReads V F where
  isDouble_ofFloat : ∀ x, N.isDouble (N.ofFloat x) = true
  isDouble_ofDouble : ∀ x, N.isDouble (N.ofDouble x) = true
  asFloat_ofFloat : ∀ x, N.asFloat (N.ofFloat x) = .ok x
  asDouble_ofDouble : ∀ x, N.asDouble (N.ofDouble x) = .ok x

/-- What jsoncpp 1.6.0 documents of writing into any value: elements are written
into an array or null, members into an object or null, and anything else fails a
check. -/
structure DocumentedWrites (V : Type) [J : JsonCpp V] extends Documented V where
  refElem_throws : ∀ v i, (view v).elems? = none → ∃ e, J.refElem v i = .error e
  append_throws : ∀ v x, (view v).elems? = none → ∃ e, J.append v x = .error e
  refMember_throws : ∀ v k, (view v).members? = none → ∃ e, J.refMember v k = .error e

end CppUtil.JsonHelper

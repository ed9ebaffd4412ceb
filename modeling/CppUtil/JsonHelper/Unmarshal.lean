import CppUtil.JsonHelper.Marshal

/-!
# `Unmarshal`

As for `Marshal`, one function per template of `unmarshal.h` and a recursion
over the type. A call returns a flag and the target after it, or throws. The
templates take what they do to an element together with its position, since
every nested call has temporaries of its own.
-/

namespace CppUtil.JsonHelper

open Lang (Str Exn)

variable {V : Type} [J : JsonCpp V]

def Key.parse : (k : Key) → Str → Except Exn k.Val
  | .string, name => .ok name
  | .int32, name => Lang.stoi name
  -- `std::stoul` returns 64 bits; the key is what is left of them.
  | .uint32, name => (Lang.stoul name).map UInt64.toUInt32
  | .int64, name => Lang.stoll name
  | .uint64, name => Lang.stoull name

/-- `Unmarshal` for scalars and strings: the target is assigned only if the
value passes its test. -/
def unmarshalScalar (is : V → Bool) (as : V → Except Exn α) (root : V) (obj : α) :
    Except Exn (Bool × α) :=
  if is root then (as root).map fun x => (true, x) else .ok (false, obj)

/-- The loop of `Unmarshal` for vectors and sets, from index `i` on. An element
is added to the container whether or not its own `Unmarshal` succeeded. -/
def unmarshalElems (u : Nat → V → α → Except Exn (Bool × α)) (tmp : Nat → α) (add : β → α → β)
    (root : V) : (rounds : Nat) → Nat → Bool → β → Except Exn (Bool × β)
  | 0, _, ret, obj => .ok (ret, obj)
  | rounds + 1, i, ret, obj => do
    let child ← J.elem root i
    let (ok, x) ← u i child (tmp i)
    unmarshalElems u tmp add root rounds (i + 1) (ret && ok) (add obj x)

def unmarshalVector (u : Nat → V → α → Except Exn (Bool × α)) (tmp : Nat → α) (root : V)
    (obj : List α) : Except Exn (Bool × List α) :=
  if J.isArray root then
    unmarshalElems u tmp (fun l x => l ++ [x]) root (intRounds (J.size root).toNat) 0 true []
  else .ok (false, obj)

def unmarshalSet [DecidableEq α] (u : Nat → V → α → Except Exn (Bool × α)) (tmp : Nat → α)
    (root : V) (obj : Finset α) : Except Exn (Bool × Finset α) :=
  if J.isArray root then
    unmarshalElems u tmp (fun s x => insert x s) root (intRounds (J.size root).toNat) 0 true ∅
  else .ok (false, obj)

/-- The loop of `Unmarshal` for maps over the remaining member names. Two names
can denote one key: the second then starts from what the first left. -/
def unmarshalMembers [DecidableEq κ] (parse : Str → Except Exn κ)
    (u : Nat → V → α → Except Exn (Bool × α)) (fresh : α) (root : V) :
    List Str → Nat → Bool → (Finmap fun _ : κ => α) → Except Exn (Bool × Finmap fun _ : κ => α)
  | [], _, ret, obj => .ok (ret, obj)
  | name :: names, i, ret, obj => do
    let child ← J.member root name
    let key ← parse name
    let (ok, x) ← u i child ((obj.lookup key).getD fresh)
    unmarshalMembers parse u fresh root names (i + 1) (ret && ok) (obj.insert key x)

def unmarshalMap [DecidableEq κ] (parse : Str → Except Exn κ)
    (u : Nat → V → α → Except Exn (Bool × α)) (fresh : α) (root : V)
    (obj : Finmap fun _ : κ => α) : Except Exn (Bool × Finmap fun _ : κ => α) :=
  if J.isObject root then do
    let mems ← J.getMemberNames root
    unmarshalMembers parse u fresh root mems 0 true ∅
  else .ok (false, obj)

section
variable {F : Floats} [N : JsonDoubles V F]

def Scalar.is (F : Floats) [N : JsonDoubles V F] : Scalar → V → Bool
  | .bool => J.isBool
  | .int32 | .int64 | .uint32 | .uint64 | .enum _ _ => J.isIntegral
  | .float | .double => N.isDouble
  | .string => J.isString

def Scalar.as (F : Floats) [N : JsonDoubles V F] : (s : Scalar) → V → Except Exn (s.Val F)
  | .bool => J.asBool
  | .int32 => J.asInt
  | .int64 => J.asInt64
  | .uint32 => J.asUInt
  | .uint64 => J.asUInt64
  | .float => N.asFloat
  | .double => N.asDouble
  | .string => J.asString
  -- `static_cast<T>` to the underlying type
  | .enum _ width => fun v => (J.asInt v).map fun n => n.toBitVec.signExtend width

mutual
def Ty.unmarshal : (t : Ty) → Locals F → V → t.Val F → Except Exn (Bool × t.Val F)
  | .scalar s, _, root, obj => unmarshalScalar (s.is F) (s.as F) root obj
  | .vector t, L, root, obj =>
    unmarshalVector (fun i => t.unmarshal (L.inner i)) (fun i => L.tmp [] i t) root obj
  | .set t, L, root, obj | .unorderedSet t, L, root, obj =>
    unmarshalSet (fun i => t.unmarshal (L.inner i)) (fun i => L.tmp [] i t) root obj
  | .map k _ t, L, root, obj | .unorderedMap k t, L, root, obj =>
    unmarshalMap k.parse (fun i => t.unmarshal (L.inner i)) (L.fresh t) root obj
  | .struct fields, L, root, obj => fields.unmarshal L root obj true
def Fields.unmarshal :
    (fields : Fields) → Locals F → V → fields.Val F → Bool → Except Exn (Bool × fields.Val F)
  | .last name t, L, root, obj, ret => do
    let child ← J.member root name
    let (ok, x) ← t.unmarshal (L.inner 0) child obj
    .ok (ret && ok, x)
  | .cons name t rest, L, root, obj, ret => do
    let child ← J.member root name
    let (ok, x) ← t.unmarshal (L.inner 0) child obj.1
    let (ret, xs) ← rest.unmarshal (L.inner 1) root obj.2 (ret && ok)
    .ok (ret, (x, xs))
end

/-- `Unmarshal(const std::string&, T*)`, with what `Json::Reader` makes of a
text: a document, a failure, or an exception where the nesting is too deep. -/
def Ty.unmarshalText (t : Ty) (L : Locals F) (parse : Str → Except Exn (Option V)) (str : Str)
    (obj : t.Val F) : Except Exn (Bool × t.Val F) := do
  match ← parse str with
  | none => .ok (false, obj)
  | some root => t.unmarshal L root obj

-- ---------------------------------------------------------------------------
-- Pointers
-- ---------------------------------------------------------------------------

def isNullptr (root : V) : Except Exn Bool :=
  if J.isString root then (J.asString root).map fun s => decide (s = kNullptrJsonStr) else .ok false

/-- `Unmarshal` for pointers: a null pointer stays null, whatever the value. -/
def unmarshalPointer (u : V → α → Except Exn (Bool × α)) (root : V) (obj : Pointer α) :
    Except Exn (Bool × Pointer α) := do
  if ← isNullptr root then .ok (true, none)
  else match obj with
    | none => .ok (true, none)
    | some (addr, x) =>
      let (ok, x) ← u root x
      .ok (ok, some (addr, x))

def Pointee.unmarshal (L : Locals F) : (t : Pointee) → V → t.Val F → Except Exn (Bool × t.Val F)
  | .object t => t.unmarshal L
  | .ptr t => unmarshalPointer (t.unmarshal L)

end

end CppUtil.JsonHelper

import CppUtil.JsonHelper.JsonCpp
import Mathlib.Data.Finmap

/-!
# Types and values of `json_helper`

`Ty` are the types without pointers that `Marshal` and `Unmarshal` support,
nested to any depth, and `Ty.Val` their values. Sets and maps are values up to
the order of their elements, as `operator==` compares them. What the platform
decides is a parameter: the order in which a container is iterated (`Platform`)
and what objects hold before they are assigned (`Locals`).
-/

namespace CppUtil.JsonHelper

open Lang (Str Exn)

inductive Key
  | string
  | int32
  | uint32
  | int64
  | uint64
  deriving DecidableEq, Repr

def Key.Val : Key → Type
  | .string => Str
  | .int32 => Int32
  | .uint32 => UInt32
  | .int64 => Int64
  | .uint64 => UInt64

instance : (k : Key) → DecidableEq k.Val
  | .string => inferInstanceAs (DecidableEq Str)
  | .int32 => inferInstanceAs (DecidableEq Int32)
  | .uint32 => inferInstanceAs (DecidableEq UInt32)
  | .int64 => inferInstanceAs (DecidableEq Int64)
  | .uint64 => inferInstanceAs (DecidableEq UInt64)

inductive Scalar
  | bool
  | int32
  | int64
  | uint32
  | uint64
  | float
  | double
  | string
  /-- An enumeration whose underlying type has this many bits. -/
  | enum (signed : Bool) (width : Nat)

mutual
/-- `std::map<uint32_t, T>` is left out: its `Unmarshal` does not compile. -/
inductive Ty
  | scalar (s : Scalar)
  | vector (t : Ty)
  | set (t : Ty)
  | unorderedSet (t : Ty)
  | map (k : Key) (supported : k ≠ .uint32) (t : Ty)
  | unorderedMap (k : Key) (t : Ty)
  | struct (fields : Fields)
inductive Fields
  | last (name : Str) (t : Ty)
  | cons (name : Str) (t : Ty) (rest : Fields)
end

section
variable (F : Floats)

def Scalar.Val : Scalar → Type
  | .bool => Bool
  | .int32 => Int32
  | .int64 => Int64
  | .uint32 => UInt32
  | .uint64 => UInt64
  | .float => F.float
  | .double => F.double
  | .string => Str
  | .enum _ width => BitVec width

instance : (s : Scalar) → DecidableEq (s.Val F)
  | .bool => inferInstanceAs (DecidableEq Bool)
  | .int32 => inferInstanceAs (DecidableEq Int32)
  | .int64 => inferInstanceAs (DecidableEq Int64)
  | .uint32 => inferInstanceAs (DecidableEq UInt32)
  | .uint64 => inferInstanceAs (DecidableEq UInt64)
  | .float => F.floatEq
  | .double => F.doubleEq
  | .string => inferInstanceAs (DecidableEq Str)
  | .enum _ width => inferInstanceAs (DecidableEq (BitVec width))

mutual
def Ty.Val : Ty → Type
  | .scalar s => s.Val F
  | .vector t => List t.Val
  | .set t | .unorderedSet t => Finset t.Val
  | .map k _ t | .unorderedMap k t => Finmap fun _ : k.Val => t.Val
  | .struct fields => fields.Val
def Fields.Val : Fields → Type
  | .last _ t => t.Val
  | .cons _ t rest => t.Val × rest.Val
end

mutual
def Ty.decEq : (t : Ty) → DecidableEq (t.Val F)
  | .scalar s => inferInstanceAs (DecidableEq (s.Val F))
  | .vector t =>
    letI := t.decEq
    inferInstanceAs (DecidableEq (List (t.Val F)))
  | .set t | .unorderedSet t =>
    letI := t.decEq
    inferInstanceAs (DecidableEq (Finset (t.Val F)))
  | .map k _ t | .unorderedMap k t =>
    letI := t.decEq
    inferInstanceAs (DecidableEq (Finmap fun _ : k.Val => t.Val F))
  | .struct fields => fields.decEq
def Fields.decEq : (fields : Fields) → DecidableEq (fields.Val F)
  | .last _ t => t.decEq
  | .cons _ t rest =>
    letI := t.decEq
    letI := rest.decEq
    inferInstanceAs (DecidableEq (t.Val F × rest.Val F))
end

instance (t : Ty) : DecidableEq (t.Val F) := t.decEq F

end

-- ---------------------------------------------------------------------------
-- Properties of types
-- ---------------------------------------------------------------------------

def Fields.names : Fields → List Str
  | .last name _ => [name]
  | .cons name _ rest => name :: rest.names

mutual
def Ty.DistinctNames : Ty → Prop
  | .scalar _ => True
  | .vector t | .set t | .unorderedSet t | .map _ _ t | .unorderedMap _ t => t.DistinctNames
  | .struct fields => fields.names.Nodup ∧ fields.DistinctNames
def Fields.DistinctNames : Fields → Prop
  | .last _ t => t.DistinctNames
  | .cons _ t rest => t.DistinctNames ∧ rest.DistinctNames
end

mutual
def Ty.Has : Ty → Scalar → Prop
  | .scalar s, s' => s' = s
  | .vector t, s | .set t, s | .unorderedSet t, s | .map _ _ t, s | .unorderedMap _ t, s => t.Has s
  | .struct fields, s => fields.Has s
def Fields.Has : Fields → Scalar → Prop
  | .last _ t, s => t.Has s
  | .cons _ t rest, s => t.Has s ∨ rest.Has s
end

def Scalar.Plain : Scalar → Prop
  | .float | .double | .enum _ _ => False
  | _ => True

def Ty.Plain (t : Ty) : Prop := ∀ s, t.Has s → s.Plain

-- ---------------------------------------------------------------------------
-- Properties of values
-- ---------------------------------------------------------------------------

section
variable {F : Floats}

mutual
/-- At every depth `seq` holds of the size of every vector and set, `assoc` of the
size of every map and `scalar` of every scalar. -/
def Ty.Each (seq assoc : Nat → Prop) (scalar : (s : Scalar) → s.Val F → Prop) :
    (t : Ty) → t.Val F → Prop
  | .scalar s, v => scalar s v
  | .vector t, (v : List (t.Val F)) => seq v.length ∧ ∀ x ∈ v, t.Each seq assoc scalar x
  | .set t, (v : Finset (t.Val F)) | .unorderedSet t, (v : Finset (t.Val F)) =>
    seq v.card ∧ ∀ x ∈ v, t.Each seq assoc scalar x
  | .map _ _ t, (v : Finmap fun _ => t.Val F)
  | .unorderedMap _ t, (v : Finmap fun _ => t.Val F) =>
    assoc v.entries.card ∧ ∀ e ∈ v.entries, t.Each seq assoc scalar e.2
  | .struct fields, v => fields.Each seq assoc scalar v
def Fields.Each (seq assoc : Nat → Prop) (scalar : (s : Scalar) → s.Val F → Prop) :
    (fields : Fields) → fields.Val F → Prop
  | .last _ t, v => t.Each seq assoc scalar v
  | .cons _ t rest, v => t.Each seq assoc scalar v.1 ∧ rest.Each seq assoc scalar v.2
end

def Ty.NonEmpty (t : Ty) : t.Val F → Prop := t.Each (0 < ·) (0 < ·) fun _ _ => True

def Ty.Fits (t : Ty) : t.Val F → Prop := t.Each (· < 2 ^ 31) (fun _ => True) fun _ _ => True

/-- The bits of an enumeration value, read as a signed number, are in the range of
`int`. -/
def Scalar.EnumFits : (s : Scalar) → s.Val F → Prop
  | .enum _ _, (e : BitVec _) => -2 ^ 31 ≤ e.toInt ∧ e.toInt < 2 ^ 31
  | _, _ => True

def Ty.EnumsFit (t : Ty) : t.Val F → Prop :=
  t.Each (fun _ => True) (fun _ => True) Scalar.EnumFits

end

-- ---------------------------------------------------------------------------
-- Pointers
-- ---------------------------------------------------------------------------

/-- What a pointer can point to: an object without pointers in it, or another
pointer. -/
inductive Pointee
  | object (t : Ty)
  | ptr (t : Pointee)

/-- A pointer that is not null is given by the address of the object and by the
object itself. -/
abbrev Pointer (α : Type) := Option (Nat × α)

def Pointee.Val (F : Floats) : Pointee → Type
  | .object t => t.Val F
  | .ptr t => Pointer (t.Val F)

-- ---------------------------------------------------------------------------
-- What the platform decides
-- ---------------------------------------------------------------------------

structure Order where
  set : {α : Type} → Finset α → List α
  map : {κ α : Type} → (Finmap fun _ : κ => α) → List (Sigma fun _ : κ => α)
  set_coe : ∀ {α : Type} (s : Finset α), (set s : Multiset α) = s.val
  map_coe : ∀ {κ α : Type} (m : Finmap fun _ : κ => α), (map m : Multiset _) = m.entries

structure Platform where
  ordered : Order
  unordered : Order

/-- What objects hold before they are assigned. In a run of `Unmarshal` a nested call
has a path: the position of each call on the stack among those its caller makes.
`tmp path i` is the local declared as `T tmp;` for the element `i` of the array that
the call at `path` reads, and `fresh` an element that `(*obj)[key]` creates. -/
structure Locals (F : Floats) where
  tmp : (path : List Nat) → (i : Nat) → (t : Ty) → t.Val F
  fresh : (t : Ty) → t.Val F

/-- The locals as the `i`-th nested call sees them. -/
def Locals.inner (L : Locals F) (i : Nat) : Locals F := ⟨fun path => L.tmp (i :: path), L.fresh⟩

end CppUtil.JsonHelper

import CppUtil.JsonHelper.Types
import Mathlib.Data.List.Sort

/-!
# A small implementation of jsoncpp

`Tree` has the operations of `JsonCpp` and behaves as the library documents, so
the results about documented implementations are about something. As in the
library, the members of an object are sorted by name.
-/

namespace CppUtil.JsonHelper

open Lang (Str Exn)

/-- In an object the first entry of a name counts. -/
inductive Tree
  | null
  | int (n : Int)
  | bool (b : Bool)
  | string (s : Str)
  | array (elems : List Tree)
  | object (entries : List (Str × Tree))

namespace Tree

/-- The order of `strcmp`, by which the library sorts names. -/
def before : Str → Str → Bool
  | [], _ => true
  | _ :: _, [] => false
  | a :: s, b :: t => a.toNat < b.toNat || a == b && before s t

def members : List (Str × Tree) → List (Str × Tree)
  | [] => []
  | (name, x) :: rest =>
    List.orderedInsert (fun p q => before p.1 q.1) (name, x) ((members rest).filter (·.1 ≠ name))

def view : Tree → View Tree
  | .null => .null
  | .int n => .int n
  | .bool b => .bool b
  | .string s => .string s
  | .array l => .array l
  | .object m => .object (members m)

def elems? (v : Tree) : Except Exn (List Tree) :=
  match v.view.elems? with
  | some l => .ok l
  | none => .error .json

def members? (v : Tree) : Except Exn (List (Str × Tree)) :=
  match v.view.members? with
  | some m => .ok m
  | none => .error .json

def findMember (m : List (Str × Tree)) (name : Str) : Tree := (m.lookup name).getD .null

def asIntegral (lo hi : Int) (convert : Int → α) : Tree → Except Exn α
  | .int n => if lo ≤ n ∧ n < hi then .ok (convert n) else .error .json
  | _ => .error .json

instance : JsonCpp Tree where
  null := .null
  ofInt n := .int n.toInt
  ofInt64 n := .int n.toInt
  ofUInt n := .int n.toNat
  ofUInt64 n := .int n.toNat
  ofBool := .bool
  ofString := .string
  refElem v i := v.elems?.map fun l => l[i]?.getD .null
  setElem v i x := match v.elems? with
    | .ok l => if i < l.length then .array (l.set i x)
      else .array (l ++ List.replicate (i - l.length) .null ++ [x])
    | .error _ => v
  refMember v name := v.members?.map fun m => findMember m name
  setMember v name x := match v.members? with
    | .ok m => .object ((name, x) :: m)
    | .error _ => v
  append v x := v.elems?.map fun l => .array (l ++ [x])
  isBool | .bool _ => true | _ => false
  isIntegral | .int _ => true | _ => false
  isString | .string _ => true | _ => false
  isArray | .array _ => true | _ => false
  isObject | .object _ => true | _ => false
  asBool | .bool b => .ok b | _ => .error .json
  asInt := asIntegral (-2 ^ 31) (2 ^ 31) Int32.ofInt
  asInt64 := asIntegral (-2 ^ 63) (2 ^ 63) Int64.ofInt
  asUInt := asIntegral 0 (2 ^ 32) UInt32.ofInt
  asUInt64 := asIntegral 0 (2 ^ 64) UInt64.ofInt
  asString | .string s => .ok s | _ => .error .json
  size
    | .array l => .ofNat l.length
    | .object m => .ofNat (members m).length
    | _ => 0
  elem v i := v.elems?.map fun l => l[i]?.getD .null
  member v name := v.members?.map fun m => findMember m name
  getMemberNames v := v.members?.map fun m => m.map Prod.fst

theorem members_nodup (m : List (Str × Tree)) : ((members m).map Prod.fst).Nodup := by
  induction m with
  | nil => exact List.nodup_nil
  | cons e m ih =>
    rw [members, ((List.perm_orderedInsert _ _ _).map Prod.fst).nodup_iff, List.map_cons,
      List.nodup_cons]
    refine ⟨?_, ih.sublist (List.filter_sublist.map _)⟩
    intro hmem
    obtain ⟨p, hp, hname⟩ := List.mem_map.mp hmem
    simpa [hname] using (List.mem_filter.mp hp).2

theorem members_perm (h : (m.map Prod.fst).Nodup) : (members m).Perm m := by
  induction m with
  | nil => exact .refl _
  | cons e m ih =>
    obtain ⟨hfirst, hrest⟩ := List.nodup_cons.mp h
    have hother : ∀ p ∈ members m, decide (p.1 ≠ e.1) = true := by
      intro p hp
      rw [decide_eq_true_iff]
      rintro hname
      exact hfirst (hname ▸ List.mem_map_of_mem (f := Prod.fst) ((ih hrest).mem_iff.mp hp))
    rw [members, List.filter_eq_self.mpr hother]
    exact (List.perm_orderedInsert _ _ _).trans ((ih hrest).cons e)

theorem findMember_mem (hm : (m.map Prod.fst).Nodup) (h : (name, x) ∈ m) :
    findMember m name = x := by
  induction m with
  | nil => cases h
  | cons e m ih =>
    obtain ⟨hfirst, hrest⟩ := List.nodup_cons.mp hm
    rcases List.mem_cons.mp h with rfl | hmem
    · simp [findMember]
    · have hne : (name == e.1) = false := by
        refine beq_eq_false_iff_ne.mpr fun hname => hfirst ?_
        exact hname ▸ List.mem_map_of_mem (f := Prod.fst) hmem
      obtain ⟨key, y⟩ := e
      rw [findMember, List.lookup_cons, hne]
      exact ih hrest hmem

theorem findMember_new (h : name ∉ m.map Prod.fst) : findMember m name = .null := by
  have hnone : m.lookup name = none := by
    refine List.lookup_eq_none_iff.mpr fun p hp => bne_iff_ne.mpr ?_
    rintro rfl
    exact h (List.mem_map_of_mem hp)
  rw [findMember, hnone]
  rfl

theorem elems?_ok {v : Tree} (h : v.view.elems? = some l) : v.elems? = .ok l := by
  rw [elems?, h]

theorem members?_ok {v : Tree} (h : v.view.members? = some m) : v.members? = .ok m := by
  rw [members?, h]

theorem elems?_error {v : Tree} (h : v.view.elems? = none) : v.elems? = .error .json := by
  rw [elems?, h]

theorem members?_error {v : Tree} (h : v.view.members? = none) : v.members? = .error .json := by
  rw [members?, h]

theorem members?_nodup {v : Tree} (h : v.view.members? = some m) : (m.map Prod.fst).Nodup := by
  cases v with
  | null => cases h; exact List.nodup_nil
  | object entries => cases h; exact members_nodup entries
  | _ => cases h

theorem asIntegral_view {v : Tree} (convert : Int → α) (h : v.view = .int n) :
    asIntegral lo hi convert v = if lo ≤ n ∧ n < hi then .ok (convert n) else .error .json := by
  cases v with
  | int k => cases h; rfl
  | _ => cases h

def documented : Documented Tree where
  view := view
  view_null := rfl
  view_ofInt _ := rfl
  view_ofInt64 _ := rfl
  view_ofUInt _ := rfl
  view_ofUInt64 _ := rfl
  view_ofBool _ := rfl
  view_ofString _ := rfl
  isBool v := by cases v <;> simp [JsonCpp.isBool, view]
  isIntegral v n h := by cases v <;> first | rfl | cases h
  isString v := by cases v <;> simp [JsonCpp.isString, view]
  isArray v := by cases v <;> simp [JsonCpp.isArray, view]
  isObject v := by cases v <;> simp [JsonCpp.isObject, view]
  asBool v b h := by cases v <;> cases h; rfl
  asString v s h := by cases v <;> cases h; rfl
  asInt _ _ h := asIntegral_view _ h
  asInt64 _ _ h := asIntegral_view _ h
  asUInt _ _ h := asIntegral_view _ h
  asUInt64 _ _ h := asIntegral_view _ h
  refElem_new v l h _ := by simp [JsonCpp.refElem, JsonCpp.null, elems?_ok h, Except.map]
  setElem_new v l x h _ := by simp [JsonCpp.setElem, elems?_ok h, view]
  append v l x h _ := ⟨.array (l ++ [x]), by simp [JsonCpp.append, elems?_ok h, Except.map], rfl⟩
  size v l h hl := by
    cases v <;> cases h
    exact Nat.mod_eq_of_lt hl
  elem v l i x h hi := by
    have hl : v.view.elems? = some l := by rw [h]; rfl
    simp [JsonCpp.elem, elems?_ok hl, Except.map, hi]
  nodup v m h := members?_nodup (by rw [h]; rfl)
  refMember_new v m k h hk := by
    simp [JsonCpp.refMember, JsonCpp.null, members?_ok h, Except.map, findMember_new hk]
  setMember_new v m k x h hk := by
    have hnodup : (((k, x) :: m).map Prod.fst).Nodup :=
      List.nodup_cons.mpr ⟨hk, members?_nodup h⟩
    refine ⟨members ((k, x) :: m), ?_, members_perm hnodup⟩
    simp only [JsonCpp.setMember, members?_ok h, view]
  member v m k x h hmem := by
    have hm : v.view.members? = some m := by rw [h]; rfl
    simp [JsonCpp.member, members?_ok hm, Except.map, findMember_mem (members?_nodup hm) hmem]
  getMemberNames v m h := by
    have hm : v.view.members? = some m := by rw [h]; rfl
    simp [JsonCpp.getMemberNames, members?_ok hm, Except.map]

def floats : Floats := ⟨Int, Int, inferInstance, inferInstance⟩

instance : JsonDoubles Tree floats where
  ofFloat := .int
  ofDouble := .int
  isDouble | .int _ => true | _ => false
  asFloat | .int n => .ok n | _ => .error .json
  asDouble | .int n => .ok n | _ => .error .json

def documentedDoubles : DocumentedDoubles Tree floats where
  toDocumented := documented
  integral v h := by
    cases v with
    | int n => exact ⟨n, rfl⟩
    | _ => cases h
  isDouble v := by cases v <;> simp [JsonDoubles.isDouble, documented, view]
  asFloat v h := by
    cases v with
    | int n => exact ⟨n, rfl⟩
    | _ => cases h
  asDouble v h := by
    cases v with
    | int n => exact ⟨n, rfl⟩
    | _ => cases h
  size_ofNat v l h := by cases v <;> cases h; rfl
  member_missing v m k h hk := by
    simp [JsonCpp.member, JsonCpp.null, members?_ok h, Except.map, findMember_new hk]
  member_throws v k h := ⟨.json, by
    simp [JsonCpp.member, members?_error (show v.view.members? = none from h), Except.map]⟩
  isDouble_ofFloat _ := rfl
  isDouble_ofDouble _ := rfl
  asFloat_ofFloat _ := rfl
  asDouble_ofDouble _ := rfl

def documentedReads : DocumentedReads Tree floats := documentedDoubles.toDocumentedReads

def documentedWrites : DocumentedWrites Tree where
  toDocumented := documented
  refElem_throws v i h := ⟨.json, by simp [JsonCpp.refElem, elems?_error h, Except.map]⟩
  append_throws v x h := ⟨.json, by simp [JsonCpp.append, elems?_error h, Except.map]⟩
  refMember_throws v k h := ⟨.json, by simp [JsonCpp.refMember, members?_error h, Except.map]⟩

end Tree

-- ---------------------------------------------------------------------------
-- A platform
-- ---------------------------------------------------------------------------

def Scalar.zero : (s : Scalar) → s.Val Tree.floats
  | .bool => false
  | .int32 => (0 : Int32)
  | .int64 => (0 : Int64)
  | .uint32 => (0 : UInt32)
  | .uint64 => (0 : UInt64)
  | .float | .double => (0 : Int)
  | .string => ([] : Str)
  | .enum _ width => (0 : BitVec width)

mutual
def Ty.zero : (t : Ty) → t.Val Tree.floats
  | .scalar s => s.zero
  | .vector t => ([] : List (t.Val Tree.floats))
  | .set t | .unorderedSet t => (∅ : Finset (t.Val Tree.floats))
  | .map k _ t | .unorderedMap k t => (∅ : Finmap fun _ : k.Val => t.Val Tree.floats)
  | .struct fields => fields.zero
def Fields.zero : (fields : Fields) → fields.Val Tree.floats
  | .last _ t => t.zero
  | .cons _ t rest => (t.zero, rest.zero)
end

def Locals.zeroed : Locals Tree.floats := ⟨fun _ _ => Ty.zero, Ty.zero⟩

noncomputable def Order.some : Order where
  set s := s.toList
  map m := m.entries.toList
  set_coe s := s.coe_toList
  map_coe m := m.entries.coe_toList

noncomputable def Platform.some : Platform := ⟨.some, .some⟩

end CppUtil.JsonHelper

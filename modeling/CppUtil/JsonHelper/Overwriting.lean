import CppUtil.JsonHelper.MarshalLaws
import CppUtil.JsonHelper.Tree

/-!
# Marshalling into a root that is not null

A scalar is assigned, so the root's previous content does not matter. Everything
else only writes elements and members into the root, and fails on a root of
another kind; what it does not write to stays. `marshal_independent_iff` says
that only scalars are written independently of what was there.
-/

namespace CppUtil.JsonHelper

open Lang (Str Exn)

section
variable {V : Type} [J : JsonCpp V] (D : DocumentedWrites V)

/-- Called on `root`, `w` throws, or it writes nothing into any root. -/
def ThrowsOrLeaves (w : V → Except Exn (Bool × V)) (root : V) : Prop :=
  (∃ e, w root = .error e) ∨ ∃ flag, ∀ root', w root' = .ok (flag, root')

section
variable {m : α → V → Except Exn (Bool × V)} {root : V} (hroot : D.view root = .string str)
include hroot

theorem marshalVector_throwsOrLeaves (obj : List α) :
    ThrowsOrLeaves (marshalVector m obj) root := by
  unfold marshalVector
  cases obj.take (intRounds obj.length) with
  | nil => exact .inr ⟨true, fun _ => rfl⟩
  | cons x xs =>
    obtain ⟨e, he⟩ := D.refElem_throws root 0 (by rw [hroot]; rfl)
    exact .inl ⟨e, by simp only [marshalElems, he]; rfl⟩

theorem marshalSet_throwsOrLeaves (obj : List α) (ret : Bool) :
    ThrowsOrLeaves (marshalSet m obj ret) root := by
  induction obj generalizing ret with
  | nil => exact .inr ⟨ret, fun _ => rfl⟩
  | cons x xs ih =>
    cases hx : m x J.null with
    | error e => exact .inl ⟨e, by simp only [marshalSet, hx]; rfl⟩
    | ok r =>
      obtain ⟨ok, elem⟩ := r
      cases ok with
      | false =>
        have hnext : marshalSet m (x :: xs) ret = marshalSet m xs false := by
          funext root'
          simp only [marshalSet, hx, ok_bind, Bool.false_eq_true, if_false]
        rw [hnext]
        exact ih false
      | true =>
        obtain ⟨e, he⟩ := D.append_throws root elem (by rw [hroot]; rfl)
        exact .inl ⟨e, by simp only [marshalSet, hx, ok_bind, if_true, he]; rfl⟩

theorem marshalMap_throwsOrLeaves (obj : List (Str × α)) (ret : Bool) :
    ThrowsOrLeaves (marshalMap m obj ret) root := by
  cases obj with
  | nil => exact .inr ⟨ret, fun _ => rfl⟩
  | cons p rest =>
    obtain ⟨e, he⟩ := D.refMember_throws root p.1 (by rw [hroot]; rfl)
    exact .inl ⟨e, by simp only [marshalMap, he]; rfl⟩

theorem Fields.marshal_throws {F : Floats} [JsonDoubles V F] (P : Platform) (fields : Fields)
    (v : fields.Val F) (ret : Bool) : ∃ e, fields.marshal P v ret root = .error e := by
  cases fields with
  | last name t =>
    obtain ⟨e, he⟩ := D.refMember_throws root name (by rw [hroot]; rfl)
    exact ⟨e, by simp only [Fields.marshal, he]; rfl⟩
  | cons name t rest =>
    obtain ⟨e, he⟩ := D.refMember_throws root name (by rw [hroot]; rfl)
    exact ⟨e, by simp only [Fields.marshal, he]; rfl⟩

end

def Ty.IsScalar : Ty → Prop
  | .scalar _ => True
  | _ => False

variable {F : Floats} [JsonDoubles V F]

theorem Ty.marshal_throwsOrLeaves (P : Platform) (t : Ty) (ht : ¬t.IsScalar)
    (v : t.Val F) (hroot : D.view root = .string str) :
    ThrowsOrLeaves (t.marshal P v) root := by
  cases t with
  | scalar s => exact absurd trivial ht
  | vector t => exact marshalVector_throwsOrLeaves D hroot v
  | set t => exact marshalSet_throwsOrLeaves D hroot _ _
  | unorderedSet t => exact marshalSet_throwsOrLeaves D hroot _ _
  | map k hk t => exact marshalMap_throwsOrLeaves D hroot _ _
  | unorderedMap k t => exact marshalMap_throwsOrLeaves D hroot _ _
  | struct fields => exact .inl (fields.marshal_throws D hroot P v true)

/-- The values a root can have: null, and what calls of `Marshal` have made of it. -/
inductive Written (F : Floats) [JsonDoubles V F] (P : Platform) : V → Prop
  | null : Written F P J.null
  | marshal (t : Ty) (v : t.Val F) (h : Written F P root)
      (hrun : t.marshal P v root = .ok (ret, root')) : Written F P root'

include D in
/-- A value that can be marshalled into a null root is marshalled alike into every
root if and only if its type is a scalar. -/
theorem marshal_independent_iff (P : Platform) (t : Ty) (v : t.Val F)
    (hnull : t.marshal P v J.null = .ok r) :
    (∀ a b : V, Written F P a → Written F P b → t.marshal P v a = t.marshal P v b) ↔
      t.IsScalar := by
  constructor
  · intro hsame
    by_contra ht
    -- a string is what marshalling a string into a null root leaves
    have hstring : Written F P (J.ofString []) :=
      .marshal (.scalar .string) ([] : Str) .null rfl
    have hview := D.view_ofString []
    have heq := hsame _ _ .null hstring
    rcases t.marshal_throwsOrLeaves D P ht v hview with ⟨e, he⟩ | ⟨flag, hleaves⟩
    · rw [hnull, he] at heq
      cases heq
    · rw [hleaves, hleaves] at heq
      have hviews := congrArg D.view (Prod.mk.inj (Except.ok.inj heq)).2
      rw [D.view_null, hview] at hviews
      cases hviews
  · intro ht a b _ _
    cases t with
    | scalar s => rfl
    | _ => exact absurd ht id

end

theorem marshal_independent_flag :
    let flag := Ty.marshal (F := Tree.floats) .some (.scalar .bool) true
    flag Tree.null = .ok (true, .bool true) ∧
      flag (Tree.string "old".toList) = .ok (true, .bool true) := by
  intro flag
  have hnull : flag Tree.null = .ok (true, .bool true) := rfl
  have hstring : Written Tree.floats .some (Tree.string "old".toList) :=
    .marshal (.scalar .string) "old".toList .null rfl
  refine ⟨hnull, ?_⟩
  rw [← hnull]
  exact (marshal_independent_iff Tree.documentedWrites .some (.scalar .bool) true hnull).mpr
    trivial _ _ hstring .null

/-- A vector leaves the rest of a longer one in place, a set that is marshalled
twice has its elements twice, and a struct cannot be written over a string. -/
theorem marshal_keeps_old_content :
    let flags (v : List Bool) (root : Tree) :=
      Ty.marshal (F := Tree.floats) .some (.vector (.scalar .bool)) v root
    let seen (v : Finset Bool) (root : Tree) :=
      Ty.marshal (F := Tree.floats) .some (.set (.scalar .bool)) v root
    let person (name : Str) (root : Tree) := Ty.marshal (F := Tree.floats) .some
      (.struct (.last "name".toList (.scalar .string))) name root
    (flags [false, false] .null = .ok (true, .array [.bool false, .bool false]) ∧
      flags [true] .null = .ok (true, .array [.bool true]) ∧
      flags [true] (.array [.bool false, .bool false]) =
        .ok (true, .array [.bool true, .bool false])) ∧
    (seen {true} .null = .ok (true, .array [.bool true]) ∧
      seen {true} (.array [.bool true]) = .ok (true, .array [.bool true, .bool true])) ∧
    person "x".toList (.string []) = .error .json := by
  intro flags seen person
  have hseen (root : Tree) : seen {true} root =
      marshalSet (fun b _ => .ok (true, Tree.bool b)) [true] true root :=
    congrArg (marshalSet _ · true root) (Finset.toList_singleton true)
  refine ⟨⟨rfl, rfl, rfl⟩, ⟨?_, ?_⟩, rfl⟩
  · rw [hseen]
    rfl
  · rw [hseen]
    rfl

end CppUtil.JsonHelper

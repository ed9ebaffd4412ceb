import CppUtil.JsonHelper.Conformance
import CppUtil.JsonHelper.RoundTrip

/-!
# Reading back enumerations and pointers

An enumeration is written as an `int`, so of a larger underlying type only the
low 32 bits come back (`enum_round_trip_iff`).

A null pointer is written as a string, and read wherever this string stands. An
object that is the string itself, or a null pointer, is mistaken for it; behind
a pointer to a null pointer nothing is read at all (`pointer_round_trip_iff`).
-/

namespace CppUtil.JsonHelper

open Lang (Str Exn)

-- ---------------------------------------------------------------------------
-- Enumerations
-- ---------------------------------------------------------------------------

/-- `Unmarshal` of a marshalled enumeration value never throws and returns true; it
gives the value back if and only if its bits, read as a signed number, are in the
range of `int`. -/
theorem enum_round_trip_iff {V : Type} [J : JsonCpp V] {F : Floats} [JsonDoubles V F]
    (P : Platform) (L : Locals F) (D : Documented V) (signed : Bool) (e : BitVec width) :
    (∃ root : V, (Ty.scalar (.enum signed width)).marshal (F := F) P e J.null = .ok (true, root) ∧
      ∀ w, (Ty.scalar (.enum signed width)).unmarshal L root w =
        .ok (true, (castInt signed e).toBitVec.signExtend width)) ∧
    ((Ty.scalar (.enum signed width)).RoundTrips V P L e ↔
      -2 ^ 31 ≤ e.toInt ∧ e.toInt < 2 ^ 31) := by
  constructor
  · refine ⟨_, rfl, fun w => unmarshalScalar_ok_iff.mpr (.inl ⟨?_, ?_, rfl⟩)⟩
    · exact D.isIntegral _ _ (D.view_ofInt (castInt signed e))
    · exact map_ok.mpr ⟨_, asInt_ofInt D _, rfl⟩
  · have hcomes (s) (hs : (Ty.scalar (.enum signed width)).Has s) : s.Comes V F := by
      obtain rfl : s = .enum signed width := hs
      exact Scalar.comes_of_documented D nofun nofun
    have htrip := Ty.roundTrips_iff P L D hcomes trivial e
    exact ⟨fun h => (htrip.mp h).2.2, fun h => htrip.mpr ⟨trivial, trivial, h⟩⟩

/-- The value `2^32` of an enumeration over `uint64_t` comes back as `0`. -/
theorem enum_round_trip_fails :
    let e := BitVec.ofNat 64 (2 ^ 32)
    let enum := Ty.scalar (.enum false 64)
    enum.marshal (F := Tree.floats) .some e Tree.null = .ok (true, Tree.int 0) ∧
      enum.unmarshal .zeroed (Tree.int 0) e = .ok (true, BitVec.ofNat 64 0) ∧
      ¬enum.RoundTrips Tree .some .zeroed e := by
  intro e enum
  have hcast : (castInt false e).toInt = 0 := by decide
  have hrun : enum.marshal (F := Tree.floats) .some e Tree.null = .ok (true, Tree.int 0) :=
    congrArg (fun n => Except.ok (true, Tree.int n)) hcast
  have hread : enum.unmarshal .zeroed (Tree.int 0) e = .ok (true, BitVec.ofNat 64 0) := rfl
  refine ⟨hrun, hread, ?_⟩
  rintro ⟨root, hrun', hback⟩
  cases hrun.symm.trans hrun'
  exact absurd (congrArg Prod.snd (Except.ok.inj (hread.symm.trans (hback e)))) (by decide)

-- ---------------------------------------------------------------------------
-- Pointers
-- ---------------------------------------------------------------------------

def Pointee.DistinctNames : Pointee → Prop
  | .object t => t.DistinctNames
  | .ptr t => t.DistinctNames

section
variable {V : Type} [J : JsonCpp V] {F : Floats} [N : JsonDoubles V F]
  (P : Platform) (L : Locals F)

def Pointee.Same : (t : Pointee) → t.Val F → t.Val F → Prop
  | .object _, x, y => x = y
  | .ptr t, p, q => Option.Rel (fun a b => t.Same a.2 b.2) p q

/-- Marshalled into a null root and unmarshalled into a pointer `q` to any object,
`p` comes back: `q` becomes null if `p` is, and else points where it pointed
before, to an object that has become the same as that of `p`. -/
def Pointee.RoundTrips (V : Type) [J : JsonCpp V] [JsonDoubles V F] (t : Pointee)
    (p : Pointer (t.Val F)) : Prop :=
  ∃ root : V, (Pointee.ptr t).marshal P p J.null = .ok (true, root) ∧
    ∀ addr w, ∃ q, (Pointee.ptr t).unmarshal L root (some (addr, w)) = .ok (true, q) ∧
      Option.Rel (fun b a => b.1 = addr ∧ t.Same b.2 a.2) q p

def Ty.IsNullptrText : (t : Ty) → t.Val F → Prop
  | .scalar .string, (v : Str) => v = kNullptrJsonStr
  | _, _ => False

/-- What a pointer can point to and come back. -/
def Pointee.Kept : (t : Pointee) → t.Val F → Prop
  | .object t, v => t.NonEmpty v ∧ t.Fits v ∧ t.EnumsFit v ∧ ¬t.IsNullptrText v
  | .ptr _, _ => False

theorem isNullptr_string (D : Documented V) (h : D.view root = .string str) :
    isNullptr root = .ok (decide (str = kNullptrJsonStr)) := by
  rw [isNullptr, if_pos ((D.isString root).mpr ⟨str, h⟩), D.asString root str h]
  rfl

theorem isNullptr_other (D : Documented V) (h : ∀ str, D.view root ≠ .string str) :
    isNullptr root = .ok false := by
  refine if_neg fun hstring => ?_
  obtain ⟨str, hstr⟩ := (D.isString root).mp hstring
  exact h str hstr

section
variable {u : V → α → Except Exn (Bool × α)}

theorem unmarshalPointer_null (h : isNullptr root = .ok true) (obj : Pointer α) :
    unmarshalPointer u root obj = .ok (true, none) := by
  simp only [unmarshalPointer, h, ok_bind, if_true]

theorem unmarshalPointer_iff : unmarshalPointer u root (some (addr, w)) = .ok (true, q) ↔
    isNullptr root = .ok true ∧ q = none ∨
      isNullptr root = .ok false ∧ ∃ x, u root w = .ok (true, x) ∧ q = some (addr, x) := by
  cases hnull : isNullptr root with
  | error e => simp [unmarshalPointer, hnull, bind, Except.bind]
  | ok b =>
    cases b with
    | true => simp [unmarshalPointer_null hnull, eq_comm]
    | false =>
      simp only [unmarshalPointer, hnull, ok_bind, Bool.false_eq_true, if_false, bind_ok]
      constructor
      · rintro ⟨⟨ok, x⟩, hx, hout⟩
        cases hout
        exact .inr ⟨trivial, x, hx, rfl⟩
      · rintro (⟨hfalse, -⟩ | ⟨-, x, hx, rfl⟩)
        · cases hfalse
        · exact ⟨(true, x), hx, rfl⟩

end

theorem Ty.conforms_string (D : DocumentedReads V F) {t : Ty} (hview : D.view v = .string str)
    (h : t.Conforms D visited v) : t = .scalar .string := by
  cases t with
  | scalar s =>
    cases s with
    | string => rfl
    | bool => simpa [hview] using (D.isBool _).mp h
    | float | double => simpa [hview] using (D.isDouble _).mp h
    | int32 | int64 | uint32 | uint64 | enum => simpa [hview] using D.integral _ h
  | _ => simp [Ty.Conforms, hview] at h

theorem isNullptr_marshalled (D : DocumentedReads V F) {t : Ty} {v w : t.Val F}
    (hrun : t.marshal P v J.null = .ok (true, root))
    (hread : t.unmarshal L root w = .ok (true, v)) (htext : ¬t.IsNullptrText v) :
    isNullptr root = .ok false := by
  cases hview : D.view root with
  | string str =>
    have hflag := (t.unmarshal_meets D (Q := fun _ _ _ => True) (fun _ _ _ _ => trivial) L root w _
      hread).flag
    have hstring := Ty.conforms_string D hview (hflag.mp rfl)
    cases t with
    | scalar s =>
      cases hstring
      cases hrun
      cases (D.view_ofString v).symm.trans hview
      rw [isNullptr_string D.toDocumented hview]
      exact congrArg _ (decide_eq_false htext)
    | _ => cases hstring
  | _ => exact isNullptr_other D.toDocumented (by simp [hview])

theorem isNullptr_text (D : Documented V) : isNullptr (J.ofString kNullptrJsonStr) = .ok true :=
  isNullptr_string D (D.view_ofString _)

theorem isNullptr_of_text (D : Documented V) {t : Ty} {v : t.Val F}
    (hrun : t.marshal P v J.null = .ok (true, root)) (htext : t.IsNullptrText v) :
    isNullptr root = .ok true := by
  cases t with
  | scalar s =>
    cases s with
    | string =>
      obtain rfl : v = kNullptrJsonStr := htext
      cases hrun
      exact isNullptr_text D
    | _ => exact absurd htext id
  | _ => exact absurd htext id

theorem Pointee.object_roundTrips_iff (D : DocumentedDoubles V F) {t : Ty}
    (hnames : t.DistinctNames) {v : t.Val F} :
    (Pointee.object t).RoundTrips P L V (some (addr, v)) ↔ (Pointee.object t).Kept v := by
  have htrip := Ty.roundTrips_iff P L D.toDocumented (fun s _ => s.comes D) hnames v
  constructor
  · rintro ⟨root, hrun, hback⟩
    have hread (w) : isNullptr root = .ok false ∧ t.unmarshal L root w = .ok (true, v) := by
      obtain ⟨q, hq, hrel⟩ := hback 0 w
      rcases unmarshalPointer_iff.mp hq with ⟨-, rfl⟩ | ⟨hnot, x, hx, rfl⟩
      · cases hrel
      · cases hrel with
        | some hsame =>
          obtain rfl : x = v := hsame.2
          exact ⟨hnot, hx⟩
    obtain ⟨hne, hfits, henums⟩ := htrip.mp ⟨root, hrun, fun w => (hread w).2⟩
    refine ⟨hne, hfits, henums, fun htext => ?_⟩
    cases (isNullptr_of_text P D.toDocumented hrun htext).symm.trans (hread v).1
  · rintro ⟨hne, hfits, henums, htext⟩
    obtain ⟨root, hrun, hread⟩ := htrip.mpr ⟨hne, hfits, henums⟩
    have hnot := isNullptr_marshalled P L D.toDocumentedReads hrun (hread v) htext
    refine ⟨root, hrun, fun addr w => ⟨some (addr, v), ?_, .some ⟨rfl, rfl⟩⟩⟩
    exact unmarshalPointer_iff.mpr (.inr ⟨hnot, v, hread w, rfl⟩)

theorem Pointee.ptr_not_roundTrips (D : Documented V) {t : Pointee} {v : Pointer (t.Val F)} :
    ¬(Pointee.ptr t).RoundTrips P L V (some (addr, v)) := by
  rintro ⟨root, hrun, hback⟩
  obtain ⟨q, hq, hrel⟩ := hback 0 none
  rcases unmarshalPointer_iff.mp hq with ⟨-, rfl⟩ | ⟨hnot, x, hx, rfl⟩
  · cases hrel
  · cases hrel with
    | some hsame =>
      have hnone : unmarshalPointer (t.unmarshal L) root none = .ok (true, none) := by
        simp only [unmarshalPointer, hnot, ok_bind, Bool.false_eq_true, if_false]
      cases hnone.symm.trans hx
      cases v with
      | none =>
        cases hrun
        cases (isNullptr_text D).symm.trans hnot
      | some b => cases hsame.2

end

end CppUtil.JsonHelper

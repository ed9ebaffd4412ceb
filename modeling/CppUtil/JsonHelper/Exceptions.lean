import CppUtil.JsonHelper.Tree
import CppUtil.JsonHelper.UnmarshalLaws

/-!
# When `Unmarshal` throws

The tests before a conversion do not imply that it succeeds: `isIntegral` says
nothing about the range, the names of an object's members are not tested to be
numbers, and the macro for structs reads members of any value. `Ty.Safe` is
what a document has to satisfy, and `unmarshal_returns_iff` says that it is
exact. What the reader throws on a text comes on top of it.
-/

namespace CppUtil.JsonHelper

open Lang (Str Exn)

def Scalar.InRange : Scalar → Int → Prop
  | .int32, n | .enum _ _, n => -2 ^ 31 ≤ n ∧ n < 2 ^ 31
  | .int64, n => -2 ^ 63 ≤ n ∧ n < 2 ^ 63
  | .uint32, n => 0 ≤ n ∧ n < 2 ^ 32
  | .uint64, n => 0 ≤ n ∧ n < 2 ^ 64
  | .bool, _ | .float, _ | .double, _ | .string, _ => True

variable {V : Type} [J : JsonCpp V] {F : Floats} [N : JsonDoubles V F]
variable (D : DocumentedReads V F)

mutual
/-- Integers are in range, the names in a map with integer keys are integers in
range, and where a struct is read there is an object or null. Of an array only
the elements that are visited matter. -/
def Ty.Safe : Ty → V → Prop
  | .scalar s, v => ∀ n, D.view v = .int n → s.InRange n
  | .vector t, v | .set t, v | .unorderedSet t, v =>
    ∀ l, D.view v = .array l → ∀ c ∈ visited l, t.Safe c
  | .map k _ t, v | .unorderedMap k t, v =>
    ∀ m, D.view v = .object m → ∀ q ∈ m, (∃ key, k.parse q.1 = .ok key) ∧ t.Safe q.2
  | .struct fields, v => ∃ m, (D.view v).members? = some m ∧ fields.Safe m
def Fields.Safe : Fields → List (Str × V) → Prop
  | .last name t, m => ∀ c, (name, c) ∈ m → t.Safe c
  | .cons name t rest, m => (∀ c, (name, c) ∈ m → t.Safe c) ∧ rest.Safe m
end

-- ---------------------------------------------------------------------------
-- Scalars
-- ---------------------------------------------------------------------------

theorem ite_ok_iff [Decidable p] {x : α} {e : ε} :
    (∃ y, (if p then Except.ok x else .error e) = .ok y) ↔ p := by
  split <;> simp [*]

theorem bind_returns {x : Except ε α} {f : α → Except ε β} :
    (∃ b, x >>= f = .ok b) ↔ ∃ a, x = .ok a ∧ ∃ b, f a = .ok b := by
  simp only [bind_ok]
  constructor
  · rintro ⟨b, a, ha, hb⟩
    exact ⟨a, ha, b, hb⟩
  · rintro ⟨a, ha, b, hb⟩
    exact ⟨b, a, ha, hb⟩

theorem integral_returns {as : V → Except Exn α} {p : Int → Prop}
    (h : ∀ v n, D.view v = .int n → ((∃ x, as v = .ok x) ↔ p n)) (v : V) :
    (J.isIntegral v = true → ∃ x, as v = .ok x) ↔ ∀ n, D.view v = .int n → p n := by
  constructor
  · intro hv n hn
    exact (h v n hn).mp (hv (D.isIntegral v n hn))
  · intro hp hv
    obtain ⟨n, hn⟩ := D.integral v hv
    exact (h v n hn).mpr (hp n hn)

theorem Scalar.returns_iff (s : Scalar) (v : V) :
    (s.is F v = true → ∃ x, s.as F v = .ok x) ↔ ∀ n, D.view v = .int n → s.InRange n := by
  cases s with
  | int32 =>
    exact integral_returns D (fun v n hn => by rw [Scalar.as, D.asInt v n hn]; exact ite_ok_iff) v
  | int64 =>
    exact integral_returns D (fun v n hn => by rw [Scalar.as, D.asInt64 v n hn]; exact ite_ok_iff) v
  | uint32 =>
    exact integral_returns D (fun v n hn => by rw [Scalar.as, D.asUInt v n hn]; exact ite_ok_iff) v
  | uint64 =>
    exact integral_returns D (fun v n hn => by rw [Scalar.as, D.asUInt64 v n hn]; exact ite_ok_iff) v
  | enum signed width =>
    refine integral_returns D (fun v n hn => ?_) v
    simp only [Scalar.as, D.asInt v n hn]
    by_cases h : -2 ^ 31 ≤ n ∧ n < 2 ^ 31
    · rw [if_pos h]
      exact ⟨fun _ => h, fun _ => ⟨_, rfl⟩⟩
    · rw [if_neg h]
      refine ⟨fun ⟨_, hx⟩ => ?_, fun hr => absurd hr h⟩
      cases hx
  | bool =>
    refine ⟨fun _ _ _ => trivial, fun _ h => ?_⟩
    obtain ⟨b, hb⟩ := (D.isBool v).mp h
    exact ⟨b, D.asBool v b hb⟩
  | string =>
    refine ⟨fun _ _ _ => trivial, fun _ h => ?_⟩
    obtain ⟨str, hs⟩ := (D.isString v).mp h
    exact ⟨str, D.asString v str hs⟩
  | float => exact ⟨fun _ _ _ => trivial, fun _ h => D.asFloat v h⟩
  | double => exact ⟨fun _ _ _ => trivial, fun _ h => D.asDouble v h⟩

-- ---------------------------------------------------------------------------
-- Structs
-- ---------------------------------------------------------------------------

theorem member_cases (h : (D.view v).members? = some m) (name : Str) :
    (∃ c, (name, c) ∈ m ∧ J.member v name = .ok c ∧ ∀ c', (name, c') ∈ m → c' = c) ∨
      (∀ c, (name, c) ∉ m) ∧ J.member v name = .ok J.null := by
  by_cases hname : name ∈ m.map Prod.fst
  · obtain ⟨⟨name, c⟩, hc, rfl⟩ := List.mem_map.mp hname
    have hview : D.view v = .object m := View.members?_object h (List.ne_nil_of_mem hc)
    refine .inl ⟨c, hc, D.member v m name c hview hc, fun c' hc' => ?_⟩
    have hmember := D.member v m name c' hview hc'
    rw [D.member v m name c hview hc] at hmember
    exact (Except.ok.inj hmember).symm
  · exact .inr ⟨fun c hc => hname (List.mem_map_of_mem hc), D.member_missing v m name h hname⟩

mutual
theorem Ty.safe_null : (t : Ty) → t.Safe D J.null
  | .scalar s => by simp [Ty.Safe, D.view_null]
  | .vector t | .set t | .unorderedSet t | .map _ _ t | .unorderedMap _ t => by
    simp [Ty.Safe, D.view_null]
  | .struct fields => ⟨[], by rw [D.view_null]; rfl, fields.safe_nil⟩
theorem Fields.safe_nil : (fields : Fields) → fields.Safe D []
  | .last _ _ => by simp [Fields.Safe]
  | .cons _ _ rest => ⟨by simp, rest.safe_nil⟩
end

/-- Reading a field, and then what comes after it, returns exactly if its member
is safe and the rest returns. -/
theorem field_returns {t : Ty} {f : V → Except Exn β} (h : (D.view v).members? = some m)
    (hf : ∀ c, (∃ r, f c = .ok r) ↔ t.Safe D c ∧ rest) (name : Str) :
    (∃ r, (J.member v name >>= f) = .ok r) ↔ (∀ c, (name, c) ∈ m → t.Safe D c) ∧ rest := by
  rcases member_cases D h name with ⟨c, hc, hmember, hunique⟩ | ⟨hnone, hmember⟩
  · rw [hmember, ok_bind, hf]
    exact and_congr_left fun _ => ⟨fun hs c' hc' => hunique c' hc' ▸ hs, fun hs => hs c hc⟩
  · rw [hmember, ok_bind, hf]
    exact and_congr_left fun _ => ⟨fun _ c hc => absurd hc (hnone c), fun _ => t.safe_null D⟩

theorem Fields.throws {L : Locals F} {fields : Fields} {obj : fields.Val F}
    (h : (D.view v).members? = none) : ¬ ∃ r, fields.unmarshal L v obj ret = .ok r := by
  rintro ⟨r, hr⟩
  cases fields with
  | last name t =>
    obtain ⟨e, he⟩ := D.member_throws v name h
    simp only [Fields.unmarshal, he] at hr
    cases hr
  | cons name t rest =>
    obtain ⟨e, he⟩ := D.member_throws v name h
    simp only [Fields.unmarshal, he] at hr
    cases hr

-- ---------------------------------------------------------------------------
-- Arrays and maps
-- ---------------------------------------------------------------------------

theorem rounds_size (v : V) (l : List V) (h : D.view v = .array l) :
    intRounds (J.size v).toNat = intRounds l.length := by
  rw [D.size_ofNat v l h, intRounds_ofNat]

section
variable {u : Nat → V → α → Except Exn (Bool × α)} {S : V → Prop}
  (hu : ∀ i c w, (∃ r, u i c w = .ok r) ↔ S c)
include hu

theorem unmarshalArray_returns (tmp : Nat → α) (add : β → α → β) (start obj : β) :
    (∃ r, unmarshalArray u tmp add start v obj = .ok r) ↔
      ∀ l, D.view v = .array l → ∀ c ∈ visited l, S c := by
  have hsize := rounds_size D v
  constructor
  · rintro ⟨⟨ret, out⟩, h⟩ l hl
    obtain ⟨l', rs, hl', hrs, -⟩ | ⟨hnot, -⟩ := (unmarshalArray_ok_iff D.toDocumented hsize).mp h
    · cases hl.symm.trans hl'
      exact (ElemReads.exists_iff hu).mp ⟨rs, hrs⟩
    · exact absurd hl (hnot l)
  · intro h
    by_cases harray : ∃ l, D.view v = .array l
    · obtain ⟨l, hl⟩ := harray
      obtain ⟨rs, hrs⟩ := (ElemReads.exists_iff hu).mpr (h l hl)
      exact ⟨(_, _), (unmarshalArray_ok_iff D.toDocumented hsize).mpr
        (.inl ⟨l, rs, hl, hrs, rfl, rfl⟩)⟩
    · exact ⟨(_, _), (unmarshalArray_ok_iff D.toDocumented hsize).mpr
        (.inr ⟨fun l hl => harray ⟨l, hl⟩, rfl, rfl⟩)⟩

theorem unmarshalMap_returns [DecidableEq κ] {parse : Str → Except Exn κ} (fresh : α)
    (obj : Finmap fun _ : κ => α) :
    (∃ r, unmarshalMap parse u fresh v obj = .ok r) ↔
      ∀ ms, D.view v = .object ms → ∀ q ∈ ms, (∃ key, parse q.1 = .ok key) ∧ S q.2 := by
  constructor
  · rintro ⟨⟨ret, out⟩, h⟩ ms hms
    obtain ⟨ms', rs, hms', hrs, -⟩ | ⟨hnot, -⟩ := (unmarshalMap_ok_iff D.toDocumented).mp h
    · cases hms.symm.trans hms'
      exact (MemberReads.exists_iff hu).mp ⟨rs, hrs⟩
    · exact absurd hms (hnot ms)
  · intro h
    by_cases hobject : ∃ ms, D.view v = .object ms
    · obtain ⟨ms, hms⟩ := hobject
      obtain ⟨rs, hrs⟩ := (MemberReads.exists_iff hu).mpr (h ms hms)
      exact ⟨(_, _), (unmarshalMap_ok_iff D.toDocumented).mpr (.inl ⟨ms, rs, hms, hrs, rfl, rfl⟩)⟩
    · exact ⟨(_, _), (unmarshalMap_ok_iff D.toDocumented).mpr
        (.inr ⟨fun ms hms => hobject ⟨ms, hms⟩, rfl, rfl⟩)⟩

end

-- ---------------------------------------------------------------------------
-- All types
-- ---------------------------------------------------------------------------

theorem unmarshalScalar_returns (s : Scalar) (obj : s.Val F) :
    (∃ r, unmarshalScalar (s.is F) (s.as F) v obj = .ok r) ↔
      ∀ n, D.view v = .int n → s.InRange n := by
  rw [← s.returns_iff D v]
  cases hv : s.is F v with
  | true => cases hx : s.as F v <;> simp [unmarshalScalar, hv, hx, Except.map]
  | false => simp [unmarshalScalar, hv]

mutual
theorem Ty.unmarshal_returns : (t : Ty) → (L : Locals F) → (v : V) → (obj : t.Val F) →
    ((∃ r, t.unmarshal L v obj = .ok r) ↔ t.Safe D v)
  | .scalar s, _, _, obj => unmarshalScalar_returns D s obj
  | .vector t, L, _, obj =>
    unmarshalArray_returns D (fun i c w => t.unmarshal_returns (L.inner i) c w) _ _ _ obj
  | .set t, L, _, obj | .unorderedSet t, L, _, obj =>
    unmarshalArray_returns D (fun i c w => t.unmarshal_returns (L.inner i) c w) _ _ _ obj
  | .map _ _ t, L, _, obj | .unorderedMap _ t, L, _, obj =>
    unmarshalMap_returns D (fun i c w => t.unmarshal_returns (L.inner i) c w) _ obj
  | .struct fields, L, v, obj => by
    cases h : (D.view v).members? with
    | none => exact iff_of_false (Fields.throws D h) (by simp [Ty.Safe, h])
    | some m =>
      refine (fields.unmarshal_returns L h obj true).trans ⟨fun hs => ⟨m, h, hs⟩, ?_⟩
      rintro ⟨m', hm', hs⟩
      cases h.symm.trans hm'
      exact hs
theorem Fields.unmarshal_returns : (fields : Fields) → (L : Locals F) →
    (D.view v).members? = some m → (obj : fields.Val F) → (ret : Bool) →
      ((∃ r, fields.unmarshal L v obj ret = .ok r) ↔ fields.Safe D m)
  | .last name t, L, h, obj, ret => by
    have hf : ∀ c, (∃ r, (t.unmarshal (L.inner 0) c obj >>= fun r => Except.ok (ret && r.1, r.2)) =
        .ok r) ↔ t.Safe D c ∧ True := by
      intro c
      rw [bind_returns, ← t.unmarshal_returns (L.inner 0) c obj]
      simp
    exact (field_returns D h hf name).trans (and_iff_left trivial)
  | .cons name t rest, L, h, obj, ret => by
    have hf : ∀ c, (∃ r, (t.unmarshal (L.inner 0) c obj.1 >>= fun r =>
        rest.unmarshal (L.inner 1) v obj.2 (ret && r.1) >>= fun q => Except.ok (q.1, (r.2, q.2))) =
          .ok r) ↔ t.Safe D c ∧ rest.Safe D m := by
      intro c
      rw [bind_returns, ← t.unmarshal_returns (L.inner 0) c obj.1]
      constructor
      · rintro ⟨r, hr, hrest⟩
        obtain ⟨q, hq, -⟩ := bind_returns.mp hrest
        exact ⟨⟨r, hr⟩, (rest.unmarshal_returns (L.inner 1) h _ _).mp ⟨q, hq⟩⟩
      · rintro ⟨⟨r, hr⟩, hrest⟩
        obtain ⟨q, hq⟩ := (rest.unmarshal_returns (L.inner 1) h obj.2 (ret && r.1)).mpr hrest
        exact ⟨r, hr, bind_returns.mpr ⟨q, hq, _, rfl⟩⟩
    exact field_returns D h hf name
end

/-- `Unmarshal` returns normally on a document exactly if it is safe for the
target's type, and on a text exactly if the reader returns and that is so of the
document it has found, if any. -/
theorem unmarshal_returns_iff (L : Locals F) (parse : Str → Except Exn (Option V)) (t : Ty)
    (obj : t.Val F) :
    (∀ v, (∃ r, t.unmarshal L v obj = .ok r) ↔ t.Safe D v) ∧
    ∀ str, (∃ r, t.unmarshalText L parse str obj = .ok r) ↔
      ∃ doc, parse str = .ok doc ∧ ∀ v, doc = some v → t.Safe D v := by
  refine ⟨fun v => t.unmarshal_returns D L v obj, fun str => ?_⟩
  rw [Ty.unmarshalText, bind_returns]
  refine exists_congr fun doc => and_congr_right fun _ => ?_
  cases doc with
  | none => simp
  | some v => simpa using t.unmarshal_returns D L v obj

/-- A reader that finds no document and throws where the nesting is too deep, as
`Json::Reader` does. -/
def limitedReader (str : Str) : Except Exn (Option Tree) :=
  if 1000 < (str.takeWhile (· = '[')).length then .error .json else .ok none

theorem limitedReader_deep (h : 1000 < n) : limitedReader (List.replicate n '[') = .error .json := by
  simp [limitedReader, h]

/-- A number that is too large, a name that is no number, an array where a struct is
read, and a text that is nested too deep. -/
theorem unmarshal_throws :
    (Ty.scalar .int32).unmarshal .zeroed (Tree.int (2 ^ 31)) (Ty.zero _) = .error .json ∧
    (Ty.unorderedMap .int32 (.scalar .bool)).unmarshal .zeroed
      (Tree.object [("x".toList, .bool true)]) (Ty.zero _) = .error .invalidArgument ∧
    (Ty.struct (.last "id".toList (.scalar .int32))).unmarshal .zeroed
      (Tree.array []) (Ty.zero _) = .error .json ∧
    (Ty.scalar .bool).unmarshalText .zeroed limitedReader (List.replicate 1001 '[') (Ty.zero _) =
      .error .json := by
  refine ⟨rfl, rfl, rfl, ?_⟩
  rw [Ty.unmarshalText, limitedReader_deep (by decide)]
  rfl

end CppUtil.JsonHelper

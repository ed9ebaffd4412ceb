import CppUtil.JsonHelper.Exceptions

/-!
# Which documents `Unmarshal` accepts

`Ty.Conforms` is the schema of a type, and `Ty.Denotes` the value that a
document of this schema stands for. Both depend on which elements of an array
count: all of them, or those that are visited by a loop that counts in `int`.
The flag that `Unmarshal` returns is conformance in the second sense, and a
field of a struct gets its value in this sense whatever the other fields do.
`unmarshal_conforms_iff` compares the two.
-/

namespace CppUtil.JsonHelper

open Lang (Str Exn)

variable {V : Type} [J : JsonCpp V] {F : Floats} [N : JsonDoubles V F]
variable (D : DocumentedReads V F)

section
variable (counts : List V → List V)

mutual
def Ty.Conforms : Ty → V → Prop
  | .scalar s, v => s.is F v = true
  | .vector t, v | .set t, v | .unorderedSet t, v =>
    ∃ l, D.view v = .array l ∧ ∀ c ∈ counts l, t.Conforms c
  | .map _ _ t, v | .unorderedMap _ t, v => ∃ m, D.view v = .object m ∧ ∀ q ∈ m, t.Conforms q.2
  | .struct fields, v => ∃ m, D.view v = .object m ∧ fields.Conforms m
/-- Every field is there and conforms; there may be other members. -/
def Fields.Conforms : Fields → List (Str × V) → Prop
  | .last name t, m => ∃ c, (name, c) ∈ m ∧ t.Conforms c
  | .cons name t rest, m => (∃ c, (name, c) ∈ m ∧ t.Conforms c) ∧ rest.Conforms m
end

def Scalar.Denotes : (s : Scalar) → V → s.Val F → Prop
  | .bool, v, (x : Bool) => D.view v = .bool x
  | .int32, v, (x : Int32) => D.view v = .int x.toInt
  | .int64, v, (x : Int64) => D.view v = .int x.toInt
  | .uint32, v, (x : UInt32) => D.view v = .int x.toNat
  | .uint64, v, (x : UInt64) => D.view v = .int x.toNat
  | .float, v, x => N.asFloat v = .ok x
  | .double, v, x => N.asDouble v = .ok x
  | .string, v, (x : Str) => D.view v = .string x
  | .enum _ width, v, (x : BitVec width) =>
    ∃ n : Int32, D.view v = .int n.toInt ∧ x = n.toBitVec.signExtend width

mutual
/-- Of two members whose names are one key the later counts. -/
def Ty.Denotes : (t : Ty) → V → t.Val F → Prop
  | .scalar s, v, x => s.Denotes D v x
  | .vector t, v, (x : List (t.Val F)) =>
    ∃ l, D.view v = .array l ∧ List.Forall₂ t.Denotes (counts l) x
  | .set t, v, (x : Finset (t.Val F)) | .unorderedSet t, v, (x : Finset (t.Val F)) =>
    ∃ l xs, D.view v = .array l ∧ List.Forall₂ t.Denotes (counts l) xs ∧ x = xs.toFinset
  | .map k _ t, v, (x : Finmap fun _ : k.Val => t.Val F)
  | .unorderedMap k t, v, (x : Finmap fun _ : k.Val => t.Val F) =>
    ∃ m, ∃ es : List (Sigma fun _ : k.Val => t.Val F), D.view v = .object m ∧
      List.Forall₂ (fun q e => k.parse q.1 = .ok e.1 ∧ t.Denotes q.2 e.2) m es ∧ x = assignAll es
  | .struct fields, v, x => ∃ m, D.view v = .object m ∧ fields.Denotes m x
def Fields.Denotes : (fields : Fields) → List (Str × V) → fields.Val F → Prop
  | .last name t, m, x => ∃ c, (name, c) ∈ m ∧ t.Denotes c x
  | .cons name t rest, m, x => (∃ c, (name, c) ∈ m ∧ t.Denotes c x.1) ∧ rest.Denotes m x.2
end

end

section
variable (Q : (t : Ty) → V → t.Val F → Prop)

mutual
/-- In every struct that is read, at every depth, `Q` holds of each field and its
member, whatever the other members are. -/
def Ty.EachField : (t : Ty) → V → t.Val F → Prop
  | .scalar _, _, _ => True
  | .vector t, v, (x : List (t.Val F)) =>
    ∀ l, D.view v = .array l → List.Forall₂ t.EachField (visited l) x
  | .set t, v, (x : Finset (t.Val F)) | .unorderedSet t, v, (x : Finset (t.Val F)) =>
    ∀ l, D.view v = .array l → ∃ xs, List.Forall₂ t.EachField (visited l) xs ∧ x = xs.toFinset
  | .map k _ t, v, (x : Finmap fun _ : k.Val => t.Val F)
  | .unorderedMap k t, v, (x : Finmap fun _ : k.Val => t.Val F) =>
    ∀ m, D.view v = .object m → ∃ es : List (Sigma fun _ : k.Val => t.Val F),
      List.Forall₂ (fun q e => k.parse q.1 = .ok e.1 ∧ t.EachField q.2 e.2) m es ∧
        x = assignAll es
  | .struct fields, v, x => ∀ m, D.view v = .object m → fields.EachField m x
def Fields.EachField : (fields : Fields) → List (Str × V) → fields.Val F → Prop
  | .last name t, m, x => ∀ c, (name, c) ∈ m → Q t c x ∧ t.EachField c x
  | .cons name t rest, m, x =>
    (∀ c, (name, c) ∈ m → Q t c x.1 ∧ t.EachField c x.1) ∧ rest.EachField m x.2
end

structure Ty.Meets (t : Ty) (v : V) (r : Bool × t.Val F) : Prop where
  flag : r.1 = true ↔ t.Conforms D visited v
  denotes : t.Conforms D visited v → t.Denotes D visited v r.2
  fields : t.EachField D Q v r.2

end

-- ---------------------------------------------------------------------------
-- Scalars
-- ---------------------------------------------------------------------------

theorem integral_denotes {as : V → Except Exn α} {p : Int → Prop} [DecidablePred p]
    {convert : Int → α} (back : α → Int) (hback : ∀ n, p n → back (convert n) = n)
    (h : ∀ v n, D.view v = .int n → as v = if p n then .ok (convert n) else .error .json)
    (hv : J.isIntegral v = true) (hx : as v = .ok x) : D.view v = .int (back x) := by
  obtain ⟨n, hn⟩ := D.integral v hv
  rw [h v n hn] at hx
  split at hx
  · cases hx
    rw [hn, hback n ‹p n›]
  · cases hx

theorem toNat_ofInt_uint32 (h : 0 ≤ n ∧ n < 2 ^ 32) : ((UInt32.ofInt n).toNat : Int) = n := by
  simp only [UInt32.ofInt, UInt32.toNat_ofNat']
  omega

theorem toNat_ofInt_uint64 (h : 0 ≤ n ∧ n < 2 ^ 64) : ((UInt64.ofInt n).toNat : Int) = n := by
  simp only [UInt64.ofInt, UInt64.toNat_ofNat']
  omega

theorem asInt_denotes (hv : J.isIntegral v = true) (hx : J.asInt v = .ok x) :
    D.view v = .int x.toInt :=
  integral_denotes D Int32.toInt (fun _ h => Int32.toInt_ofInt_of_le h.1 h.2) D.asInt hv hx

theorem Scalar.as_denotes (s : Scalar) {x : s.Val F} (hv : s.is F v = true)
    (hx : s.as F v = .ok x) : s.Denotes D v x := by
  cases s with
  | bool =>
    obtain ⟨b, hb⟩ := (D.isBool v).mp hv
    cases (D.asBool v b hb).symm.trans hx
    exact hb
  | string =>
    obtain ⟨str, hs⟩ := (D.isString v).mp hv
    cases (D.asString v str hs).symm.trans hx
    exact hs
  | float => exact hx
  | double => exact hx
  | int32 => exact asInt_denotes D hv hx
  | int64 =>
    exact integral_denotes D Int64.toInt (fun _ h => Int64.toInt_ofInt_of_le h.1 h.2) D.asInt64 hv hx
  | uint32 =>
    exact integral_denotes D (fun x => x.toNat) (fun _ h => toNat_ofInt_uint32 h) D.asUInt hv hx
  | uint64 =>
    exact integral_denotes D (fun x => x.toNat) (fun _ h => toNat_ofInt_uint64 h) D.asUInt64 hv hx
  | enum signed width =>
    obtain ⟨n, hn, rfl⟩ := map_ok.mp hx
    exact ⟨n, asInt_denotes D hv hn, rfl⟩

theorem Scalar.Denotes.unique {s : Scalar} {x y : s.Val F} (hx : s.Denotes D v x)
    (hy : s.Denotes D v y) : x = y := by
  cases s with
  | bool => exact View.bool.inj (hx.symm.trans hy)
  | string => exact View.string.inj (hx.symm.trans hy)
  | float | double => exact Except.ok.inj (hx.symm.trans hy)
  | int32 => exact Int32.toInt_inj.mp (View.int.inj (hx.symm.trans hy))
  | int64 => exact Int64.toInt_inj.mp (View.int.inj (hx.symm.trans hy))
  | uint32 => exact UInt32.toNat_inj.mp (Int.ofNat.inj (View.int.inj (hx.symm.trans hy)))
  | uint64 => exact UInt64.toNat_inj.mp (Int.ofNat.inj (View.int.inj (hx.symm.trans hy)))
  | enum signed width =>
    obtain ⟨m, hm, rfl⟩ := hx
    obtain ⟨n, hn, rfl⟩ := hy
    rw [Int32.toInt_inj.mp (View.int.inj (hm.symm.trans hn))]

-- ---------------------------------------------------------------------------
-- What counts
-- ---------------------------------------------------------------------------

mutual
theorem Ty.conforms_visited : (t : Ty) → {v : V} → t.Conforms D id v → t.Conforms D visited v
  | .scalar _, _, h => h
  | .vector t, _, ⟨l, hl, h⟩ | .set t, _, ⟨l, hl, h⟩ | .unorderedSet t, _, ⟨l, hl, h⟩ =>
    ⟨l, hl, fun c hc => t.conforms_visited (h c (List.mem_of_mem_take hc))⟩
  | .map _ _ t, _, ⟨m, hm, h⟩ | .unorderedMap _ t, _, ⟨m, hm, h⟩ =>
    ⟨m, hm, fun q hq => t.conforms_visited (h q hq)⟩
  | .struct fields, _, ⟨m, hm, h⟩ => ⟨m, hm, fields.conforms_visited h⟩
theorem Fields.conforms_visited : (fields : Fields) → {m : List (Str × V)} →
    fields.Conforms D id m → fields.Conforms D visited m
  | .last _ t, _, ⟨c, hc, h⟩ => ⟨c, hc, t.conforms_visited h⟩
  | .cons _ t rest, _, ⟨⟨c, hc, h⟩, hrest⟩ =>
    ⟨⟨c, hc, t.conforms_visited h⟩, rest.conforms_visited hrest⟩
end

omit J in
theorem member_unique {m : List (Str × V)} (hm : (m.map Prod.fst).Nodup) (hc : (name, c) ∈ m)
    (hc' : (name, c') ∈ m) : c = c' :=
  (Prod.mk.inj (List.inj_on_of_nodup_map hm hc hc' rfl)).2

mutual
theorem Ty.denotes_unique {counts : List V → List V} : (t : Ty) → {v : V} → {x y : t.Val F} →
    t.Denotes D counts v x → t.Denotes D counts v y → x = y
  | .scalar _, _, _, _, hx, hy => Scalar.Denotes.unique D hx hy
  | .vector t, _, _, _, ⟨l, hl, hx⟩, ⟨l', hl', hy⟩ => by
    cases hl.symm.trans hl'
    refine List.right_unique_forall₂' ?_ hx hy
    exact fun _ _ _ h h' => t.denotes_unique h h'
  | .set t, _, _, _, ⟨l, xs, hl, hx, hxs⟩, ⟨l', ys, hl', hy, hys⟩
  | .unorderedSet t, _, _, _, ⟨l, xs, hl, hx, hxs⟩, ⟨l', ys, hl', hy, hys⟩ => by
    cases hl.symm.trans hl'
    obtain rfl : xs = ys := by
      refine List.right_unique_forall₂' ?_ hx hy
      exact fun _ _ _ h h' => t.denotes_unique h h'
    exact hxs.trans hys.symm
  | .map k _ t, _, _, _, ⟨m, es, hm, hx, hes⟩, ⟨m', es', hm', hy, hes'⟩
  | .unorderedMap k t, _, _, _, ⟨m, es, hm, hx, hes⟩, ⟨m', es', hm', hy, hes'⟩ => by
    cases hm.symm.trans hm'
    obtain rfl : es = es' := by
      refine List.right_unique_forall₂' ?_ hx hy
      rintro q ⟨key, a⟩ ⟨key', b⟩ ⟨hkey, ha⟩ ⟨hkey', hb⟩
      cases hkey.symm.trans hkey'
      exact congrArg (Sigma.mk key) (t.denotes_unique ha hb)
    exact hes.trans hes'.symm
  | .struct fields, v, _, _, ⟨m, hm, hx⟩, ⟨m', hm', hy⟩ => by
    cases hm.symm.trans hm'
    exact fields.denotes_unique (D.nodup v m hm) hx hy
theorem Fields.denotes_unique {counts : List V → List V} : (fields : Fields) →
    {m : List (Str × V)} → (m.map Prod.fst).Nodup → {x y : fields.Val F} →
    fields.Denotes D counts m x → fields.Denotes D counts m y → x = y
  | .last _ t, _, hm, _, _, ⟨c, hc, hx⟩, ⟨c', hc', hy⟩ => by
    cases member_unique hm hc hc'
    exact t.denotes_unique hx hy
  | .cons _ t rest, _, hm, _, _, ⟨⟨c, hc, hx⟩, hxs⟩, ⟨⟨c', hc', hy⟩, hys⟩ => by
    cases member_unique hm hc hc'
    exact Prod.ext (t.denotes_unique hx hy) (rest.denotes_unique hm hxs hys)
end

-- ---------------------------------------------------------------------------
-- Arrays and maps
-- ---------------------------------------------------------------------------

theorem all_iff_forall {P : α → Prop} {f : β → Bool}
    (h : List.Forall₂ (fun c r => f r = true ↔ P c) l rs) :
    rs.all f = true ↔ ∀ c ∈ l, P c := by
  induction h with
  | nil => simp
  | cons hc _ ih => simp [hc, ← ih]

section
variable {Q : (t : Ty) → V → t.Val F → Prop}

theorem Ty.Meets.mismatch {t : Ty} {x : t.Val F} (hc : ¬ t.Conforms D visited v)
    (hf : t.EachField D Q v x) : t.Meets D Q v (false, x) :=
  ⟨by simpa using hc, fun h => absurd h hc, hf⟩

theorem elems_meet {t : Ty} {rs : List (Bool × t.Val F)} (h : List.Forall₂ (t.Meets D Q) l rs) :
    (rs.all Prod.fst = true ↔ ∀ c ∈ l, t.Conforms D visited c) ∧
      ((∀ c ∈ l, t.Conforms D visited c) →
        List.Forall₂ (t.Denotes D visited) l (rs.map Prod.snd)) ∧
      List.Forall₂ (t.EachField D Q) l (rs.map Prod.snd) := by
  refine ⟨all_iff_forall (h.imp fun _ _ hm => hm.flag), fun hall => ?_, ?_⟩
  · rw [List.forall₂_map_right_iff]
    exact ((List.forall₂_and_left l rs).mpr ⟨hall, h⟩).imp fun _ _ hm => hm.2.denotes hm.1
  · rw [List.forall₂_map_right_iff]
    exact h.imp fun _ _ hm => hm.fields

theorem vector_meets {t : Ty} {rs : List (Bool × t.Val F)} (hview : D.view v = .array l)
    (h : List.Forall₂ (t.Meets D Q) (visited l) rs) :
    (Ty.vector t).Meets D Q v (rs.all Prod.fst, rs.map Prod.snd) := by
  obtain ⟨hflag, hden, hfields⟩ := elems_meet D h
  have hconf : (Ty.vector t).Conforms D visited v ↔ ∀ c ∈ visited l, t.Conforms D visited c := by
    simp [Ty.Conforms, hview]
  refine ⟨hflag.trans hconf.symm, fun hc => ⟨l, hview, hden (hconf.mp hc)⟩, fun l' hl' => ?_⟩
  cases hview.symm.trans hl'
  exact hfields

theorem set_meets {t : Ty} {rs : List (Bool × t.Val F)} (hview : D.view v = .array l)
    (h : List.Forall₂ (t.Meets D Q) (visited l) rs) :
    (Ty.set t).Meets D Q v (rs.all Prod.fst, (rs.map Prod.snd).toFinset) := by
  obtain ⟨hflag, hden, hfields⟩ := elems_meet D h
  have hconf : (Ty.set t).Conforms D visited v ↔ ∀ c ∈ visited l, t.Conforms D visited c := by
    simp [Ty.Conforms, hview]
  refine ⟨hflag.trans hconf.symm, fun hc => ⟨l, _, hview, hden (hconf.mp hc), rfl⟩, fun l' hl' => ?_⟩
  cases hview.symm.trans hl'
  exact ⟨_, hfields, rfl⟩

theorem map_meets {k : Key} {t : Ty} {rs : List (Bool × Sigma fun _ : k.Val => t.Val F)}
    (hview : D.view v = .object m) (h : List.Forall₂
      (fun q r => k.parse q.1 = .ok r.2.1 ∧ t.Meets D Q q.2 (r.1, r.2.2)) m rs) :
    (Ty.unorderedMap k t).Meets D Q v (rs.all Prod.fst, assignAll (rs.map Prod.snd)) := by
  have hconf : (Ty.unorderedMap k t).Conforms D visited v ↔ ∀ q ∈ m, t.Conforms D visited q.2 := by
    simp only [Ty.Conforms, hview, View.object.injEq, exists_eq_left']
  have hflag : rs.all Prod.fst = true ↔ ∀ q ∈ m, t.Conforms D visited q.2 :=
    all_iff_forall (h.imp fun _ _ hm => hm.2.flag)
  refine ⟨hflag.trans hconf.symm, fun hc => ⟨m, _, hview, ?_, rfl⟩, fun m' hm' => ?_⟩
  · rw [List.forall₂_map_right_iff]
    exact ((List.forall₂_and_left m rs).mpr ⟨hconf.mp hc, h⟩).imp
      fun _ _ hm => ⟨hm.2.1, hm.2.2.denotes hm.1⟩
  · cases hview.symm.trans hm'
    refine ⟨_, ?_, rfl⟩
    rw [List.forall₂_map_right_iff]
    exact h.imp fun _ _ hm => ⟨hm.1, hm.2.fields⟩

end

-- ---------------------------------------------------------------------------
-- Structs
-- ---------------------------------------------------------------------------

section
variable {counts : List V → List V}

theorem Ty.not_conforms_null (t : Ty) : ¬ t.Conforms D counts J.null := by
  intro h
  cases t with
  | scalar s =>
    cases s with
    | bool => simpa [D.view_null] using (D.isBool _).mp h
    | string => simpa [D.view_null] using (D.isString _).mp h
    | float | double => simpa [D.view_null] using (D.isDouble _).mp h
    | int32 | int64 | uint32 | uint64 | enum => simpa [D.view_null] using D.integral _ h
  | _ => simp [Ty.Conforms, D.view_null] at h

theorem Fields.not_conforms_nil (fields : Fields) : ¬ fields.Conforms D counts [] := by
  cases fields <;> simp [Fields.Conforms]

end

section
variable (Q : (t : Ty) → V → t.Val F → Prop)

def HoldsOfRead : Prop :=
  ∀ t c y, (t.Conforms D visited c → t.Denotes D visited c y) → Q t c y

/-- The field `name` of type `t`, as far as it is read from `m`. -/
structure FieldMeets (t : Ty) (name : Str) (m : List (Str × V)) (r : Bool × t.Val F) : Prop where
  flag : r.1 = true ↔ ∃ c, (name, c) ∈ m ∧ t.Conforms D visited c
  denotes : ∀ c, (name, c) ∈ m → t.Conforms D visited c → t.Denotes D visited c r.2
  holds : ∀ c, (name, c) ∈ m → Q t c r.2 ∧ t.EachField D Q c r.2

variable {Q}

theorem field_meets (hQ : HoldsOfRead D Q) {t : Ty} {r : Bool × t.Val F} (h : (D.view v).members? = some m)
    (hmember : J.member v name = .ok child) (hread : t.Meets D Q child r) :
    FieldMeets D Q t name m r := by
  rcases member_cases D h name with ⟨c, hc, hc', hunique⟩ | ⟨hnone, hnull⟩
  · obtain rfl : c = child := Except.ok.inj (hc'.symm.trans hmember)
    refine ⟨hread.flag.trans ⟨fun hconf => ⟨c, hc, hconf⟩, ?_⟩, fun c' hc' => ?_, fun c' hc' => ?_⟩
    · rintro ⟨c', hc', hconf⟩
      rwa [hunique c' hc'] at hconf
    · rw [hunique c' hc']
      exact hread.denotes
    · rw [hunique c' hc']
      exact ⟨hQ t c r.2 hread.denotes, hread.fields⟩
  · cases hnull.symm.trans hmember
    refine ⟨hread.flag.trans (iff_of_false (t.not_conforms_null D) ?_),
      fun c hc => absurd hc (hnone c), fun c hc => absurd hc (hnone c)⟩
    rintro ⟨c, hc, -⟩
    exact hnone c hc

-- ---------------------------------------------------------------------------
-- All types
-- ---------------------------------------------------------------------------

mutual
theorem Ty.unmarshal_meets (hQ : HoldsOfRead D Q) : (t : Ty) → (L : Locals F) → (v : V) →
    (obj : t.Val F) → (r : Bool × t.Val F) → t.unmarshal L v obj = .ok r → t.Meets D Q v r
  | .scalar s, _, v, obj, (ret, x), h => by
    obtain ⟨hv, hx, rfl⟩ | ⟨hv, rfl, -⟩ := unmarshalScalar_ok_iff.mp h
    · exact ⟨iff_of_true rfl hv, fun _ => s.as_denotes D hv hx, trivial⟩
    · exact .mismatch D (by simp [Ty.Conforms, hv]) trivial
  | .vector t, L, v, obj, (ret, out), h => by
    rw [Ty.unmarshal, unmarshalVector_eq] at h
    rcases (unmarshalArray_ok_iff D.toDocumented (rounds_size D v)).mp h with
      ⟨l, rs, hl, hrs, rfl, rfl⟩ | ⟨hnot, rfl, -⟩
    · rw [foldl_snoc, List.nil_append]
      exact vector_meets D hl (hrs.forall₂ fun i c _ r => t.unmarshal_meets hQ (L.inner i) c _ r)
    · exact .mismatch D (fun ⟨l, hl, _⟩ => hnot l hl) (fun l hl => absurd hl (hnot l))
  | .set t, L, v, obj, (ret, out), h
  | .unorderedSet t, L, v, obj, (ret, out), h => by
    rw [Ty.unmarshal, unmarshalSet_eq] at h
    rcases (unmarshalArray_ok_iff D.toDocumented (rounds_size D v)).mp h with
      ⟨l, rs, hl, hrs, rfl, rfl⟩ | ⟨hnot, rfl, -⟩
    · have hmeets := set_meets D hl
        (hrs.forall₂ fun i c _ r => t.unmarshal_meets hQ (L.inner i) c _ r)
      rw [foldl_insert, Finset.empty_union]
      exact ⟨hmeets.flag, hmeets.denotes, hmeets.fields⟩
    · exact .mismatch D (fun ⟨l, hl, _⟩ => hnot l hl) (fun l hl => absurd hl (hnot l))
  | .map k _ t, L, v, obj, (ret, out), h
  | .unorderedMap k t, L, v, obj, (ret, out), h => by
    rcases (unmarshalMap_ok_iff D.toDocumented).mp h with
      ⟨m, rs, hm, hrs, rfl, rfl⟩ | ⟨hnot, rfl, -⟩
    · have hmeets := map_meets D hm (hrs.forall₂ fun i q _ w key ok x hkey hx =>
        ⟨hkey, t.unmarshal_meets hQ (L.inner i) q.2 w (ok, x) hx⟩)
      exact ⟨hmeets.flag, hmeets.denotes, hmeets.fields⟩
    · exact .mismatch D (fun ⟨m, hm, _⟩ => hnot m hm) (fun m hm => absurd hm (hnot m))
  | .struct fields, L, v, obj, (ret, out), h => by
    cases hv : D.view v with
    | object m =>
      obtain ⟨hflag, hden, hfields⟩ :=
        fields.unmarshal_meets hQ L v m obj true ret out (by rw [hv]; rfl) h
      have hconf : (Ty.struct fields).Conforms D visited v ↔ fields.Conforms D visited m := by
        simp [Ty.Conforms, hv]
      refine ⟨?_, fun hc => ⟨m, hv, hden (hconf.mp hc)⟩, fun m' hm' => ?_⟩
      · rw [hflag, hconf]
        exact and_iff_right rfl
      · cases hv.symm.trans hm'
        exact hfields
    | null =>
      -- null is read as an object without members
      obtain ⟨hflag, -, -⟩ := fields.unmarshal_meets hQ L v [] obj true ret out (by rw [hv]; rfl) h
      obtain rfl : ret = false := by
        cases ret with
        | false => rfl
        | true => exact absurd (hflag.mp rfl).2 (fields.not_conforms_nil D)
      exact .mismatch D (by simp [Ty.Conforms, hv]) (by simp [Ty.EachField, hv])
    | _ => exact absurd ⟨_, h⟩ (Fields.throws D (by rw [hv]; rfl))
theorem Fields.unmarshal_meets (hQ : HoldsOfRead D Q) : (fields : Fields) → (L : Locals F) →
    (v : V) → (m : List (Str × V)) → (obj : fields.Val F) → (ret ret' : Bool) → (x : fields.Val F) →
    (D.view v).members? = some m → fields.unmarshal L v obj ret = .ok (ret', x) →
      (ret' = true ↔ ret = true ∧ fields.Conforms D visited m) ∧
      (fields.Conforms D visited m → fields.Denotes D visited m x) ∧ fields.EachField D Q m x
  | .last name t, L, v, m, obj, ret, ret', x, hm, h => by
    simp only [Fields.unmarshal, bind_ok] at h
    obtain ⟨child, hmember, ⟨ok, x'⟩, hread, hout⟩ := h
    obtain ⟨rfl, rfl⟩ := Prod.mk.inj (Except.ok.inj hout)
    have hfield := field_meets D hQ hm hmember (t.unmarshal_meets hQ (L.inner 0) child _ _ hread)
    refine ⟨by rw [Bool.and_eq_true, hfield.flag]; rfl, ?_, hfield.holds⟩
    rintro ⟨c, hc, hconf⟩
    exact ⟨c, hc, hfield.denotes c hc hconf⟩
  | .cons name t rest, L, v, m, obj, ret, ret', x, hm, h => by
    simp only [Fields.unmarshal, bind_ok] at h
    obtain ⟨child, hmember, ⟨ok, x'⟩, hread, ⟨ret'', xs⟩, hrest, hout⟩ := h
    obtain ⟨rfl, rfl⟩ := Prod.mk.inj (Except.ok.inj hout)
    have hfield := field_meets D hQ hm hmember (t.unmarshal_meets hQ (L.inner 0) child _ _ hread)
    obtain ⟨hflag, hden, hfields⟩ := rest.unmarshal_meets hQ (L.inner 1) v m _ _ _ _ hm hrest
    refine ⟨?_, ?_, hfield.holds, hfields⟩
    · rw [hflag, Bool.and_eq_true, hfield.flag, and_assoc]
      rfl
    · rintro ⟨⟨c, hc, hconf⟩, hconfs⟩
      exact ⟨⟨c, hc, hfield.denotes c hc hconf⟩, hden hconfs⟩
end

end

/-- If `Unmarshal` returns, its flag is conformance of the elements that are visited,
and the target then holds what they stand for. So it is conformance of the document
if and only if the visited elements conform no more often than all of them do. And in
every struct that is read a field whose member conforms holds what the member stands
for if and only if that is what its visited elements stand for. -/
theorem unmarshal_conforms_iff (L : Locals F) (t : Ty) {v : V} {obj x : t.Val F}
    (h : t.unmarshal L v obj = .ok (ret, x)) :
    (ret = true ↔ t.Conforms D visited v) ∧
    (t.Conforms D visited v → t.Denotes D visited v x) ∧
    ((ret = true ↔ t.Conforms D id v) ↔ (t.Conforms D visited v → t.Conforms D id v)) ∧
    t.EachField D (fun s c y => s.Conforms D id c →
      (s.Denotes D id c y ↔ ∃ z, s.Denotes D visited c z ∧ s.Denotes D id c z)) v x := by
  have hread : HoldsOfRead D fun s c y => s.Conforms D id c →
      (s.Denotes D id c y ↔ ∃ z, s.Denotes D visited c z ∧ s.Denotes D id c z) := by
    intro s c y hy hconf
    have hvisited := hy (s.conforms_visited D hconf)
    constructor
    · exact fun hall => ⟨y, hvisited, hall⟩
    · rintro ⟨z, hz, hall⟩
      rwa [s.denotes_unique D hvisited hz]
  obtain ⟨hflag, hden, hfields⟩ := t.unmarshal_meets D hread L v obj _ h
  refine ⟨hflag, hden, ?_, hfields⟩
  rw [hflag]
  exact ⟨fun hiff => hiff.mp, fun hall => ⟨hall, t.conforms_visited D⟩⟩

def flagged : Ty :=
  .struct (.cons "id".toList (.scalar .int32) (.last "ok".toList (.scalar .bool)))

theorem unmarshal_conforms_flagged :
    let doc := Tree.object [("id".toList, .bool true), ("ok".toList, .bool true)]
    let D := Tree.documentedReads
    flagged.unmarshal .zeroed doc (Ty.zero _) = .ok (false, ((0 : Int32), true)) ∧
    flagged.EachField D (fun s c y => s.Conforms D id c →
      (s.Denotes D id c y ↔ ∃ z, s.Denotes D visited c z ∧ s.Denotes D id c z)) doc
      ((0 : Int32), true) := by
  intro doc D
  have hrun : flagged.unmarshal .zeroed doc (Ty.zero _) = .ok (false, ((0 : Int32), true)) := rfl
  exact ⟨hrun, (unmarshal_conforms_iff D _ flagged hrun).2.2.2⟩

theorem visited_long {l : List α} (h : l.length = 2 ^ 31) : visited l = [] := by
  rw [visited, h]
  exact List.take_zero

theorem unmarshal_accepts_long_array :
    let flags : Ty := .vector (.scalar .bool)
    let nulls := Tree.array (List.replicate (2 ^ 31) .null)
    flags.unmarshal .zeroed nulls ([] : List Bool) = .ok (true, ([] : List Bool)) ∧
    ¬ flags.Conforms Tree.documentedReads id nulls := by
  intro flags nulls
  have hvisited : visited (List.replicate (2 ^ 31) Tree.null) = [] :=
    visited_long List.length_replicate
  constructor
  · refine (unmarshalArray_ok_iff Tree.documented (rounds_size Tree.documentedReads _)).mpr
      (.inl ⟨_, [], rfl, ?_, rfl, rfl⟩)
    rw [hvisited]
    exact .nil
  · rintro ⟨l, hl, hall⟩
    cases hl
    exact Ty.not_conforms_null Tree.documentedReads (.scalar .bool)
      (hall _ (List.mem_replicate.mpr ⟨by decide, rfl⟩))

end CppUtil.JsonHelper

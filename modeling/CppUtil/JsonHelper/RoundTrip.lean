import CppUtil.JsonHelper.ReadBack
import CppUtil.JsonHelper.Tree

/-!
# Reading back what was written

`Unmarshal` inverts `Marshal` on every value whose containers are non-empty,
as long as the sizes of its vectors and sets fit the type `int`: the loops
count in `int`, so nothing longer is ever written or read in full
(`round_trip_iff`). The values of enumerations travel as an `int`, too
(`Ty.roundTrips_iff`).

For an empty container `Marshal` writes nothing, and null stays where it should
be. `Unmarshal` takes null for no container and returns false, and so does every
call around it (`round_trip_nonEmpty_iff`).
-/

namespace CppUtil.JsonHelper

open Lang (Str Exn)

section
variable {V : Type} [J : JsonCpp V] {F : Floats} [N : JsonDoubles V F]

/-- Nothing is too large to be counted in `int` or to be written as one. -/
abbrev Ty.Countable (t : Ty) : t.Val F → Prop :=
  t.Each (· < 2 ^ 31) (fun _ => True) Scalar.EnumFits

abbrev Fields.Countable (fields : Fields) : fields.Val F → Prop :=
  fields.Each (· < 2 ^ 31) (fun _ => True) Scalar.EnumFits

abbrev Fields.NonEmpty (fields : Fields) : fields.Val F → Prop :=
  fields.Each (0 < ·) (0 < ·) fun _ _ => True

abbrev Fields.Fits (fields : Fields) : fields.Val F → Prop :=
  fields.Each (· < 2 ^ 31) (fun _ => True) fun _ _ => True

/-- `Unmarshal` returns true on `j` if and only if no container of `v` is empty, and
then it has read `v`. -/
def Ty.AnswersFor (t : Ty) (v : t.Val F) (j : V) : Prop :=
  ∀ L, Answers (t.unmarshal L) (t.NonEmpty v) v j

variable (D : Documented V)
include D

theorem field_written {x : α} {m : α → V → Except Exn (Bool × V)} {R : α → V → Prop}
    (hx : Emits m R x) (hview : (D.view root).members? = some done)
    (hname : name ∉ done.map Prod.fst) :
    ∃ j next, R x j ∧ (D.view (J.setMember root name j)).members? = some next ∧
      next.Perm ((name, j) :: done) ∧ J.refMember root name = .ok J.null ∧
      m x J.null = .ok (true, j) := by
  obtain ⟨j, hj, hR⟩ := hx
  obtain ⟨next, hnext, hperm⟩ := D.setMember_new root done name j hview hname
  exact ⟨j, next, hR, by rw [hnext]; rfl, hperm, D.refMember_new root done name hview hname, hj⟩

mutual
theorem Ty.marshal_answers (P : Platform) : (t : Ty) → (∀ s, t.Has s → s.Comes V F) →
    t.DistinctNames → (v : t.Val F) → t.Countable v →
    Emits (V := V) (t.marshal P) (t.AnswersFor) v
  | .scalar s, hs, _, v, hv => by
    obtain ⟨his, has⟩ := hs s rfl v hv
    refine ⟨s.of v, rfl, fun L w => ⟨(true, v), ?_, iff_of_true rfl trivial, fun _ => rfl⟩⟩
    exact unmarshalScalar_ok_iff.mpr (.inl ⟨his, has, rfl⟩)
  | .vector t, hs, hd, v, hv => by
    refine (vector_answers D (fun x hx => t.marshal_answers P hs hd x (hv.2 x hx)) hv.1).imp ?_
    exact fun j hj L => hj _ _ _ fun i x j h => h (L.inner i)
  | .set t, hs, hd, v, hv => by
    obtain ⟨root, hrun, hread⟩ := set_answers D (P.ordered.set_coe v)
      (fun x hx => t.marshal_answers P hs hd x (hv.2 x hx)) hv.1
    exact ⟨root, hrun, fun L => hread _ _ _ fun i x j h => h (L.inner i)⟩
  | .unorderedSet t, hs, hd, v, hv => by
    obtain ⟨root, hrun, hread⟩ := set_answers D (P.unordered.set_coe v)
      (fun x hx => t.marshal_answers P hs hd x (hv.2 x hx)) hv.1
    exact ⟨root, hrun, fun L => hread _ _ _ fun i x j h => h (L.inner i)⟩
  | .map k _ t, hs, hd, v, hv => by
    obtain ⟨root, hrun, hread⟩ := map_answers D (P.ordered.map_coe v)
      (fun e he => t.marshal_answers P hs hd e.2 (hv.2 e he))
    exact ⟨root, hrun, fun L => hread _ _ _ fun i x j h => h (L.inner i)⟩
  | .unorderedMap k t, hs, hd, v, hv => by
    obtain ⟨root, hrun, hread⟩ := map_answers D (P.unordered.map_coe v)
      (fun e he => t.marshal_answers P hs hd e.2 (hv.2 e he))
    exact ⟨root, hrun, fun L => hread _ _ _ fun i x j h => h (L.inner i)⟩
  | .struct fields, hs, hd, v, hv => by
    have hnull : (D.view J.null).members? = some [] := by rw [D.view_null]; rfl
    obtain ⟨root, ms, hrun, hview, -, hread⟩ :=
      fields.marshal_answers P hs hd.2 hd.1 v hv hnull (by simp) true
    refine ⟨root, hrun, fun L w => ?_⟩
    obtain ⟨r, hr, hflag, hout⟩ := hread root ms hview (fun _ h => h) L w true
    exact ⟨r, hr, hflag.trans (and_iff_right rfl), hout⟩
theorem Fields.marshal_answers (P : Platform) : (fields : Fields) →
    (∀ s, fields.Has s → s.Comes V F) → fields.DistinctNames → fields.names.Nodup →
    (v : fields.Val F) → fields.Countable v → (D.view root).members? = some done →
    (∀ name ∈ fields.names, name ∉ done.map Prod.fst) → (ret : Bool) →
    ∃ root' ms, fields.marshal P v ret root = .ok (ret, root') ∧
      (D.view root').members? = some ms ∧ (∀ q ∈ done, q ∈ ms) ∧
      ∀ last ms', (D.view last).members? = some ms' → (∀ q ∈ ms, q ∈ ms') → ∀ L w ret,
        ∃ r, fields.unmarshal L last w ret = .ok r ∧
          (r.1 = true ↔ ret = true ∧ fields.NonEmpty v) ∧ (fields.NonEmpty v → r.2 = v)
  | .last name t, hs, hd, _, v, hv, hview, hnew, ret => by
    obtain ⟨j, next, hj, hnext, hperm, href, hrun⟩ := field_written D
      (t.marshal_answers P hs hd v hv) hview (hnew name List.mem_cons_self)
    refine ⟨J.setMember root name j, next, ?_, hnext,
      fun q hq => hperm.mem_iff.mpr (List.mem_cons_of_mem _ hq), ?_⟩
    · simp only [Fields.marshal, href, ok_bind, hrun, Bool.and_true]
    · intro last ms' hlast hsub L w ret
      have hmem : (name, j) ∈ ms' := hsub _ (hperm.mem_iff.mpr List.mem_cons_self)
      have hobject := View.members?_object hlast (List.ne_nil_of_mem hmem)
      obtain ⟨⟨ok, x⟩, hx, hok, hxv⟩ := hj (L.inner 0) w
      refine ⟨(ret && ok, x), ?_, ?_, hxv⟩
      · simp only [Fields.unmarshal, D.member last ms' name j hobject hmem, ok_bind, hx]
      · rw [Bool.and_eq_true, hok]
        rfl
  | .cons name t rest, hs, hd, hnames, v, hv, hview, hnew, ret => by
    obtain ⟨hfirst, hrest⟩ := List.nodup_cons.mp hnames
    obtain ⟨j, next, hj, hnext, hperm, href, hrun⟩ := field_written D
      (t.marshal_answers P (fun s h => hs s (.inl h)) hd.1 v.1 hv.1) hview (hnew name List.mem_cons_self)
    have hnew' : ∀ n ∈ rest.names, n ∉ next.map Prod.fst := by
      intro n hn hmem
      rcases List.mem_cons.mp ((hperm.map Prod.fst).mem_iff.mp hmem) with rfl | h
      · exact hfirst hn
      · exact hnew n (List.mem_cons_of_mem _ hn) h
    obtain ⟨root', ms, hrun', hview', hsub, hread⟩ :=
      rest.marshal_answers P (fun s h => hs s (.inr h)) hd.2 hrest v.2 hv.2 hnext hnew' ret
    have hmem : (name, j) ∈ ms := hsub _ (hperm.mem_iff.mpr List.mem_cons_self)
    refine ⟨root', ms, ?_, hview', ?_, ?_⟩
    · simp only [Fields.marshal, href, ok_bind, hrun, Bool.and_true, hrun']
    · intro q hq
      exact hsub q (hperm.mem_iff.mpr (List.mem_cons_of_mem _ hq))
    · intro last ms' hlast hsub' L w ret
      have hobject := View.members?_object hlast (List.ne_nil_of_mem (hsub' _ hmem))
      obtain ⟨⟨ok, x⟩, hx, hok, hxv⟩ := hj (L.inner 0) w.1
      obtain ⟨⟨ret', xs⟩, hxs, hflag, hout⟩ :=
        hread last ms' hlast hsub' (L.inner 1) w.2 (ret && ok)
      refine ⟨(ret', (x, xs)), ?_, ?_, ?_⟩
      · simp only [Fields.unmarshal, D.member last ms' name j hobject (hsub' _ hmem), ok_bind, hx,
          hxs]
      · rw [hflag, Bool.and_eq_true, and_assoc, hok]
        rfl
      · rintro ⟨hne, hnes⟩
        exact Prod.ext (hxv hne) (hout hnes)
end

omit D

mutual
theorem Ty.unmarshal_countable : (t : Ty) → {L : Locals F} → {j : V} → {w v : t.Val F} →
    t.unmarshal L j w = .ok (true, v) → t.Countable v
  | .scalar s, _, _, _, v, h => by
    obtain ⟨-, hv, -⟩ | ⟨-, hflag, -⟩ := unmarshalScalar_ok_iff.mp h
    · cases s with
      | enum signed width =>
        obtain ⟨n, -, rfl⟩ := map_ok.mp hv
        exact toInt_signExtend_range n width
      | _ => trivial
    · cases hflag
  | .vector t, _, _, _, _, h => by
    obtain ⟨hlen, hxs⟩ := unmarshalVector_yields h
    refine ⟨hlen, fun x hx => ?_⟩
    obtain ⟨i, j, w, hread⟩ := hxs x hx
    exact t.unmarshal_countable hread
  | .set t, _, _, _, _, h | .unorderedSet t, _, _, _, _, h => by
    obtain ⟨hcard, hxs⟩ := unmarshalSet_yields h
    refine ⟨hcard, fun x hx => ?_⟩
    obtain ⟨i, j, w, hread⟩ := hxs x hx
    exact t.unmarshal_countable hread
  | .map _ _ t, _, _, _, _, h | .unorderedMap _ t, _, _, _, _, h => by
    refine ⟨trivial, fun e he => ?_⟩
    obtain ⟨i, j, w, hread⟩ := unmarshalMap_yields h e he
    exact t.unmarshal_countable hread
  | .struct fields, _, _, _, _, h => (fields.unmarshal_countable h).2
theorem Fields.unmarshal_countable : (fields : Fields) → {L : Locals F} → {j : V} →
    {w v : fields.Val F} → fields.unmarshal L j w ret = .ok (true, v) →
    ret = true ∧ fields.Countable v
  | .last name t, _, _, _, _, h => by
    simp only [Fields.unmarshal, bind_ok] at h
    obtain ⟨child, -, ⟨ok, x⟩, hx, hout⟩ := h
    obtain ⟨hret, rfl⟩ := Prod.mk.inj (Except.ok.inj hout)
    obtain ⟨rfl, rfl⟩ := Bool.and_eq_true_iff.mp hret
    exact ⟨rfl, t.unmarshal_countable hx⟩
  | .cons name t rest, _, _, _, _, h => by
    simp only [Fields.unmarshal, bind_ok] at h
    obtain ⟨child, -, ⟨ok, x⟩, hx, ⟨ret', xs⟩, hxs, hout⟩ := h
    obtain ⟨rfl, rfl⟩ := Prod.mk.inj (Except.ok.inj hout)
    obtain ⟨hret, hrest⟩ := rest.unmarshal_countable hxs
    obtain ⟨rfl, rfl⟩ := Bool.and_eq_true_iff.mp hret
    exact ⟨rfl, t.unmarshal_countable hx, hrest⟩
end

end

section
variable {F : Floats} {seq seq' seq'' assoc assoc' assoc'' : Nat → Prop}
  {scalar scalar' scalar'' : (s : Scalar) → s.Val F → Prop}

mutual
theorem Ty.Each.combine (hseq : ∀ n, seq n → seq' n → seq'' n)
    (hassoc : ∀ n, assoc n → assoc' n → assoc'' n)
    (hscalar : ∀ s x, scalar s x → scalar' s x → scalar'' s x) : (t : Ty) → {v : t.Val F} →
    t.Each seq assoc scalar v → t.Each seq' assoc' scalar' v → t.Each seq'' assoc'' scalar'' v
  | .scalar s, _, h, h' => hscalar s _ h h'
  | .vector t, _, h, h' | .set t, _, h, h' | .unorderedSet t, _, h, h' =>
    ⟨hseq _ h.1 h'.1, fun x hx => Ty.Each.combine hseq hassoc hscalar t (h.2 x hx) (h'.2 x hx)⟩
  | .map _ _ t, _, h, h' | .unorderedMap _ t, _, h, h' =>
    ⟨hassoc _ h.1 h'.1, fun e he => Ty.Each.combine hseq hassoc hscalar t (h.2 e he) (h'.2 e he)⟩
  | .struct fields, _, h, h' => Fields.Each.combine hseq hassoc hscalar fields h h'
theorem Fields.Each.combine (hseq : ∀ n, seq n → seq' n → seq'' n)
    (hassoc : ∀ n, assoc n → assoc' n → assoc'' n)
    (hscalar : ∀ s x, scalar s x → scalar' s x → scalar'' s x) : (fields : Fields) →
    {v : fields.Val F} → fields.Each seq assoc scalar v → fields.Each seq' assoc' scalar' v →
    fields.Each seq'' assoc'' scalar'' v
  | .last _ t, _, h, h' => Ty.Each.combine hseq hassoc hscalar t h h'
  | .cons _ t rest, _, h, h' => ⟨Ty.Each.combine hseq hassoc hscalar t h.1 h'.1,
    Fields.Each.combine hseq hassoc hscalar rest h.2 h'.2⟩
end

theorem Ty.countable_iff (t : Ty) {v : t.Val F} : t.Countable v ↔ t.Fits v ∧ t.EnumsFit v := by
  constructor
  · intro h
    exact ⟨Ty.Each.combine (fun _ hn _ => hn) (fun _ _ _ => trivial) (fun _ _ _ _ => trivial) t h h,
      Ty.Each.combine (fun _ _ _ => trivial) (fun _ _ _ => trivial) (fun _ _ hx _ => hx) t h h⟩
  · rintro ⟨hfits, henums⟩
    exact Ty.Each.combine (fun _ hn _ => hn) (fun _ _ _ => trivial) (fun _ _ _ hx => hx) t hfits
      henums

mutual
theorem Ty.each_scalar : (t : Ty) → (∀ s, t.Has s → ∀ x, scalar s x) → (v : t.Val F) →
    t.Each (fun _ => True) (fun _ => True) scalar v
  | .scalar s, h, v => h s rfl v
  | .vector t, h, _ | .set t, h, _ | .unorderedSet t, h, _ => ⟨trivial, fun x _ => t.each_scalar h x⟩
  | .map _ _ t, h, _ | .unorderedMap _ t, h, _ => ⟨trivial, fun e _ => t.each_scalar h e.2⟩
  | .struct fields, h, v => fields.each_scalar h v
theorem Fields.each_scalar : (fields : Fields) → (∀ s, fields.Has s → ∀ x, scalar s x) →
    (v : fields.Val F) → fields.Each (fun _ => True) (fun _ => True) scalar v
  | .last _ t, h, v => t.each_scalar h v
  | .cons _ t rest, h, v =>
    ⟨t.each_scalar (fun s hs => h s (.inl hs)) v.1, rest.each_scalar (fun s hs => h s (.inr hs)) v.2⟩
end

theorem Ty.Plain.enumsFit {t : Ty} (h : t.Plain) (v : t.Val F) : t.EnumsFit v := by
  refine t.each_scalar (fun s hs x => ?_) v
  cases s with
  | enum => exact (h _ hs).elim
  | _ => trivial

end

/-- Marshalled into a null root and unmarshalled from it, `v` comes back,
whatever the target held. -/
def Ty.RoundTrips (V : Type) [J : JsonCpp V] {F : Floats} [JsonDoubles V F] (P : Platform)
    (L : Locals F) (t : Ty) (v : t.Val F) : Prop :=
  ∃ root : V, t.marshal P v J.null = .ok (true, root) ∧
    ∀ w, t.unmarshal L root w = .ok (true, v)

section
variable {V : Type} [J : JsonCpp V] {F : Floats} [JsonDoubles V F] (P : Platform) (L : Locals F)

theorem Ty.Plain.comes (D : Documented V) {t : Ty} (h : t.Plain) : ∀ s, t.Has s → s.Comes V F :=
  fun s hs => Scalar.comes_of_documented D (by rintro rfl; exact h _ hs) (by rintro rfl; exact h _ hs)

theorem Ty.roundTrips_iff (D : Documented V) {t : Ty} (hs : ∀ s, t.Has s → s.Comes V F)
    (hnames : t.DistinctNames) (v : t.Val F) :
    t.RoundTrips V P L v ↔ t.NonEmpty v ∧ t.Fits v ∧ t.EnumsFit v := by
  rw [← t.countable_iff]
  constructor
  · rintro ⟨root, hrun, hread⟩
    have hcount := t.unmarshal_countable (hread v)
    obtain ⟨root', hrun', hanswers⟩ := t.marshal_answers D P hs hnames v hcount
    cases hrun.symm.trans hrun'
    obtain ⟨r, hr, hflag, -⟩ := hanswers L v
    cases (hread v).symm.trans hr
    exact ⟨hflag.mp rfl, hcount⟩
  · rintro ⟨hne, hcount⟩
    obtain ⟨root, hrun, hanswers⟩ := t.marshal_answers D P hs hnames v hcount
    exact ⟨root, hrun, (hanswers L).reads hne⟩

theorem round_trip_iff (D : Documented V) (t : Ty) (hplain : t.Plain) (hnames : t.DistinctNames)
    (v : t.Val F) (hne : t.NonEmpty v) : t.RoundTrips V P L v ↔ t.Fits v := by
  rw [Ty.roundTrips_iff P L D (hplain.comes D) hnames v]
  exact ⟨fun h => h.2.1, fun h => ⟨hne, h, hplain.enumsFit v⟩⟩

/-- One empty container at any depth decides the outcome: `Marshal` returns true and
`Unmarshal` false. -/
theorem round_trip_nonEmpty_iff (D : Documented V) (t : Ty) (hplain : t.Plain)
    (hnames : t.DistinctNames) (v : t.Val F) :
    (t.RoundTrips V P L v ↔ t.NonEmpty v ∧ t.Fits v) ∧
    (t.Fits v → ¬t.NonEmpty v → ∃ root : V, t.marshal P v J.null = .ok (true, root) ∧
      ∀ w, ∃ w', t.unmarshal L root w = .ok (false, w')) := by
  have henums := hplain.enumsFit v
  refine ⟨?_, fun hfits hempty => ?_⟩
  · rw [Ty.roundTrips_iff P L D (hplain.comes D) hnames v, and_iff_left henums]
  · obtain ⟨root, hrun, hanswers⟩ := t.marshal_answers D P (hplain.comes D) hnames v
      (t.countable_iff.mpr ⟨hfits, henums⟩)
    refine ⟨root, hrun, fun w => ?_⟩
    obtain ⟨⟨flag, w'⟩, hr, hflag, -⟩ := hanswers L w
    have hfalse : flag = false := Bool.eq_false_iff.mpr fun h => hempty (hflag.mp h)
    exact ⟨w', hfalse ▸ hr⟩

end

-- ---------------------------------------------------------------------------
-- Values that come back and values that do not
-- ---------------------------------------------------------------------------

def recordTy : Ty :=
  .struct (.cons "id".toList (.scalar .int32) (.cons "tags".toList (.vector (.scalar .string))
    (.last "seen".toList (.map .int64 (by decide) (.scalar .bool)))))

def record : recordTy.Val Tree.floats :=
  ((7 : Int32), (["a".toList, "b".toList] : List Str),
    (Finmap.singleton (-3 : Int64) true : Finmap fun _ : Int64 => Bool))

theorem recordTy_plain : recordTy.Plain := by
  rintro _ (rfl | rfl | rfl) <;> trivial

theorem recordTy_distinctNames : recordTy.DistinctNames := ⟨by decide, trivial, trivial, trivial⟩

theorem round_trip_record : recordTy.Plain ∧ recordTy.DistinctNames ∧ recordTy.NonEmpty record ∧
    recordTy.RoundTrips Tree .some .zeroed record := by
  have hsizes : ∀ seq assoc : Nat → Prop, seq 2 → assoc 1 →
      recordTy.Each seq assoc (fun _ _ => True) record := by
    intro seq assoc hseq hassoc
    exact ⟨trivial, ⟨hseq, fun _ _ => trivial⟩, hassoc, fun _ _ => trivial⟩
  have hne : recordTy.NonEmpty record := hsizes _ _ (by decide) (by decide)
  have hfits : recordTy.Fits record := hsizes _ _ (by decide) trivial
  exact ⟨recordTy_plain, recordTy_distinctNames, hne, (round_trip_iff .some .zeroed Tree.documented
    recordTy recordTy_plain recordTy_distinctNames record hne).mpr hfits⟩

/-- A `std::vector<bool>` of `2^31` elements: its size is no value of `int`. -/
theorem round_trip_fails_long_vector :
    let flags : Ty := .vector (.scalar .bool)
    let long : flags.Val Tree.floats := List.replicate (2 ^ 31) true
    flags.Plain ∧ flags.DistinctNames ∧ flags.NonEmpty long ∧
      ¬flags.RoundTrips Tree .some .zeroed long := by
  intro flags long
  have hlen : (List.replicate (2 ^ 31) true).length = 2 ^ 31 := List.length_replicate
  refine ⟨by rintro _ rfl; trivial, trivial,
    ⟨lt_of_lt_of_eq (by decide) hlen.symm, fun _ _ => trivial⟩, ?_⟩
  rintro ⟨root, -, hread⟩
  have hlt := (flags.unmarshal_countable (hread [])).1
  exact lt_irrefl _ (lt_of_eq_of_lt hlen.symm hlt)

def tagsTy : Ty := .struct (.last "tags".toList (.vector (.scalar .string)))

def tags (l : List Str) : tagsTy.Val Tree.floats := l

theorem round_trip_nonEmpty_tags :
    tagsTy.RoundTrips Tree .some .zeroed (tags ["a".toList]) ∧
      ∃ root : Tree, tagsTy.marshal .some (tags []) .null = .ok (true, root) ∧
        ∀ w, ∃ w', tagsTy.unmarshal .zeroed root w = .ok (false, w') := by
  have hplain : tagsTy.Plain := by
    rintro _ rfl
    trivial
  have hnames : tagsTy.DistinctNames := ⟨by decide, trivial⟩
  have hne : tagsTy.NonEmpty (tags ["a".toList]) := ⟨Nat.one_pos, fun _ _ => trivial⟩
  have hfits : ∀ l : List Str, l.length < 2 ^ 31 → tagsTy.Fits (tags l) :=
    fun l hl => ⟨hl, fun _ _ => trivial⟩
  have hempty : ¬tagsTy.NonEmpty (tags []) := fun h => Nat.lt_irrefl 0 h.1
  have htrip (l : List Str) := round_trip_nonEmpty_iff .some .zeroed Tree.documented tagsTy hplain
    hnames (tags l)
  exact ⟨(htrip _).1.mpr ⟨hne, hfits _ (by decide)⟩, (htrip _).2 (hfits _ (by decide)) hempty⟩

/-- An empty vector is written as null, also where it is a field of a struct. -/
theorem round_trip_fails_empty_vector :
    ¬(Ty.vector (.scalar .string)).RoundTrips Tree .some .zeroed ([] : List Str) ∧
      ¬tagsTy.RoundTrips Tree .some .zeroed (tags []) := by
  constructor
  · rintro ⟨root, hrun, hread⟩
    cases hrun
    cases hread ([] : List Str)
  · rintro ⟨root, hrun, hread⟩
    cases hrun
    cases hread (tags [])

end CppUtil.JsonHelper

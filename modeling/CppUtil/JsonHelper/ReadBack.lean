import CppUtil.JsonHelper.UnmarshalLaws

/-!
# Reading what was written, template by template

`Answers` says what a reading function makes of one value: it reads it as `x`
exactly if a condition holds, and otherwise returns false. The loops of
`Unmarshal` answer to what the loops of `Marshal` emitted if the elements do.
-/

namespace CppUtil.JsonHelper

open Lang (Str Exn)

-- ---------------------------------------------------------------------------
-- Keys
-- ---------------------------------------------------------------------------

theorem Key.parse_text : (k : Key) → (key : k.Val) → k.parse (k.text key) = .ok key
  | .string, _ => rfl
  | .int32, key => Lang.stoi_stdToString key
  | .uint32, key => by
    have hlt : UInt32.toNat key < 2 ^ 64 := lt_trans (UInt32.toNat_lt key) (by decide)
    simp only [Key.parse, Key.text, Lang.stoul, Lang.stoull_stdToString _ hlt, Except.map]
    exact congrArg Except.ok (UInt32.toNat.inj (by simpa using UInt32.toNat_lt key))
  | .int64, key => Lang.stoll_stdToString key
  | .uint64, key =>
    (Lang.stoull_stdToString _ (UInt64.toNat_lt key)).trans (congrArg _ UInt64.ofNat_toNat)

theorem Key.text_injective (k : Key) : Function.Injective k.text := by
  intro a b h
  have ha := k.parse_text a
  rw [h, k.parse_text b] at ha
  exact (Except.ok.inj ha).symm

-- ---------------------------------------------------------------------------
-- Scalars
-- ---------------------------------------------------------------------------

theorem castInt_toInt (signed : Bool) (e : BitVec width) :
    ((castInt signed e).toBitVec.signExtend width).toInt = e.toInt.bmod (2 ^ min width 32) := by
  have hdvd : 2 ^ min width 32 ∣ 2 ^ 32 := Nat.pow_dvd_pow 2 (Nat.min_le_right _ _)
  have hdvd' : 2 ^ min width 32 ∣ 2 ^ width := Nat.pow_dvd_pow 2 (Nat.min_le_left _ _)
  rw [BitVec.toInt_signExtend]
  cases signed with
  | true =>
    rw [castInt, if_pos rfl, Int32.toBitVec_ofBitVec]
    rw [BitVec.toInt_signExtend, Nat.min_comm 32, Int.bmod_bmod]
  | false =>
    rw [castInt, if_neg Bool.false_ne_true, Int32.toBitVec_ofBitVec]
    rw [BitVec.toInt_setWidth, Int.bmod_bmod_of_dvd hdvd, BitVec.toInt_eq_toNat_bmod,
      Int.bmod_bmod_of_dvd hdvd']

theorem castInt_back_iff (signed : Bool) (e : BitVec width) :
    (castInt signed e).toBitVec.signExtend width = e ↔ -2 ^ 31 ≤ e.toInt ∧ e.toInt < 2 ^ 31 := by
  rw [← BitVec.toInt_inj, castInt_toInt]
  rcases Nat.le_total width 32 with hw | hw
  · have hpow : (2 : Int) ^ (width - 1) ≤ 2 ^ 31 := by
      exact_mod_cast Nat.pow_le_pow_right (by decide) (by omega)
    have hle := e.le_toInt
    have hlt := e.toInt_lt
    rw [Nat.min_eq_left hw, BitVec.toInt_bmod_cancel]
    exact iff_of_true rfl ⟨by omega, by omega⟩
  · rw [Nat.min_eq_right hw, Int.bmod_def]
    omega

theorem toInt_signExtend_range (n : Int32) (width : Nat) :
    -2 ^ 31 ≤ (n.toBitVec.signExtend width).toInt ∧ (n.toBitVec.signExtend width).toInt < 2 ^ 31 := by
  rcases Nat.le_total width 32 with hw | hw
  · have hpow : (2 : Int) ^ (width - 1) ≤ 2 ^ 31 := by
      exact_mod_cast Nat.pow_le_pow_right (by decide) (by omega)
    have hle := (n.toBitVec.signExtend width).le_toInt
    have hlt := (n.toBitVec.signExtend width).toInt_lt
    exact ⟨by omega, by omega⟩
  · rw [BitVec.toInt_signExtend, Nat.min_eq_right hw, BitVec.toInt_bmod_cancel]
    exact ⟨n.le_toInt, n.toInt_lt⟩

section
variable {V : Type} [J : JsonCpp V] (D : Documented V)
include D

theorem asInt_ofInt (v : Int32) : J.asInt (J.ofInt v) = .ok v := by
  rw [D.asInt _ _ (D.view_ofInt v), if_pos ⟨v.le_toInt, v.toInt_lt⟩, Int32.ofInt_toInt]

theorem asInt64_ofInt64 (v : Int64) : J.asInt64 (J.ofInt64 v) = .ok v := by
  rw [D.asInt64 _ _ (D.view_ofInt64 v), if_pos ⟨v.le_toInt, v.toInt_lt⟩, Int64.ofInt_toInt]

theorem asUInt_ofUInt (v : UInt32) : J.asUInt (J.ofUInt v) = .ok v := by
  have hlt : (v.toNat : Int) < 2 ^ 32 := by exact_mod_cast v.toNat_lt
  have hmod : ((v.toNat : Int) % 2 ^ 32).toNat = v.toNat := by omega
  rw [D.asUInt _ _ (D.view_ofUInt v), if_pos ⟨Int.natCast_nonneg _, hlt⟩, UInt32.ofInt, hmod,
    UInt32.ofNat_toNat]

theorem asUInt64_ofUInt64 (v : UInt64) : J.asUInt64 (J.ofUInt64 v) = .ok v := by
  have hlt : (v.toNat : Int) < 2 ^ 64 := by exact_mod_cast v.toNat_lt
  have hmod : ((v.toNat : Int) % 2 ^ 64).toNat = v.toNat := by omega
  rw [D.asUInt64 _ _ (D.view_ofUInt64 v), if_pos ⟨Int.natCast_nonneg _, hlt⟩, UInt64.ofInt, hmod,
    UInt64.ofNat_toNat]

end

def Scalar.Comes (V : Type) (F : Floats) [J : JsonCpp V] [N : JsonDoubles V F] (s : Scalar) : Prop :=
  ∀ x : s.Val F, s.EnumFits x → s.is F (s.of x : V) = true ∧ s.as F (s.of x : V) = .ok x

section
variable {V : Type} [J : JsonCpp V] {F : Floats} [N : JsonDoubles V F]

theorem Scalar.comes_of_documented (D : Documented V) {s : Scalar} (hfloat : s ≠ .float)
    (hdouble : s ≠ .double) : s.Comes V F := by
  intro x hx
  cases s with
  | bool =>
    have hview := D.view_ofBool x
    exact ⟨(D.isBool _).mpr ⟨x, hview⟩, D.asBool _ x hview⟩
  | string =>
    have hview := D.view_ofString x
    exact ⟨(D.isString _).mpr ⟨x, hview⟩, D.asString _ x hview⟩
  | int32 => exact ⟨D.isIntegral _ _ (D.view_ofInt x), asInt_ofInt D x⟩
  | int64 => exact ⟨D.isIntegral _ _ (D.view_ofInt64 x), asInt64_ofInt64 D x⟩
  | uint32 => exact ⟨D.isIntegral _ _ (D.view_ofUInt x), asUInt_ofUInt D x⟩
  | uint64 => exact ⟨D.isIntegral _ _ (D.view_ofUInt64 x), asUInt64_ofUInt64 D x⟩
  | enum signed width =>
    refine ⟨D.isIntegral _ _ (D.view_ofInt _), ?_⟩
    simp only [Scalar.as, Scalar.of, asInt_ofInt D]
    exact congrArg Except.ok ((castInt_back_iff signed x).mpr hx)
  | float => exact absurd rfl hfloat
  | double => exact absurd rfl hdouble

theorem Scalar.comes (D : DocumentedDoubles V F) (s : Scalar) : s.Comes V F := by
  cases s with
  | float => exact fun x _ => ⟨D.isDouble_ofFloat x, D.asFloat_ofFloat x⟩
  | double => exact fun x _ => ⟨D.isDouble_ofDouble x, D.asDouble_ofDouble x⟩
  | _ => exact Scalar.comes_of_documented D.toDocumented (by simp) (by simp)

end

-- ---------------------------------------------------------------------------
-- Reading what was written
-- ---------------------------------------------------------------------------

section
variable {V : Type} [J : JsonCpp V]

/-- `u` returns on `j`, whatever the target held before. Its flag says whether `p`
holds, and if so it has read `x`. -/
def Answers (u : V → α → Except Exn (Bool × α)) (p : Prop) (x : α) (j : V) : Prop :=
  ∀ w, ∃ r, u j w = .ok r ∧ (r.1 = true ↔ p) ∧ (p → r.2 = x)

omit J in
theorem Answers.reads {u : V → α → Except Exn (Bool × α)} (h : Answers u p x j) (hp : p) (w : α) :
    u j w = .ok (true, x) := by
  obtain ⟨⟨flag, y⟩, hr, hflag, hy⟩ := h w
  obtain rfl : flag = true := hflag.mpr hp
  obtain rfl : y = x := hy hp
  exact hr

omit J in
theorem Answers.and_left {u : V → α → Except Exn (Bool × α)} (h : Answers u p x j) (hq : q) :
    Answers u (q ∧ p) x j := by
  rwa [and_iff_right hq]

omit J in
theorem answers_of_rejects {u : V → α → Except Exn (Bool × α)} (h : ∀ w, u j w = .ok (false, w))
    (hp : ¬p) : Answers u p x j :=
  fun w => ⟨(false, w), h w, iff_of_false Bool.false_ne_true hp, fun hp' => absurd hp' hp⟩

theorem Emits.imp {m : α → V → Except Exn (Bool × V)} {R R' : α → V → Prop} (h : Emits m R x)
    (hR : ∀ j, R x j → R' x j) : Emits m R' x := by
  obtain ⟨j, hj, hx⟩ := h
  exact ⟨j, hj, hR j hx⟩

variable {m : α → V → Except Exn (Bool × V)} {u : Nat → V → α → Except Exn (Bool × α)}

omit J in
theorem ElemReads.of_answers {p : α → Prop}
    (hread : List.Forall₂ (fun x j => ∀ i, Answers (u i) (p x) x j) xs es) (tmp : Nat → α)
    (i : Nat) :
    ∃ rs, ElemReads u tmp i es rs ∧ (rs.all Prod.fst = true ↔ ∀ x ∈ xs, p x) ∧
      ((∀ x ∈ xs, p x) → rs.map Prod.snd = xs) := by
  induction hread generalizing i with
  | nil => exact ⟨[], .nil, by simp, fun _ => rfl⟩
  | cons hx _ ih =>
    obtain ⟨r, hr, hflag, hout⟩ := hx i (tmp i)
    obtain ⟨rs, hrs, hflags, houts⟩ := ih (i + 1)
    refine ⟨r :: rs, .cons hr hrs, ?_, fun hp => ?_⟩
    · rw [List.all_cons, Bool.and_eq_true, hflag, hflags, List.forall_mem_cons]
    · obtain ⟨hpx, hp⟩ := List.forall_mem_cons.mp hp
      rw [List.map_cons, hout hpx, houts hp]

omit J in
theorem MemberReads.of_answers [DecidableEq κ] {parse : Str → Except Exn κ} {p : α → Prop}
    {l : List (Sigma fun _ : κ => α)} {js : List (Str × V)} (hread : List.Forall₂
      (fun e q => parse q.1 = .ok e.1 ∧ ∀ i, Answers (u i) (p e.2) e.2 q.2) l js)
    (fresh : α) (i : Nat) (obj : Finmap fun _ : κ => α) :
    ∃ rs, MemberReads parse u fresh i js obj rs ∧ (rs.all Prod.fst = true ↔ ∀ e ∈ l, p e.2) ∧
      ((∀ e ∈ l, p e.2) → rs.map Prod.snd = l) := by
  induction hread generalizing i obj with
  | nil => exact ⟨[], .nil, by simp, fun _ => rfl⟩
  | @cons e q l js hq _ ih =>
    obtain ⟨⟨ok, x⟩, hr, hflag, hout⟩ := hq.2 i ((obj.lookup e.1).getD fresh)
    obtain ⟨rs, hrs, hflags, houts⟩ := ih (i + 1) (obj.insert e.1 x)
    refine ⟨(ok, ⟨e.1, x⟩) :: rs, .cons hq.1 hr hrs, ?_, fun hp => ?_⟩
    · rw [List.all_cons, Bool.and_eq_true, hflag, hflags, List.forall_mem_cons]
    · obtain ⟨hpe, hp⟩ := List.forall_mem_cons.mp hp
      rw [List.map_cons, houts hp, show x = e.2 from hout hpe]

theorem assignAll_entries [DecidableEq κ] {l : List (Sigma fun _ : κ => α)}
    {m : Finmap fun _ : κ => α} (h : (l : Multiset _) = m.entries) : assignAll l = m := by
  have hfold : assignAll l = l.reverse.toFinmap := by
    rw [assignAll, List.foldl_eq_foldr_reverse]
    induction l.reverse with
    | nil => rfl
    | cons e l ih =>
      rw [List.foldr_cons, ih]
      exact (Finmap.toFinmap_cons e.1 e.2 l).symm
  have hkeys : l.NodupKeys := by
    have hnodup := m.nodupKeys
    rwa [← h, Multiset.coe_nodupKeys] at hnodup
  have hm : m = AList.toFinmap ⟨l, hkeys⟩ := Finmap.ext h.symm
  rw [hfold, hm]
  refine Finmap.ext_lookup fun key => ?_
  rw [Finmap.dlookup_list_toFinmap, Finmap.lookup_toFinmap]
  exact List.perm_dlookup key ((List.perm_nodupKeys (List.reverse_perm l)).mpr hkeys)
    (List.reverse_perm l)

variable (D : Documented V)
include D

theorem isArray_null : ¬J.isArray J.null = true := by
  intro h
  obtain ⟨l, hl⟩ := (D.isArray _).mp h
  rw [D.view_null] at hl
  cases hl

theorem isObject_null : ¬J.isObject J.null = true := by
  intro h
  obtain ⟨m, hm⟩ := (D.isObject _).mp h
  rw [D.view_null] at hm
  cases hm

theorem array_answers {p : α → Prop} (hview : D.view root = .array es)
    (hread : List.Forall₂ (fun x j => ∀ i, Answers (u i) (p x) x j) xs es)
    (hlen : xs.length < 2 ^ 31) (tmp : Nat → α) (add : β → α → β) (start : β) :
    Answers (unmarshalArray u tmp add start) (∀ x ∈ xs, p x) (xs.foldl add start) root := by
  intro w
  obtain ⟨rs, hrs, hflag, hout⟩ := ElemReads.of_answers hread tmp 0
  have hes : es.length < 2 ^ 31 := hread.length_eq ▸ hlen
  have hsize : ∀ l, D.view root = .array l →
      intRounds (J.size root).toNat = intRounds l.length := by
    rintro l hl
    cases hview.symm.trans hl
    rw [D.size root es hview (by simp only [maxSize]; omega)]
  refine ⟨_, (unmarshalArray_ok_iff D hsize).mpr
    (.inl ⟨es, rs, hview, (visited_eq hes).symm ▸ hrs, rfl, rfl⟩), hflag, fun hp => ?_⟩
  rw [hout hp]

/-- A vector comes back if it is not empty and its elements come back. An empty one
leaves null behind, which `Unmarshal` takes for no array. -/
theorem vector_answers {R : α → V → Prop} {xs : List α} (hm : ∀ x ∈ xs, Emits m R x)
    (hlen : xs.length < 2 ^ 31) :
    Emits (marshalVector m) (fun xs j => ∀ (u : Nat → V → α → Except Exn (Bool × α)) tmp
      (p : α → Prop), (∀ i x j, R x j → Answers (u i) (p x) x j) →
      Answers (unmarshalVector u tmp) (0 < xs.length ∧ ∀ x ∈ xs, p x) xs j) xs := by
  cases xs with
  | nil =>
    refine ⟨J.null, by simp [marshalVector, marshalElems], fun u tmp p _ =>
      answers_of_rejects (fun w => ?_) (by simp)⟩
    rw [unmarshalVector, if_neg (isArray_null D)]
  | cons x xs =>
    obtain ⟨root, es, hrun, hview, hes⟩ := marshalVector_ok D hm (List.cons_ne_nil _ _) hlen
    refine ⟨root, hrun, fun u tmp p hR => Answers.and_left ?_ (Nat.succ_pos _)⟩
    have hread := array_answers D hview (hes.imp fun x j h i => hR i x j h) hlen tmp
      (fun l x => l ++ [x]) []
    rwa [foldl_snoc, List.nil_append] at hread

theorem set_answers [DecidableEq α] {R : α → V → Prop} {l : List α} {s : Finset α}
    (hl : (l : Multiset α) = s.val) (hm : ∀ x ∈ s, Emits m R x) (hlen : s.card < 2 ^ 31) :
    ∃ root, marshalSet m l true J.null = .ok (true, root) ∧
      ∀ (u : Nat → V → α → Except Exn (Bool × α)) tmp (p : α → Prop),
        (∀ i x j, R x j → Answers (u i) (p x) x j) →
        Answers (unmarshalSet u tmp) (0 < s.card ∧ ∀ x ∈ s, p x) s root := by
  have hcard : l.length = s.card := by rw [Finset.card, ← hl, Multiset.coe_card]
  have hmem : ∀ x, x ∈ l ↔ x ∈ s := by
    intro x
    rw [← Multiset.mem_coe, hl, Finset.mem_val]
  have hnull : (D.view J.null).elems? = some [] := by rw [D.view_null]; rfl
  rcases Nat.eq_zero_or_pos s.card with hempty | hne
  · rw [hempty, List.length_eq_zero_iff] at hcard
    subst hcard
    refine ⟨J.null, rfl, fun u tmp p _ => answers_of_rejects (fun w => ?_) (by simp [hempty])⟩
    rw [unmarshalSet, if_neg (isArray_null D)]
  · obtain ⟨root, es, hrun, hview, hes⟩ := marshalSet_ok D
      (fun x hx => hm x ((hmem x).mp hx)) hnull (by simp only [List.length_nil, maxSize]; omega) true
    have hes' : es ≠ [] := List.ne_nil_of_length_pos (by rw [← hes.length_eq]; omega)
    refine ⟨root, hrun, fun u tmp p hR => Answers.and_left ?_ hne⟩
    have hread := array_answers D (View.elems?_array hview hes')
      (hes.imp fun x j h i => hR i x j h) (by omega) tmp (fun s x => insert x s) (∅ : Finset α)
    have hs : l.toFinset = s := by
      ext x
      rw [List.mem_toFinset, hmem]
    rw [foldl_insert, Finset.empty_union, hs, ← unmarshalSet_eq] at hread
    simpa only [hmem] using hread

/-- What `Marshal` for maps writes. The members may come in another order, and then
so do the entries that are read from them. -/
theorem marshalMap_entries {k : Key} {R : α → V → Prop} {l : List (Sigma fun _ : k.Val => α)}
    {f : Finmap fun _ : k.Val => α} (hl : (l : Multiset _) = f.entries)
    (hm : ∀ e ∈ f.entries, Emits m R e.2) :
    ∃ root ms, marshalMap m (l.map fun e => (k.text e.1, e.2)) true J.null = .ok (true, root) ∧
      (D.view root).members? = some ms ∧ ∃ l' : List (Sigma fun _ : k.Val => α),
        (l' : Multiset _) = f.entries ∧
        List.Forall₂ (fun e q => q.1 = k.text e.1 ∧ R e.2 q.2) l' ms := by
  have hnull : (D.view J.null).members? = some [] := by rw [D.view_null]; rfl
  have hkeys : (l.map Sigma.fst).Nodup := by
    have hnodup := f.nodupKeys
    rwa [← hl, Multiset.coe_nodupKeys] at hnodup
  have hnames : ((l.map fun e => (k.text e.1, e.2)).map Prod.fst).Nodup := by
    have hcomp := hkeys.map k.text_injective
    rw [List.map_map] at hcomp ⊢
    exact hcomp
  have hmem : ∀ p ∈ l.map fun e => (k.text e.1, e.2), Emits m R p.2 := by
    intro p hp
    obtain ⟨e, he, rfl⟩ := List.mem_map.mp hp
    exact hm e (hl ▸ Multiset.mem_coe.mpr he)
  obtain ⟨root, ms, js, hrun, hview, hperm, hjs⟩ :=
    marshalMap_ok D hmem hnames hnull (by simp) true
  rw [List.append_nil] at hperm
  rw [List.forall₂_map_left_iff] at hjs
  have hcomp : Relation.Comp (List.Forall₂ fun (e : Sigma fun _ : k.Val => α) q =>
      q.1 = k.text e.1 ∧ R e.2 q.2) List.Perm l ms := ⟨js, hjs, hperm.symm⟩
  rw [List.forall₂_comp_perm_eq_perm_comp_forall₂] at hcomp
  obtain ⟨l', hl', hms⟩ := hcomp
  exact ⟨root, ms, hrun, hview, l', (Multiset.coe_eq_coe.mpr hl'.symm).trans hl, hms⟩

theorem map_answers {R : α → V → Prop} {k : Key} {l : List (Sigma fun _ : k.Val => α)}
    {f : Finmap fun _ : k.Val => α} (hl : (l : Multiset _) = f.entries)
    (hm : ∀ e ∈ f.entries, Emits m R e.2) :
    ∃ root, marshalMap m (l.map fun e => (k.text e.1, e.2)) true J.null = .ok (true, root) ∧
      ∀ (u : Nat → V → α → Except Exn (Bool × α)) fresh (p : α → Prop),
        (∀ i x j, R x j → Answers (u i) (p x) x j) →
        Answers (unmarshalMap k.parse u fresh) (0 < f.entries.card ∧ ∀ e ∈ f.entries, p e.2) f
          root := by
  rcases Nat.eq_zero_or_pos f.entries.card with hempty | hne
  · rw [Multiset.card_eq_zero] at hempty
    rw [hempty, Multiset.coe_eq_zero] at hl
    subst hl
    refine ⟨J.null, rfl, fun u fresh p _ => answers_of_rejects (fun w => ?_) (by simp [hempty])⟩
    rw [unmarshalMap, if_neg (isObject_null D)]
  · obtain ⟨root, ms, hrun, hview, l', hl', hms⟩ := marshalMap_entries D hl hm
    have hms' : ms ≠ [] := by
      refine List.ne_nil_of_length_pos ?_
      rwa [← hms.length_eq, ← Multiset.coe_card, hl']
    refine ⟨root, hrun, fun u fresh p hR => Answers.and_left (fun w => ?_) hne⟩
    have hread := hms.imp fun (e : Sigma fun _ : k.Val => α) q h =>
      And.intro ((congrArg k.parse h.1).trans (k.parse_text e.1)) fun i => hR i e.2 q.2 h.2
    obtain ⟨rs, hrs, hflag, hout⟩ := MemberReads.of_answers hread fresh 0 ∅
    simp only [← Multiset.mem_coe, hl'] at hflag hout
    refine ⟨_, (unmarshalMap_ok_iff D).mpr
      (.inl ⟨ms, rs, View.members?_object hview hms', hrs, rfl, rfl⟩), hflag, fun hp => ?_⟩
    rw [hout hp, assignAll_entries hl']

end

end CppUtil.JsonHelper

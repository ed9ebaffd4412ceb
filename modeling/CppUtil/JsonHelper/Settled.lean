import CppUtil.JsonHelper.Independence
import CppUtil.JsonHelper.Temporaries

/-!
# Documents that settle what is read

The loops over an array add a temporary to the container whether or not it was
assigned. What a scalar held before then gets to the caller.
`unmarshal_hides_temporaries_iff` says on which arrays nothing does: every scalar
that was not initialised is assigned in the end, or, in a set, the values that an
element may have are there anyway. Which values these are is said by the documents
(`Ty.Results`), and `Ty.outcomes_eq` proves it of the code.
-/

namespace CppUtil.JsonHelper

open Lang (Str Exn)
open Lib (outcomes Resets Choice)

section
variable {V : Type} [J : JsonCpp V] {F : Floats} [N : JsonDoubles V F]
variable (fresh : (t : Ty) → t.Val F) (D : DocumentedReads V F)

def Scalar.Blank (F : Floats) (s : Scalar) : Prop := {x : s.Val F | s.Initial x}.Subsingleton

mutual
/-- What may come of documents that are read one after the other into an object that
held a member of `W`. An array or object replaces what was there before, so the last
one counts; the elements of an array start from temporaries, those of a map from
`fresh`. -/
def Ty.Results : (t : Ty) → Set (t.Val F) → List V → Set (t.Val F)
  | .scalar s, W, ds => ((ds.reverse.find? (s.is F)).map fun d => {x | s.as F d = .ok x}).getD W
  | .vector t, W, ds => ((ds.reverse.find? J.isArray).map fun d =>
      {out : List (t.Val F) | ∃ l, D.view d = .array l ∧
        Choice (fun c => t.Results {w | t.Initial w} [c]) (visited l) out}).getD W
  | .set t, W, ds | .unorderedSet t, W, ds => ((ds.reverse.find? J.isArray).map fun d =>
      {out : Finset (t.Val F) | ∃ l xs, D.view d = .array l ∧
        Choice (fun c => t.Results {w | t.Initial w} [c]) (visited l) xs ∧
        out = xs.toFinset}).getD W
  | .map k _ t, W, ds | .unorderedMap k t, W, ds => ((ds.reverse.find? J.isObject).map fun d =>
      {out : Finmap fun _ : k.Val => t.Val F | ∃ m, D.view d = .object m ∧ ∀ key,
        EntryIn (fun ds => t.Results {fresh t} ds) (docsOf k.parse key m) (out.lookup key)}).getD W
  | .struct fields, W, ds => fields.Results W ds
def Fields.Results : (fields : Fields) → Set (fields.Val F) → List V → Set (fields.Val F)
  | .last name t, W, ds => t.Results W (ds.filterMap fun d => (J.member d name).toOption)
  | .cons name t rest, W, ds =>
    t.Results (Prod.fst '' W) (ds.filterMap fun d => (J.member d name).toOption) ×ˢ
      rest.Results (Prod.snd '' W) ds
end

/-- The values that an element of an array may have. -/
def Ty.Values (t : Ty) (c : V) : Set (t.Val F) := t.Results fresh D {w | t.Initial w} [c]

mutual
/-- Read one after the other into one object, the documents leave the same in it
whatever the temporaries hold; `known` says that the object itself was initialised.
An array or object replaces what was there before, so the last one counts. In a set
an element is allowed to vary among values that others have for sure. -/
def Ty.Settled : (t : Ty) → (known : Bool) → List V → Prop
  | .scalar s, known, ds => known = true ∨ s.Blank F ∨ ∃ d ∈ ds, s.is F d = true
  | .vector t, _, ds => ∀ d, ds.reverse.find? J.isArray = some d → ∀ l, D.view d = .array l →
      ∀ c ∈ visited l, t.Settled false [c]
  | .set t, _, ds | .unorderedSet t, _, ds =>
    ∀ d, ds.reverse.find? J.isArray = some d → ∀ l, D.view d = .array l →
      ∀ c ∈ visited l, ∀ x ∈ t.Values fresh D c,
        ∃ c' ∈ visited l, t.Settled false [c'] ∧ x ∈ t.Values fresh D c'
  | .map k _ t, _, ds | .unorderedMap k t, _, ds =>
    ∀ d, ds.reverse.find? J.isObject = some d → ∀ m, D.view d = .object m →
      ∀ key, t.Settled true (docsOf k.parse key m)
  | .struct fields, known, ds => fields.Settled known ds
def Fields.Settled : (fields : Fields) → (known : Bool) → List V → Prop
  | .last name t, known, ds => t.Settled known (ds.filterMap fun d => (J.member d name).toOption)
  | .cons name t rest, known, ds =>
    t.Settled known (ds.filterMap fun d => (J.member d name).toOption) ∧ rest.Settled known ds
end

/-- What an object can hold that was initialised, or declared only. -/
def Starts (initial : Set α) : (known : Bool) → Set α → Prop
  | true, W => ∃ w, W = {w}
  | false, W => W = initial

section
omit J N

theorem Starts.singleton {initial : Set α} (w : α) : Starts initial true {w} := ⟨w, rfl⟩

theorem Starts.declared (initial : Set α) : Starts initial false initial := rfl

theorem Starts.nonempty {initial W : Set α} (h : Starts initial known W)
    (hinitial : initial.Nonempty) : W.Nonempty := by
  cases known with
  | true =>
    obtain ⟨w, rfl⟩ := h
    exact ⟨w, rfl⟩
  | false =>
    obtain rfl : W = initial := h
    exact hinitial

theorem Starts.subsingleton {initial W : Set α} (h : Starts initial known W)
    (hinitial : initial.Subsingleton) : W.Subsingleton := by
  cases known with
  | true =>
    obtain ⟨w, rfl⟩ := h
    exact Set.subsingleton_singleton
  | false =>
    obtain rfl : W = initial := h
    exact hinitial

theorem Starts.split {A : Set α} {B : Set β} {W : Set (α × β)} (h : Starts (A ×ˢ B) known W) :
    ∃ W₁ W₂, W = W₁ ×ˢ W₂ ∧ Starts A known W₁ ∧ Starts B known W₂ := by
  cases known with
  | true =>
    obtain ⟨w, rfl⟩ := h
    exact ⟨{w.1}, {w.2}, Set.singleton_prod_singleton.symm, ⟨w.1, rfl⟩, w.2, rfl⟩
  | false =>
    obtain rfl : W = A ×ˢ B := h
    exact ⟨A, B, rfl, rfl, rfl⟩

end

-- ---------------------------------------------------------------------------
-- The results are those of the code
-- ---------------------------------------------------------------------------

omit J in
theorem last_congr {ds : List V} {p : V → Bool} {B B' : V → Set α} {W : Set α}
    (h : ∀ d ∈ ds, B d = B' d) :
    ((ds.reverse.find? p).map B).getD W = ((ds.reverse.find? p).map B').getD W := by
  refine congrArg (Option.getD · W) (Option.map_congr fun d hd => h d ?_)
  exact List.mem_reverse.mp (List.mem_of_find?_eq_some hd)

section
variable {fresh D}

section
variable {t : Ty} {A : V → Set (t.Val F)} (hA : ∀ c, t.Safe D c → t.Leaves fresh c = A c)
include hA

theorem vector_results (hsafe : (Ty.vector t).Safe D d) :
    {out : List (t.Val F) | ∃ l xs, D.view d = .array l ∧
        Choice (t.Leaves fresh) (visited l) xs ∧ out = xs.foldl (fun l x => l ++ [x]) []} =
      {out | ∃ l, D.view d = .array l ∧ Choice A (visited l) out} := by
  ext out
  refine exists_congr fun l => ?_
  simp only [foldl_snoc, List.nil_append, exists_and_left, exists_eq_right']
  exact and_congr_right fun hl => Lib.choice_congr fun c hc => hA c (hsafe l hl c hc)

theorem set_results (hsafe : (Ty.set t).Safe D d) :
    {out : Finset (t.Val F) | ∃ l xs, D.view d = .array l ∧
        Choice (t.Leaves fresh) (visited l) xs ∧ out = xs.foldl (fun s x => insert x s) ∅} =
      {out | ∃ l xs, D.view d = .array l ∧ Choice A (visited l) xs ∧ out = xs.toFinset} := by
  ext out
  refine exists_congr fun l => exists_congr fun xs => and_congr_right fun hl => ?_
  rw [foldl_insert, Finset.empty_union]
  exact and_congr_left' (Lib.choice_congr fun c hc => hA c (hsafe l hl c hc))

end

theorem docsOf_safe {k : Key} {t : Ty} (hsafe : (Ty.unorderedMap k t).Safe D d)
    (hm : D.view d = .object m) (key : k.Val) : ∀ c ∈ docsOf k.parse key m, t.Safe D c := by
  intro c hc
  obtain ⟨q, hq, hqc⟩ := List.mem_filterMap.mp hc
  split at hqc
  · split at hqc
    · cases hqc
      exact (hsafe m hm q hq).2
    · cases hqc
  · cases hqc

theorem map_results {k : Key} {t : Ty} {S : List V → Set (t.Val F)}
    (hS : ∀ ds, (∀ d ∈ ds, t.Safe D d) → outcomes (t.May fresh) ds {fresh t} = S ds)
    (hsafe : (Ty.unorderedMap k t).Safe D d) :
    {out | ∃ m, D.view d = .object m ∧ MayMembers k.parse (t.May fresh) (fresh t) m ∅ out} =
      {out | ∃ m, D.view d = .object m ∧
        ∀ key, EntryIn S (docsOf k.parse key m) (out.lookup key)} := by
  ext out
  refine exists_congr fun m => and_congr_right fun hm => ?_
  refine (mayMembers_iff_entries (fun q hq => (hsafe m hm q hq).1) (fresh t) out).trans ?_
  refine forall_congr' fun key => ?_
  rw [EntryIn, EntryIn, hS _ (docsOf_safe hsafe hm key)]

theorem Fields.safe_last {name : Str} {t : Ty} {ds : List V}
    (h : ∀ d ∈ ds, ∃ m, (D.view d).members? = some m ∧ (Fields.last name t).Safe D m) :
    ∀ d ∈ ds, ∃ c, J.member d name = .ok c ∧ t.Safe D c := by
  intro d hd
  obtain ⟨m, hm, hs⟩ := h d hd
  exact member_safe D hm hs

theorem Fields.safe_cons {name : Str} {t : Ty} {rest : Fields} {ds : List V}
    (h : ∀ d ∈ ds, ∃ m, (D.view d).members? = some m ∧ (Fields.cons name t rest).Safe D m) :
    (∀ d ∈ ds, ∃ m, (D.view d).members? = some m ∧ (Fields.last name t).Safe D m) ∧
      ∀ d ∈ ds, ∃ m, (D.view d).members? = some m ∧ rest.Safe D m := by
  constructor
  all_goals
    intro d hd
    obtain ⟨m, hm, hfirst, hrest⟩ := h d hd
  · exact ⟨m, hm, hfirst⟩
  · exact ⟨m, hm, hrest⟩

theorem field_outcomes {name : Str} {t : Ty} {W : Set (t.Val F)}
    (hsafe : ∀ d ∈ ds, ∃ c, J.member d name = .ok c ∧ t.Safe D c) :
    outcomes ((Fields.last name t).May fresh) ds W =
        outcomes (t.May fresh) (ds.filterMap fun d => (J.member d name).toOption) W ∧
      ∀ c ∈ ds.filterMap (fun d => (J.member d name).toOption), t.Safe D c := by
  constructor
  · refine Lib.outcomes_filterMap fun d hd => ?_
    obtain ⟨c, hc, -⟩ := hsafe d hd
    refine ⟨c, by rw [hc]; rfl, fun (w x : t.Val F) => (Fields.may_last fresh).trans ?_⟩
    simp [hc]
  · intro c hc
    obtain ⟨d, hd, hdc⟩ := List.mem_filterMap.mp hc
    obtain ⟨c', hc', hs⟩ := hsafe d hd
    rw [hc'] at hdc
    cases hdc
    exact hs

end

mutual
theorem Ty.outcomes_eq : (t : Ty) → {known : Bool} → {ds : List V} → {W : Set (t.Val F)} →
    (∀ d ∈ ds, t.Safe D d) → Starts {w | t.Initial w} known W →
      outcomes (t.May fresh) ds W = t.Results fresh D W ds
  | .scalar s, _, _, _, hsafe, hW =>
    Lib.outcomes_resets (s.may_resets fresh) (fun d hd => Ty.May.exists fresh D (hsafe d hd))
      (hW.nonempty (Ty.exists_initial fresh _))
  | .vector t, _, _, _, hsafe, hW =>
    (Lib.outcomes_resets (array_may_resets fresh D t _ _)
      (fun d hd => Ty.May.exists fresh D (hsafe d hd))
      (hW.nonempty (Ty.exists_initial fresh _))).trans (last_congr fun d hd =>
        vector_results t.leaves_eq_values (hsafe d hd))
  | .set t, _, _, _, hsafe, hW | .unorderedSet t, _, _, _, hsafe, hW =>
    (Lib.outcomes_resets (array_may_resets fresh D t _ _)
      (fun d hd => Ty.May.exists fresh D (hsafe d hd))
      (hW.nonempty (Ty.exists_initial fresh _))).trans (last_congr fun d hd =>
        set_results t.leaves_eq_values (hsafe d hd))
  | .map k _ t, _, _, _, hsafe, hW | .unorderedMap k t, _, _, _, hsafe, hW =>
    (Lib.outcomes_resets (map_may_resets fresh D k t)
      (fun d hd => Ty.May.exists fresh D (hsafe d hd))
      (hW.nonempty (Ty.exists_initial fresh _))).trans (last_congr fun d hd =>
        map_results (fun _ hds => t.outcomes_eq hds (.singleton _)) (hsafe d hd))
  | .struct fields, _, _, _, hsafe, hW => by
    rw [Ty.may_struct]
    exact fields.outcomes_eq hsafe hW
theorem Ty.leaves_eq_values (t : Ty) (c : V) (hc : t.Safe D c) :
    t.Leaves fresh c = t.Values fresh D c := by
  rw [t.leaves_eq]
  exact t.outcomes_eq (List.forall_mem_singleton.mpr hc) (.declared _)
theorem Fields.outcomes_eq : (fields : Fields) → {known : Bool} → {ds : List V} →
    {W : Set (fields.Val F)} →
    (∀ d ∈ ds, ∃ m, (D.view d).members? = some m ∧ fields.Safe D m) →
    Starts {w | fields.Initial w} known W →
      outcomes (fields.May fresh) ds W = fields.Results fresh D W ds
  | .last name t, _, ds, _, hsafe, hW => by
    obtain ⟨hfield, hsafe⟩ := field_outcomes (Fields.safe_last hsafe)
    exact hfield.trans (t.outcomes_eq hsafe hW)
  | .cons name t rest, known, ds, W, hsafe, hW => by
    obtain ⟨W₁, W₂, rfl, hW₁, hW₂⟩ := hW.split
    obtain ⟨hfirst, hrest⟩ := Fields.safe_cons hsafe
    obtain ⟨hfield, hsafe⟩ := field_outcomes (Fields.safe_last hfirst)
    have hfst : Prod.fst '' (W₁ ×ˢ W₂) = W₁ :=
      Set.fst_image_prod _ (hW₂.nonempty (rest.exists_initial fresh))
    have hsnd : Prod.snd '' (W₁ ×ˢ W₂) = W₂ :=
      Set.snd_image_prod (hW₁.nonempty (t.exists_initial fresh)) _
    refine (Lib.outcomes_prod (Fields.may_cons fresh name t rest) ds W₁ W₂).trans ?_
    refine (congrArg₂ (· ×ˢ ·) (hfield.trans (t.outcomes_eq hsafe hW₁))
      (rest.outcomes_eq hrest hW₂)).trans ?_
    show _ = t.Results fresh D (Prod.fst '' (W₁ ×ˢ W₂)) _ ×ˢ
      rest.Results fresh D (Prod.snd '' (W₁ ×ˢ W₂)) ds
    rw [hfst, hsnd]
    rfl
end

-- ---------------------------------------------------------------------------
-- Settled documents have one result
-- ---------------------------------------------------------------------------

section
variable {fresh D}

omit J in
/-- A document replaces what was there or leaves it, so the last one that replaces
decides. -/
theorem container_settled_iff {p : V → Bool} {B : V → Set α} {R : V → α → α → Prop} {W : Set α}
    {S : V → Prop} (hR : Resets R p B) (htotal : ∀ d ∈ ds, ∀ w, ∃ x, R d w x) (hW : W.Nonempty)
    (hW' : W.Subsingleton) (hB : ∀ d ∈ ds, (B d).Subsingleton ↔ S d) :
    (outcomes R ds W).Subsingleton ↔ ∀ d, ds.reverse.find? p = some d → S d := by
  rw [Lib.outcomes_subsingleton_iff hR htotal hW, and_iff_left fun _ => hW']
  refine forall_congr' fun d => imp_congr_right fun hd => hB d ?_
  exact List.mem_reverse.mp (List.mem_of_find?_eq_some hd)

variable {t : Ty} {S : V → Prop} (hS : ∀ c, t.Safe D c → ((t.Leaves fresh c).Subsingleton ↔ S c))
include hS

theorem vector_settled_iff (hsafe : (Ty.vector t).Safe D d) :
    {out | ∃ l xs, D.view d = .array l ∧ Choice (t.Leaves fresh) (visited l) xs ∧
        out = xs.foldl (fun l x => l ++ [x]) []}.Subsingleton ↔
      ∀ l, D.view d = .array l → ∀ c ∈ visited l, S c := by
  simp only [foldl_snoc, List.nil_append, exists_and_left, exists_eq_right']
  refine (Lib.exists_eq_subsingleton_iff View.array.inj).trans (forall₂_congr fun l hl => ?_)
  have hsafe := hsafe l hl
  rw [Lib.choices_subsingleton_iff fun c hc => t.leaves_nonempty fresh D (hsafe c hc)]
  exact forall₂_congr fun c hc => hS c (hsafe c hc)

theorem set_settled_iff (hsafe : (Ty.set t).Safe D d) :
    {out | ∃ l xs, D.view d = .array l ∧ Choice (t.Leaves fresh) (visited l) xs ∧
        out = xs.foldl (fun s x => insert x s) (∅ : Finset (t.Val F))}.Subsingleton ↔
      ∀ l, D.view d = .array l → ∀ c ∈ visited l, ∀ x ∈ t.Values fresh D c,
        ∃ c' ∈ visited l, S c' ∧ x ∈ t.Values fresh D c' := by
  simp only [foldl_insert, Finset.empty_union, exists_and_left]
  refine (Lib.exists_eq_subsingleton_iff View.array.inj).trans (forall₂_congr fun l hl => ?_)
  have hsafe := hsafe l hl
  rw [Lib.choices_toFinset_subsingleton_iff fun c hc => t.leaves_nonempty fresh D (hsafe c hc)]
  refine forall₂_congr fun c hc => ?_
  rw [t.leaves_eq_values fresh D c (hsafe c hc)]
  refine forall₂_congr fun x _ => exists_congr fun c' => and_congr_right fun hc' => ?_
  rw [hS c' (hsafe c' hc'), t.leaves_eq_values fresh D c' (hsafe c' hc')]

end

theorem map_settled_iff {k : Key} {t : Ty} {S : List V → Prop}
    (hS : ∀ ds, (∀ d ∈ ds, t.Safe D d) →
      ((outcomes (t.May fresh) ds {fresh t}).Subsingleton ↔ S ds))
    (hmap : (Ty.unorderedMap k t).Safe D d) :
    {out | ∃ m, D.view d = .object m ∧
        MayMembers k.parse (t.May fresh) (fresh t) m ∅ out}.Subsingleton ↔
      ∀ m, D.view d = .object m → ∀ key, S (docsOf k.parse key m) := by
  refine (Lib.exists_eq_subsingleton_iff View.object.inj).trans (forall₂_congr fun m hm => ?_)
  have hsafe := hmap m hm
  rw [mayMembers_subsingleton_iff (fresh t) (fun q hq => (hsafe q hq).1)
    fun q hq => Ty.May.exists fresh D (hsafe q hq).2]
  exact forall_congr' fun key => hS _ (docsOf_safe hmap hm key)

theorem Scalar.settled_iff {s : Scalar} {W : Set ((Ty.scalar s).Val F)}
    (hsafe : ∀ d ∈ ds, (Ty.scalar s).Safe D d) (hW : Starts {w | (Ty.scalar s).Initial w} known W) :
    (outcomes ((Ty.scalar s).May fresh) ds W).Subsingleton ↔
      (Ty.scalar s).Settled fresh D known ds := by
  have hvalue (d : V) : {x | s.as F d = .ok x}.Subsingleton := by
    intro x hx y hy
    exact Except.ok.inj (hx.symm.trans hy)
  refine (Lib.outcomes_subsingleton_iff (s.may_resets fresh)
    (fun d hd => Ty.May.exists fresh D (hsafe d hd)) (hW.nonempty (Ty.exists_initial fresh _))).trans
    ((and_iff_right fun d _ => hvalue d).trans ?_)
  have hnone : ds.reverse.find? (s.is F) = none ↔ ¬∃ d ∈ ds, s.is F d = true := by simp
  have hstart : W.Subsingleton ↔ known = true ∨ s.Blank F := by
    cases known with
    | true =>
      obtain ⟨w, rfl⟩ := hW
      exact iff_of_true Set.subsingleton_singleton (.inl rfl)
    | false =>
      obtain rfl : W = _ := hW
      exact ⟨.inr, fun h => h.resolve_left Bool.false_ne_true⟩
  rw [hnone, hstart, Ty.Settled]
  by_cases hpass : ∃ d ∈ ds, s.is F d = true
  · exact iff_of_true (absurd hpass) (.inr (.inr hpass))
  · simp [hpass]

theorem field_settled_iff {name : Str} {t : Ty} {W : Set (t.Val F)} {S : List V → Prop}
    (hsafe : ∀ d ∈ ds, ∃ c, J.member d name = .ok c ∧ t.Safe D c)
    (hS : ∀ ds, (∀ d ∈ ds, t.Safe D d) → ((outcomes (t.May fresh) ds W).Subsingleton ↔ S ds)) :
    (outcomes ((Fields.last name t).May fresh) ds W).Subsingleton ↔
      S (ds.filterMap fun d => (J.member d name).toOption) := by
  obtain ⟨hfield, hsafe⟩ := field_outcomes hsafe
  exact (iff_of_eq (congrArg Set.Subsingleton hfield)).trans (hS _ hsafe)

mutual
theorem Ty.settled_iff : (t : Ty) → {known : Bool} → {ds : List V} → {W : Set (t.Val F)} →
    (∀ d ∈ ds, t.Safe D d) → Starts {w | t.Initial w} known W →
      ((outcomes (t.May fresh) ds W).Subsingleton ↔ t.Settled fresh D known ds)
  | .scalar _, _, _, _, hsafe, hW => Scalar.settled_iff fresh D hsafe hW
  | .vector t, _, _, _, hsafe, hW =>
    container_settled_iff (array_may_resets fresh D t _ _)
      (fun d hd => Ty.May.exists fresh D (hsafe d hd)) (hW.nonempty (Ty.exists_initial fresh _))
      (hW.subsingleton fun _ hx _ hy => hx.trans hy.symm)
      fun d hd => vector_settled_iff (t.leaves_settled_iff) (hsafe d hd)
  | .set t, _, _, _, hsafe, hW | .unorderedSet t, _, _, _, hsafe, hW =>
    container_settled_iff (array_may_resets fresh D t _ _)
      (fun d hd => Ty.May.exists fresh D (hsafe d hd)) (hW.nonempty (Ty.exists_initial fresh _))
      (hW.subsingleton fun _ hx _ hy => hx.trans hy.symm)
      fun d hd => set_settled_iff (t.leaves_settled_iff) (hsafe d hd)
  | .map k _ t, _, _, _, hsafe, hW | .unorderedMap k t, _, _, _, hsafe, hW =>
    container_settled_iff (map_may_resets fresh D k t)
      (fun d hd => Ty.May.exists fresh D (hsafe d hd)) (hW.nonempty (Ty.exists_initial fresh _))
      (hW.subsingleton fun _ hx _ hy => hx.trans hy.symm)
      fun d hd => map_settled_iff fresh D (fun _ hds => t.settled_iff hds (.singleton _)) (hsafe d hd)
  | .struct fields, known, ds, W, hsafe, hW => by
    rw [Ty.may_struct]
    exact fields.settled_iff hsafe hW
theorem Ty.leaves_settled_iff (t : Ty) (c : V) (hc : t.Safe D c) :
    (t.Leaves fresh c).Subsingleton ↔ t.Settled fresh D false [c] := by
  rw [t.leaves_eq]
  exact t.settled_iff (List.forall_mem_singleton.mpr hc) (.declared _)
theorem Fields.settled_iff : (fields : Fields) → {known : Bool} → {ds : List V} →
    {W : Set (fields.Val F)} →
    (∀ d ∈ ds, ∃ m, (D.view d).members? = some m ∧ fields.Safe D m) →
    Starts {w | fields.Initial w} known W →
      ((outcomes (fields.May fresh) ds W).Subsingleton ↔ fields.Settled fresh D known ds)
  | .last name t, known, ds, W, hsafe, hW => by
    exact field_settled_iff fresh D (Fields.safe_last hsafe) fun _ hds => t.settled_iff hds hW
  | .cons name t rest, known, ds, W, hsafe, hW => by
    obtain ⟨W₁, W₂, rfl, hW₁, hW₂⟩ := hW.split
    obtain ⟨hfirst, hrest⟩ := Fields.safe_cons hsafe
    have htotal {fields : Fields}
        (h : ∀ d ∈ ds, ∃ m, (D.view d).members? = some m ∧ fields.Safe D m) :
        ∀ d ∈ ds, ∀ w, ∃ x, fields.May fresh d w x := by
      intro d hd
      obtain ⟨m, hm, hs⟩ := h d hd
      exact Fields.May.exists fresh D hm hs
    have hprod := Lib.outcomes_prod (Fields.may_cons fresh name t rest) ds W₁ W₂
    refine (iff_of_eq (congrArg Set.Subsingleton hprod)).trans ((Lib.prod_subsingleton_iff
      (Lib.outcomes_nonempty (htotal hfirst) (hW₁.nonempty (t.exists_initial fresh)))
      (Lib.outcomes_nonempty (htotal hrest) (hW₂.nonempty (rest.exists_initial fresh)))).trans ?_)
    exact and_congr (field_settled_iff fresh D (Fields.safe_last hfirst)
      fun _ hds => t.settled_iff hds hW₁) (rest.settled_iff hrest hW₂)
end

-- ---------------------------------------------------------------------------
-- Two runs
-- ---------------------------------------------------------------------------

omit D in
/-- Two calls that return leave the same in the target, whatever their temporaries
held. -/
def Ty.Hides (t : Ty) (v : V) : Prop :=
  ∀ L L' : Locals F, L.Initial fresh → L'.Initial fresh → ∀ obj r r',
    t.unmarshal L v obj = .ok r → t.unmarshal L' v obj = .ok r' → r.2 = r'.2

theorem Ty.hides_iff (t : Ty) (v : V) :
    t.Hides fresh v ↔ (t.Safe D v → t.Settled fresh D true [v]) := by
  have hsettled (hsafe : t.Safe D v) (obj : t.Val F) :
      (outcomes (t.May fresh) [v] {obj}).Subsingleton ↔ t.Settled fresh D true [v] :=
    t.settled_iff fresh D (List.forall_mem_singleton.mpr hsafe) (.singleton obj)
  constructor
  · intro hides hsafe
    obtain ⟨obj, -⟩ := t.exists_initial fresh
    refine (hsettled hsafe obj).mp fun x hx y hy => ?_
    obtain ⟨_, rfl, L, hL, ok, hx⟩ := Lib.mem_outcomes_singleton.mp hx
    obtain ⟨_, rfl, L', hL', ok', hy⟩ := Lib.mem_outcomes_singleton.mp hy
    exact hides L L' hL hL' _ _ _ hx hy
  · intro h L L' hL hL' obj r r' hr hr'
    have hsafe := (t.unmarshal_returns D L v obj).mp ⟨r, hr⟩
    refine (hsettled hsafe obj).mpr (h hsafe) ?_ ?_
    · exact Lib.mem_outcomes_singleton.mpr ⟨obj, rfl, L, hL, r.1, hr⟩
    · exact Lib.mem_outcomes_singleton.mpr ⟨obj, rfl, L', hL', r'.1, hr'⟩

end

mutual
theorem Ty.zero_initial : (t : Ty) → t.Initial t.zero
  | .scalar s => by
    cases s with
    | string => rfl
    | _ => exact trivial
  | .vector _ | .set _ | .unorderedSet _ | .map _ _ _ | .unorderedMap _ _ => rfl
  | .struct fields => fields.zero_initial
theorem Fields.zero_initial : (fields : Fields) → fields.Initial fields.zero
  | .last _ t => t.zero_initial
  | .cons _ t rest => ⟨t.zero_initial, rest.zero_initial⟩
end

theorem Locals.holding_initial (n : Int32) : (Locals.holding n).Initial Ty.zero := by
  refine ⟨fun path i t => ?_, rfl⟩
  cases t with
  | scalar s =>
    cases s with
    | string => rfl
    | _ => exact trivial
  | _ => exact Ty.zero_initial _

end CppUtil.JsonHelper

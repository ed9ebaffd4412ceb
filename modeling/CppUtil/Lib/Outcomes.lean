import Mathlib.Data.Finset.Dedup
import Mathlib.Data.List.Forall2
import Mathlib.Data.List.Induction
import Mathlib.Data.Set.Prod

/-!
# Outcomes of steps that are not determined

A step is a relation between what was there and what is there afterwards.
`outcomes R ds W` is what a sequence of steps can make of a start in `W`. Where a
step either replaces everything or does nothing, the last one that replaces
decides (`outcomes_subsingleton_iff`).

The second part is about choosing one value each from a list of sets: when is
there only one list, or one set of values, to get?
-/

namespace CppUtil.Lib

section
variable {R : δ → α → α → Prop}

def Chain (R : δ → α → α → Prop) : List δ → α → α → Prop
  | [], w, x => x = w
  | d :: ds, w, x => ∃ y, R d w y ∧ Chain R ds y x

def outcomes (R : δ → α → α → Prop) (ds : List δ) (W : Set α) : Set α :=
  {x | ∃ w ∈ W, Chain R ds w x}

theorem chain_concat : Chain R (ds ++ [d]) w x ↔ ∃ y, Chain R ds w y ∧ R d y x := by
  induction ds generalizing w with
  | nil => simp [Chain]
  | cons e ds ih =>
    simp only [List.cons_append, Chain, ih]
    constructor
    · rintro ⟨y, hy, z, hz, hx⟩
      exact ⟨z, ⟨y, hy, hz⟩, hx⟩
    · rintro ⟨z, ⟨y, hy, hz⟩, hx⟩
      exact ⟨y, hy, z, hz, hx⟩

theorem Chain.exists (htotal : ∀ d ∈ ds, ∀ w, ∃ x, R d w x) (w : α) : ∃ x, Chain R ds w x := by
  induction ds generalizing w with
  | nil => exact ⟨w, rfl⟩
  | cons d ds ih =>
    obtain ⟨y, hy⟩ := htotal d List.mem_cons_self w
    obtain ⟨x, hx⟩ := ih (fun d hd => htotal d (List.mem_cons_of_mem _ hd)) y
    exact ⟨x, y, hy, hx⟩

theorem outcomes_nonempty (htotal : ∀ d ∈ ds, ∀ w, ∃ x, R d w x) (hW : W.Nonempty) :
    (outcomes R ds W).Nonempty := by
  obtain ⟨w, hw⟩ := hW
  obtain ⟨x, hx⟩ := Chain.exists htotal w
  exact ⟨x, w, hw, hx⟩

theorem mem_outcomes_singleton : x ∈ outcomes R [d] W ↔ ∃ w ∈ W, R d w x := by
  simp [outcomes, Chain]

/-- A step that `p` picks leaves a member of `B`, any other one does nothing. -/
def Resets (R : δ → α → α → Prop) (p : δ → Bool) (B : δ → Set α) : Prop :=
  ∀ d w x, R d w x ↔ p d = true ∧ x ∈ B d ∨ p d = false ∧ x = w

theorem outcomes_resets (hR : Resets R p B) (htotal : ∀ d ∈ ds, ∀ w, ∃ x, R d w x)
    (hW : W.Nonempty) : outcomes R ds W = ((ds.reverse.find? p).map B).getD W := by
  induction ds using List.reverseRecOn with
  | nil => simp [outcomes, Chain]
  | append_singleton ds d ih =>
    have hbefore : ∀ e ∈ ds, ∀ w, ∃ x, R e w x :=
      fun e he => htotal e (List.mem_append_left _ he)
    have hstep : outcomes R (ds ++ [d]) W = {x | ∃ y ∈ outcomes R ds W, R d y x} := by
      ext x
      simp only [outcomes, chain_concat, Set.mem_ofPred_eq]
      constructor
      · rintro ⟨w, hw, y, hy, hx⟩
        exact ⟨y, ⟨w, hw, hy⟩, hx⟩
      · rintro ⟨y, ⟨w, hw, hy⟩, hx⟩
        exact ⟨w, hw, y, hy, hx⟩
    rw [hstep, List.reverse_append, List.reverse_singleton, List.singleton_append, List.find?_cons]
    ext x
    cases hd : p d with
    | true =>
      obtain ⟨y, hy⟩ := outcomes_nonempty hbefore hW
      simpa [hR d, hd] using fun _ => ⟨y, hy⟩
    | false => simp [hR d, hd, ← ih hbefore]

/-- Only the last step that `p` picks matters, and the start if there is none. -/
theorem outcomes_subsingleton_iff (hR : Resets R p B) (htotal : ∀ d ∈ ds, ∀ w, ∃ x, R d w x)
    (hW : W.Nonempty) : (outcomes R ds W).Subsingleton ↔
      (∀ d, ds.reverse.find? p = some d → (B d).Subsingleton) ∧
      (ds.reverse.find? p = none → W.Subsingleton) := by
  rw [outcomes_resets hR htotal hW]
  cases ds.reverse.find? p <;> simp

theorem chain_filterMap {R' : γ → α → α → Prop} {f : δ → Option γ}
    (h : ∀ d ∈ ds, ∃ c, f d = some c ∧ ∀ w x, R d w x ↔ R' c w x) :
    Chain R ds w x ↔ Chain R' (ds.filterMap f) w x := by
  induction ds generalizing w with
  | nil => rfl
  | cons d ds ih =>
    obtain ⟨c, hc, hstep⟩ := h d List.mem_cons_self
    rw [List.filterMap_cons_some hc]
    simp only [Chain, hstep, ih fun e he => h e (List.mem_cons_of_mem _ he)]

theorem outcomes_filterMap {R' : γ → α → α → Prop} {f : δ → Option γ}
    (h : ∀ d ∈ ds, ∃ c, f d = some c ∧ ∀ w x, R d w x ↔ R' c w x) :
    outcomes R ds W = outcomes R' (ds.filterMap f) W := by
  simp only [outcomes, chain_filterMap h]

theorem outcomes_prod {R₁ : δ → α → α → Prop} {R₂ : δ → β → β → Prop}
    {R : δ → α × β → α × β → Prop} (hR : ∀ d w x, R d w x ↔ R₁ d w.1 x.1 ∧ R₂ d w.2 x.2)
    (ds : List δ) (W₁ : Set α) (W₂ : Set β) :
    outcomes R ds (W₁ ×ˢ W₂) = outcomes R₁ ds W₁ ×ˢ outcomes R₂ ds W₂ := by
  have hchain (w x) : Chain R ds w x ↔ Chain R₁ ds w.1 x.1 ∧ Chain R₂ ds w.2 x.2 := by
    induction ds generalizing w with
    | nil => exact Prod.ext_iff
    | cons d ds ih =>
      simp only [Chain, hR, ih]
      constructor
      · rintro ⟨y, ⟨h₁, h₂⟩, hx₁, hx₂⟩
        exact ⟨⟨y.1, h₁, hx₁⟩, y.2, h₂, hx₂⟩
      · rintro ⟨⟨y₁, h₁, hx₁⟩, y₂, h₂, hx₂⟩
        exact ⟨(y₁, y₂), ⟨h₁, h₂⟩, hx₁, hx₂⟩
  ext x
  constructor
  · rintro ⟨w, ⟨hw₁, hw₂⟩, hx⟩
    obtain ⟨hx₁, hx₂⟩ := (hchain w x).mp hx
    exact ⟨⟨w.1, hw₁, hx₁⟩, w.2, hw₂, hx₂⟩
  · rintro ⟨⟨w₁, hw₁, hx₁⟩, w₂, hw₂, hx₂⟩
    exact ⟨(w₁, w₂), ⟨hw₁, hw₂⟩, (hchain _ x).mpr ⟨hx₁, hx₂⟩⟩

theorem prod_subsingleton_iff {A : Set α} {B : Set β} (hA : A.Nonempty) (hB : B.Nonempty) :
    (A ×ˢ B).Subsingleton ↔ A.Subsingleton ∧ B.Subsingleton := by
  refine ⟨fun h => ⟨fun x hx y hy => ?_, fun x hx y hy => ?_⟩, fun h => h.1.prod h.2⟩
  · obtain ⟨b, hb⟩ := hB
    exact congrArg Prod.fst (h (Set.mk_mem_prod hx hb) (Set.mk_mem_prod hy hb))
  · obtain ⟨a, ha⟩ := hA
    exact congrArg Prod.snd (h (Set.mk_mem_prod ha hx) (Set.mk_mem_prod ha hy))

theorem exists_eq_subsingleton_iff {f : β → γ} (hf : ∀ {b b'}, f b = f b' → b = b') {c : γ}
    {P : β → α → Prop} : {x | ∃ b, c = f b ∧ P b x}.Subsingleton ↔
      ∀ b, c = f b → {x | P b x}.Subsingleton := by
  constructor
  · intro h b hb x hx y hy
    exact h ⟨b, hb, hx⟩ ⟨b, hb, hy⟩
  · rintro h x ⟨b, hb, hx⟩ y ⟨b', hb', hy⟩
    obtain rfl := hf (hb.symm.trans hb')
    exact h b hb hx hy

end

-- ---------------------------------------------------------------------------
-- Choosing from a list of sets
-- ---------------------------------------------------------------------------

section
variable {A : γ → Set α}

abbrev Choice (A : γ → Set α) (cs : List γ) (xs : List α) : Prop :=
  List.Forall₂ (fun c x => x ∈ A c) cs xs

theorem choice_congr {B : γ → Set α} (h : ∀ c ∈ cs, A c = B c) :
    Choice A cs xs ↔ Choice B cs xs := by
  induction cs generalizing xs with
  | nil => simp
  | cons c cs ih =>
    obtain ⟨hc, hcs⟩ := List.forall_mem_cons.mp h
    simp only [List.forall₂_cons_left_iff, hc, ih hcs]

theorem Choice.exists_mem (h : Choice A cs xs) (hc : c ∈ cs) : ∃ x ∈ xs, x ∈ A c := by
  induction h with
  | nil => cases hc
  | cons hx _ ih =>
    rcases List.mem_cons.mp hc with rfl | hc
    · exact ⟨_, List.mem_cons_self, hx⟩
    · obtain ⟨x, hmem, hx⟩ := ih hc
      exact ⟨x, List.mem_cons_of_mem _ hmem, hx⟩

theorem Choice.mem_exists (h : Choice A cs xs) (hx : x ∈ xs) : ∃ c ∈ cs, x ∈ A c := by
  induction h with
  | nil => cases hx
  | cons hc _ ih =>
    rcases List.mem_cons.mp hx with rfl | hx
    · exact ⟨_, List.mem_cons_self, hc⟩
    · obtain ⟨c, hmem, hc⟩ := ih hx
      exact ⟨c, List.mem_cons_of_mem _ hmem, hc⟩

theorem exists_choice (h : ∀ c ∈ cs, (A c).Nonempty) : ∃ xs, Choice A cs xs := by
  induction cs with
  | nil => exact ⟨[], .nil⟩
  | cons c cs ih =>
    obtain ⟨x, hx⟩ := h c List.mem_cons_self
    obtain ⟨xs, hxs⟩ := ih fun c hc => h c (List.mem_cons_of_mem _ hc)
    exact ⟨x :: xs, .cons hx hxs⟩

theorem exists_choice_mem (h : ∀ c ∈ cs, (A c).Nonempty) (hc : c ∈ cs) (hx : x ∈ A c) :
    ∃ xs, Choice A cs xs ∧ x ∈ xs := by
  induction cs with
  | nil => cases hc
  | cons d cs ih =>
    have hrest : ∀ c ∈ cs, (A c).Nonempty := fun c hc => h c (List.mem_cons_of_mem _ hc)
    rcases List.mem_cons.mp hc with rfl | hc
    · obtain ⟨xs, hxs⟩ := exists_choice hrest
      exact ⟨x :: xs, .cons hx hxs, List.mem_cons_self⟩
    · obtain ⟨y, hy⟩ := h d List.mem_cons_self
      obtain ⟨xs, hxs, hmem⟩ := ih hrest hc
      exact ⟨y :: xs, .cons hy hxs, List.mem_cons_of_mem _ hmem⟩

theorem choices_subsingleton_iff (h : ∀ c ∈ cs, (A c).Nonempty) :
    {xs | Choice A cs xs}.Subsingleton ↔ ∀ c ∈ cs, (A c).Subsingleton := by
  induction cs with
  | nil => exact iff_of_true (by rintro _ ⟨⟩ _ ⟨⟩; rfl) (by simp)
  | cons c cs ih =>
    have hrest : ∀ c ∈ cs, (A c).Nonempty := fun c hc => h c (List.mem_cons_of_mem _ hc)
    rw [List.forall_mem_cons, ← ih hrest]
    constructor
    · intro hsame
      obtain ⟨x, hx⟩ := h c List.mem_cons_self
      obtain ⟨xs, hxs⟩ := exists_choice hrest
      refine ⟨fun y hy z hz => ?_, fun ys hys zs hzs => ?_⟩
      · exact (List.cons.inj (hsame (.cons hy hxs) (.cons hz hxs))).1
      · exact (List.cons.inj (hsame (.cons hx hys) (.cons hx hzs))).2
    · rintro ⟨hhead, htail⟩ _ ⟨⟩ _ ⟨⟩
      rename_i hy hys _ _ hz hzs
      rw [hhead hy hz, htail hys hzs]

/-- The values chosen are the same set every time if and only if each possible value
is the only one that some set of the list has. -/
theorem choices_toFinset_subsingleton_iff [DecidableEq α] (h : ∀ c ∈ cs, (A c).Nonempty) :
    {s | ∃ xs, Choice A cs xs ∧ s = xs.toFinset}.Subsingleton ↔
      ∀ c ∈ cs, ∀ x ∈ A c, ∃ d ∈ cs, (A d).Subsingleton ∧ x ∈ A d := by
  constructor
  · intro hsame c hc x hx
    by_contra hnone
    -- otherwise every set has a value other than `x`, and `x` can be avoided
    have havoid : ∀ d ∈ cs, (A d \ {x}).Nonempty := by
      intro d hd
      obtain ⟨y, hy⟩ := h d hd
      by_contra hempty
      have honly : ∀ z ∈ A d, z = x := fun z hz => by_contra fun hne => hempty ⟨z, hz, hne⟩
      refine hnone ⟨d, hd, fun z hz z' hz' => (honly z hz).trans (honly z' hz').symm, ?_⟩
      exact honly y hy ▸ hy
    obtain ⟨ys, hys⟩ := exists_choice havoid
    obtain ⟨xs, hxs, hmem⟩ := exists_choice_mem h hc hx
    have hys' : Choice A cs ys := hys.imp fun _ _ hy => hy.1
    have heq : xs.toFinset = ys.toFinset := hsame ⟨xs, hxs, rfl⟩ ⟨ys, hys', rfl⟩
    rw [← List.mem_toFinset, heq, List.mem_toFinset] at hmem
    obtain ⟨d, -, hd⟩ := hys.mem_exists hmem
    exact hd.2 rfl
  · intro hcover
    have hsub {xs ys} (hxs : Choice A cs xs) (hys : Choice A cs ys) :
        xs.toFinset ⊆ ys.toFinset := by
      intro x hx
      obtain ⟨c, hc, hxc⟩ := hxs.mem_exists (List.mem_toFinset.mp hx)
      obtain ⟨d, hd, honly, hxd⟩ := hcover c hc x hxc
      obtain ⟨y, hy, hyd⟩ := hys.exists_mem hd
      rw [honly hxd hyd]
      exact List.mem_toFinset.mpr hy
    rintro _ ⟨xs, hxs, rfl⟩ _ ⟨ys, hys, rfl⟩
    exact (hsub hxs hys).antisymm (hsub hys hxs)

end

end CppUtil.Lib

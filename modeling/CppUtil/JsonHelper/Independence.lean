import CppUtil.JsonHelper.Tree
import CppUtil.JsonHelper.UnmarshalLaws

/-!
# What a successful `Unmarshal` depends on

A call that returns true has overwritten its target at every depth, so neither
the target's previous contents nor those of the temporaries matter
(`unmarshal_forgets_target`).
-/

namespace CppUtil.JsonHelper

open Lang (Str Exn)

variable {V : Type} [J : JsonCpp V]

/-- Where `u` succeeds, `u'` does so with the same result, whatever the two
targets held. -/
def Repeats (u u' : V → α → Except Exn (Bool × α)) : Prop :=
  ∀ j w x, u j w = .ok (true, x) → ∀ w', u' j w' = .ok (true, x)

omit J in
theorem unmarshalScalar_repeats (is : V → Bool) (as : V → Except Exn α) :
    Repeats (unmarshalScalar is as) (unmarshalScalar is as) := by
  intro j w x h w'
  obtain ⟨his, has, -⟩ | ⟨-, hflag, -⟩ := unmarshalScalar_ok_iff.mp h
  · exact unmarshalScalar_ok_iff.mpr (.inl ⟨his, has, rfl⟩)
  · cases hflag

section
variable {u u' : Nat → V → α → Except Exn (Bool × α)} (hu : ∀ i, Repeats (u i) (u' i))
include hu

theorem unmarshalElems_repeats {add : β → α → β}
    (h : unmarshalElems u tmp add root rounds i ret obj = .ok (true, out)) (tmp' : Nat → α) :
    unmarshalElems u' tmp' add root rounds i ret obj = .ok (true, out) := by
  induction rounds generalizing i ret obj with
  | zero => exact h
  | succ rounds ih =>
    simp only [unmarshalElems, bind_ok] at h
    obtain ⟨child, helem, ⟨ok, x⟩, hx, hrest⟩ := h
    obtain ⟨-, rfl⟩ : ret = true ∧ ok = true := by simpa using (unmarshalElems_yields hrest).1
    simp only [unmarshalElems, helem, ok_bind, hu i child _ x hx]
    exact ih hrest

theorem unmarshalArray_repeats (tmp tmp' : Nat → α) (add : β → α → β) (start : β) :
    Repeats (unmarshalArray u tmp add start) (unmarshalArray u' tmp' add start) := by
  intro j w x h w'
  unfold unmarshalArray at h ⊢
  split at h
  · rw [if_pos ‹_›]
    exact unmarshalElems_repeats hu h tmp'
  · cases h

/-- Two names of one key do no harm: the second read overwrites what the first
left. -/
theorem unmarshalMembers_repeats [DecidableEq κ] {parse : Str → Except Exn κ}
    {obj out : Finmap fun _ : κ => α}
    (h : unmarshalMembers parse u fresh root names i ret obj = .ok (true, out)) (fresh' : α) :
    unmarshalMembers parse u' fresh' root names i ret obj = .ok (true, out) := by
  induction names generalizing i ret obj with
  | nil => exact h
  | cons name names ih =>
    simp only [unmarshalMembers, bind_ok] at h
    obtain ⟨child, hmember, key, hkey, ⟨ok, x⟩, hx, hrest⟩ := h
    obtain ⟨-, rfl⟩ : ret = true ∧ ok = true := by simpa using (unmarshalMembers_yields hrest).1
    simp only [unmarshalMembers, hmember, hkey, ok_bind, hu i child _ x hx]
    exact ih hrest

theorem unmarshalMap_repeats [DecidableEq κ] (parse : Str → Except Exn κ) (fresh fresh' : α) :
    Repeats (unmarshalMap parse u fresh) (unmarshalMap parse u' fresh') := by
  intro j w x h w'
  unfold unmarshalMap at h ⊢
  split at h
  · obtain ⟨names, hnames, hrun⟩ := bind_ok.mp h
    rw [if_pos ‹_›, hnames, ok_bind]
    exact unmarshalMembers_repeats hu hrun fresh'
  · cases h

end

variable {F : Floats} [JsonDoubles V F]

mutual
theorem Ty.unmarshal_repeats : (t : Ty) → (L L' : Locals F) →
    Repeats (V := V) (t.unmarshal L) (t.unmarshal L')
  | .scalar s, _, _ => unmarshalScalar_repeats (s.is F) (s.as F)
  | .vector t, L, L' =>
    unmarshalArray_repeats (fun i => t.unmarshal_repeats (L.inner i) (L'.inner i)) _ _ _ _
  | .set t, L, L' | .unorderedSet t, L, L' =>
    unmarshalArray_repeats (fun i => t.unmarshal_repeats (L.inner i) (L'.inner i)) _ _ _ _
  | .map _ _ t, L, L' | .unorderedMap _ t, L, L' =>
    unmarshalMap_repeats (fun i => t.unmarshal_repeats (L.inner i) (L'.inner i)) _ _ _
  | .struct fields, L, L' => fun _ _ _ h w' => (fields.unmarshal_repeats L L' h).2 w'
theorem Fields.unmarshal_repeats : (fields : Fields) → (L L' : Locals F) → {w x : fields.Val F} →
    fields.unmarshal L root w ret = .ok (true, x) →
      ret = true ∧ ∀ w', fields.unmarshal (V := V) L' root w' ret = .ok (true, x)
  | .last name t, L, L', w, x, h => by
    simp only [Fields.unmarshal, bind_ok] at h
    obtain ⟨child, hmember, ⟨ok, y⟩, hy, hout⟩ := h
    obtain ⟨hflag, rfl⟩ := Prod.mk.inj (Except.ok.inj hout)
    obtain ⟨rfl, rfl⟩ := Bool.and_eq_true_iff.mp hflag
    refine ⟨rfl, fun w' => ?_⟩
    simp only [Fields.unmarshal, hmember, ok_bind, t.unmarshal_repeats _ (L'.inner 0) child _ y hy w']
    rfl
  | .cons name t rest, L, L', w, x, h => by
    simp only [Fields.unmarshal, bind_ok] at h
    obtain ⟨child, hmember, ⟨ok, y⟩, hy, ⟨ret', ys⟩, hys, hout⟩ := h
    obtain ⟨rfl, rfl⟩ := Prod.mk.inj (Except.ok.inj hout)
    obtain ⟨hflag, hrest⟩ := rest.unmarshal_repeats _ (L'.inner 1) hys
    obtain ⟨rfl, rfl⟩ := Bool.and_eq_true_iff.mp hflag
    refine ⟨rfl, fun w' => ?_⟩
    simp only [Fields.unmarshal, hmember, ok_bind,
      t.unmarshal_repeats _ (L'.inner 0) child _ y hy w'.1, hrest w'.2]
end

/-- A call that returns true returns true and gives the same result for any
other contents of the target and of the temporaries. -/
theorem unmarshal_forgets_target {L : Locals F} (t : Ty) {j : V} {a x : t.Val F}
    (h : t.unmarshal L j a = .ok (true, x)) (L' : Locals F) (b : t.Val F) :
    t.unmarshal L' j b = .ok (true, x) :=
  t.unmarshal_repeats L L' j a x h b

def Locals.holding (n : Int32) : Locals Tree.floats where
  tmp _ _
    | .scalar .int32 => n
    | t => t.zero
  fresh := Ty.zero

theorem unmarshal_forgets_target_merged :
    let doc := Tree.object [("1".toList, .array [.bool true]), ("01".toList, .array [.bool false])]
    let read (L : Locals Tree.floats) (obj : Finmap fun _ : Int32 => List Bool) :=
      (Ty.map .int32 (by decide) (.vector (.scalar .bool))).unmarshal L doc obj
    let out : Finmap fun _ : Int32 => List Bool := Finmap.singleton 1 [true]
    read (.holding 0) ∅ = .ok (true, out) ∧
      read (.holding 7) (Finmap.singleton 5 [true]) = .ok (true, out) := by
  intro doc read out
  have hread : read (.holding 0) ∅ = .ok (true, out) := rfl
  exact ⟨hread, unmarshal_forgets_target _ hread (.holding 7) _⟩

end CppUtil.JsonHelper

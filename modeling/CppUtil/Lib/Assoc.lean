import Mathlib.Data.List.Basic

/-!
# Maps filled from a list of pairs

Inserting the pairs of a list one after another leaves each key with its last
value, and inserting only those with new keys leaves it with its first. The two
maps are the same exactly when every key has the same first and last value.
-/

namespace CppUtil.Lib

open Std (ExtTreeMap TransCmp LawfulEqCmp)

variable {α β γ : Type*} {cmp : α → α → Ordering}

section
variable [TransCmp cmp]

/-- Later pairs replace earlier ones. -/
def inserts (pairs : List (α × β)) (m : ExtTreeMap α β cmp) : ExtTreeMap α β cmp :=
  pairs.foldl (fun m p => m.insert p.1 p.2) m

/-- Later pairs with a key that is there are dropped. -/
def insertsIfNew (pairs : List (α × β)) (m : ExtTreeMap α β cmp) : ExtTreeMap α β cmp :=
  pairs.foldl (fun m p => m.insertIfNew p.1 p.2) m

end

variable [TransCmp cmp] [LawfulEqCmp cmp] [BEq α] [LawfulBEq α] {pairs : List (α × β)}

omit [LawfulBEq α] in
theorem lookup_singleton (p : α × β) (key : α) :
    List.lookup key [p] = if key == p.1 then some p.2 else none := by
  obtain ⟨k, v⟩ := p
  rw [List.lookup_cons]
  cases key == k <;> rfl

theorem getElem?_inserts (m : ExtTreeMap α β cmp) (key : α) :
    (inserts pairs m)[key]? = (pairs.reverse.lookup key).or m[key]? := by
  induction pairs generalizing m with
  | nil => rfl
  | cons p pairs ih =>
    have hone : (m.insert p.1 p.2)[key]? = (List.lookup key [p]).or m[key]? := by
      rw [ExtTreeMap.getElem?_insert]
      by_cases hkey : p.1 = key
      · subst hkey
        simp [lookup_singleton]
      · have hne : (key == p.1) = false := beq_eq_false_iff_ne.mpr (Ne.symm hkey)
        simp [lookup_singleton, hkey, hne]
    rw [List.reverse_cons, List.lookup_append, Option.or_assoc, ← hone]
    exact ih (m.insert p.1 p.2)

theorem getElem?_insertsIfNew (m : ExtTreeMap α β cmp) (key : α) :
    (insertsIfNew pairs m)[key]? = m[key]?.or (pairs.lookup key) := by
  induction pairs generalizing m with
  | nil => exact Option.or_none.symm
  | cons p pairs ih =>
    have hone : (m.insertIfNew p.1 p.2)[key]? = m[key]?.or (List.lookup key [p]) := by
      rw [ExtTreeMap.getElem?_insertIfNew]
      by_cases hkey : p.1 = key
      · subst hkey
        by_cases hmem : p.1 ∈ m
        · simp [hmem]
        · simp [hmem, lookup_singleton]
      · have hne : (key == p.1) = false := beq_eq_false_iff_ne.mpr (Ne.symm hkey)
        simp [lookup_singleton, hkey, hne]
    have hsplit : List.lookup key (p :: pairs) = (List.lookup key [p]).or (pairs.lookup key) :=
      @List.lookup_append α _ β [p] pairs key
    rw [hsplit, ← Option.or_assoc, ← hone]
    exact ih (m.insertIfNew p.1 p.2)

theorem inserts_eq_iff {pairs' : List (α × β)} :
    (inserts pairs ∅ : ExtTreeMap α β cmp) = inserts pairs' ∅ ↔
      ∀ key, pairs.reverse.lookup key = pairs'.reverse.lookup key := by
  constructor
  · intro heq key
    simpa [getElem?_inserts] using congrArg (·[key]?) heq
  · intro hvalues
    refine ExtTreeMap.ext_getElem? fun key => ?_
    rw [getElem?_inserts, getElem?_inserts, hvalues]

omit [LawfulBEq α] in
theorem lookup_map_snd (f : β → γ) (key : α) :
    (pairs.map fun p => (p.1, f p.2)).lookup key = (pairs.lookup key).map f := by
  induction pairs with
  | nil => rfl
  | cons p pairs ih =>
    rw [List.map_cons, List.lookup_cons, List.lookup_cons, ih]
    split <;> rfl

/-- Only the last value of a key counts. -/
theorem inserts_map_eq_iff (f g : β → γ) :
    (inserts (pairs.map fun p => (p.1, f p.2)) ∅ : ExtTreeMap α γ cmp)
        = inserts (pairs.map fun p => (p.1, g p.2)) ∅ ↔
      ∀ key value, pairs.reverse.lookup key = some value → f value = g value := by
  simp only [inserts_eq_iff, ← List.map_reverse, lookup_map_snd]
  refine forall_congr' fun key => ?_
  cases pairs.reverse.lookup key with
  | none => simp
  | some value => simp

theorem inserts_eq_insertsIfNew_iff :
    (inserts pairs ∅ : ExtTreeMap α β cmp) = insertsIfNew pairs ∅ ↔
      ∀ key, pairs.lookup key = pairs.reverse.lookup key := by
  constructor
  · intro heq key
    simpa [getElem?_inserts, getElem?_insertsIfNew] using (congrArg (·[key]?) heq).symm
  · intro hvalues
    refine ExtTreeMap.ext_getElem? fun key => ?_
    simp [getElem?_inserts, getElem?_insertsIfNew, hvalues]

omit [BEq α] [LawfulBEq α] in
theorem mem_inserts {key : α} :
    key ∈ (inserts pairs ∅ : ExtTreeMap α β cmp) ↔ key ∈ pairs.map Prod.fst := by
  classical
  rw [ExtTreeMap.mem_iff_isSome_getElem?, getElem?_inserts, ExtTreeMap.getElem?_empty,
    Option.or_none, List.lookup_isSome_iff]
  constructor
  · rintro ⟨p, hp, hkey⟩
    rw [beq_iff_eq.mp hkey]
    exact List.mem_map_of_mem (List.mem_reverse.mp hp)
  · intro hmem
    obtain ⟨p, hp, rfl⟩ := List.mem_map.mp hmem
    exact ⟨p, List.mem_reverse.mpr hp, beq_self_eq_true _⟩

end CppUtil.Lib

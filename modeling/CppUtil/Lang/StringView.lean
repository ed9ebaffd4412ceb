import CppUtil.Lang.Numeric

/-!
# `std::string_view`

Searching in a text. A position that is `npos` is `none`.
-/

namespace CppUtil.Lang

def find (pattern : Str) : Str → Option Nat
  | [] => if pattern = [] then some 0 else none
  | c :: s => if pattern.isPrefixOf (c :: s) then some 0 else (find pattern s).map (· + 1)

def findLastOf (c : Char) : Str → Option Nat
  | [] => none
  | d :: s =>
    match findLastOf c s with
    | some i => some (i + 1)
    | none => if d = c then some 0 else none

theorem find_length (h : find pattern s = some i) : i + pattern.length ≤ s.length := by
  induction s generalizing i with
  | nil =>
    simp only [find] at h
    split at h
    · rename_i hnil
      cases h
      simp [hnil]
    · cases h
  | cons c s ih =>
    simp only [find] at h
    split at h
    · rename_i hpre
      cases h
      rw [Nat.zero_add]
      exact (List.isPrefixOf_iff_prefix.mp hpre).length_le
    · obtain ⟨j, hj, rfl⟩ := Option.map_eq_some_iff.mp h
      have := ih hj
      rw [List.length_cons]
      omega

theorem find_append (h : find pattern s = some i) (t : Str) : find pattern (s ++ t) = some i := by
  induction s generalizing i with
  | nil =>
    simp only [find] at h
    split at h
    · rename_i hnil
      subst hnil
      cases t <;> simpa [find] using h
    · cases h
  | cons c s ih =>
    simp only [find] at h
    simp only [List.cons_append, find]
    split at h
    · rename_i hpre
      have hlong : pattern.isPrefixOf (c :: (s ++ t)) = true := List.isPrefixOf_iff_prefix.mpr
        ((List.isPrefixOf_iff_prefix.mp hpre).trans (List.prefix_append (c :: s) t))
      rw [if_pos hlong]
      exact h
    · rename_i hpre
      obtain ⟨j, hj, rfl⟩ := Option.map_eq_some_iff.mp h
      -- The pattern fits into `s`, so a match in front would have been in `c :: s`.
      have hfits : pattern.length ≤ (c :: s).length := by
        have := find_length hj
        rw [List.length_cons]
        omega
      have hlater : ¬ pattern.isPrefixOf (c :: (s ++ t)) = true := by
        intro hlong
        refine hpre (List.isPrefixOf_iff_prefix.mpr ?_)
        exact List.prefix_of_prefix_length_le (List.isPrefixOf_iff_prefix.mp hlong)
          (List.prefix_append (c :: s) t) hfits
      rw [if_neg hlater, ih hj]
      rfl

theorem find_char_eq_none_iff : find [c] s = none ↔ c ∉ s := by
  induction s with
  | nil => simp [find]
  | cons d s ih => by_cases hc : c = d <;> simp [find, List.isPrefixOf, hc, ih]

theorem findLastOf_notMem (h : c ∉ s) : findLastOf c s = none := by
  induction s with
  | nil => rfl
  | cons d s ih =>
    rw [List.mem_cons, not_or] at h
    simp [findLastOf, ih h.2, Ne.symm h.1]

theorem findLastOf_append (s : Str) (h : c ∉ t) : findLastOf c (s ++ c :: t) = some s.length := by
  induction s with
  | nil => simp [findLastOf, findLastOf_notMem h]
  | cons d s ih => simp [findLastOf, ih]

end CppUtil.Lang

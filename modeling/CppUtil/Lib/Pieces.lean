import Mathlib.Data.List.Chain

/-!
# Pieces between delimiters

The pieces of a list are what stands between delimiters and is not empty. When
a list is cut and the parts are taken one by one, their pieces are those of the
whole list exactly when no cut is inside a piece: each such cut makes two
pieces of one.
-/

namespace CppUtil.Lib

variable {α : Type*} [DecidableEq α] {d : α} {a b c : List α} {cs : List (List α)}

def pieces (d : α) (s : List α) : List (List α) := (s.splitOn d).filter (· ≠ [])

/-- Between `a` and `b` there is no cut inside a piece. -/
def Clean (d : α) (a b : List α) : Prop := a.getLast? = some d ∨ b.head? = some d

instance : DecidableRel (Clean d) := fun _ _ => inferInstanceAs (Decidable (_ ∨ _))

@[simp] theorem pieces_nil : pieces d [] = [] := by
  simp [pieces]

theorem pieces_append_cons (a b : List α) : pieces d (a ++ d :: b) = pieces d a ++ pieces d b := by
  simp [pieces, List.splitOn_append_cons_self]

theorem pieces_of_notMem (hne : a ≠ []) (hd : d ∉ a) : pieces d a = [a] := by
  simp [pieces, List.splitOn_eq_singleton hd, hne]

theorem pieces_append_of_clean (h : Clean d a b) :
    pieces d (a ++ b) = pieces d a ++ pieces d b := by
  rcases h with ha | hb
  · obtain ⟨a', rfl⟩ := List.getLast?_eq_some_iff.mp ha
    have hlast := @pieces_append_cons _ _ d a' []
    rw [pieces_nil, List.append_nil] at hlast
    rw [List.append_assoc, List.singleton_append, pieces_append_cons, hlast]
  · obtain ⟨b', rfl⟩ := List.head?_eq_some_iff.mp hb
    have hhead := @pieces_append_cons _ _ d [] b'
    rw [pieces_nil, List.nil_append, List.nil_append] at hhead
    rw [pieces_append_cons, hhead]

-- ---------------------------------------------------------------------------
-- A cut inside a piece
-- ---------------------------------------------------------------------------

theorem exists_last_piece (hne : a ≠ []) (hlast : a.getLast? ≠ some d) :
    ∃ ps u, u ≠ [] ∧ d ∉ u ∧ ∀ t, pieces d (a ++ t) = ps ++ pieces d (u ++ t) := by
  by_cases hd : d ∈ a
  · obtain ⟨u, p, hrev, hu⟩ := List.eq_append_cons_of_mem (List.mem_reverse.mpr hd)
    have ha : a = p.reverse ++ d :: u.reverse := by
      rw [← List.reverse_reverse a, hrev]
      simp
    subst ha
    refine ⟨pieces d p.reverse, u.reverse, ?_, by simpa using hu, fun t => ?_⟩
    · rintro hnil
      simp [hnil] at hlast
    · rw [List.append_assoc, List.cons_append, pieces_append_cons]
  · exact ⟨[], a, hne, hd, fun t => rfl⟩

theorem exists_first_piece (hne : b ≠ []) (hhead : b.head? ≠ some d) :
    ∃ v qs, v ≠ [] ∧ ∀ t, d ∉ t → pieces d (t ++ b) = (t ++ v) :: qs := by
  by_cases hd : d ∈ b
  · obtain ⟨v, q, rfl, hv⟩ := List.eq_append_cons_of_mem hd
    have hv' : v ≠ [] := by
      rintro rfl
      simp at hhead
    refine ⟨v, pieces d q, hv', fun t ht => ?_⟩
    rw [← List.append_assoc, pieces_append_cons, pieces_of_notMem (by simp [hv']) (by simp [ht, hv])]
    rfl
  · exact ⟨b, [], hne, fun t ht => pieces_of_notMem (by simp [hne]) (by simp [ht, hd])⟩

theorem length_pieces_append_of_cut (ha : a ≠ []) (hb : b ≠ []) (hcut : ¬ Clean d a b) :
    (pieces d (a ++ b)).length + 1 = (pieces d a).length + (pieces d b).length := by
  rw [Clean, not_or] at hcut
  obtain ⟨ps, u, hu, hdu, hlast⟩ := exists_last_piece ha hcut.1
  obtain ⟨v, qs, hv, hfirst⟩ := exists_first_piece hb hcut.2
  have hpa : pieces d a = ps ++ [u] := by
    have h := hlast []
    rwa [List.append_nil, List.append_nil, pieces_of_notMem hu hdu] at h
  have hpb : pieces d b = v :: qs := hfirst [] List.not_mem_nil
  rw [hlast b, hfirst u hdu, hpa, hpb]
  simp only [List.length_append, List.length_cons, List.length_nil]
  omega

-- ---------------------------------------------------------------------------
-- Many parts
-- ---------------------------------------------------------------------------

omit [DecidableEq α] in
theorem clean_flatten (hc : c ≠ []) : Clean d a (c :: cs).flatten ↔ Clean d a c := by
  rw [Clean, Clean, List.flatten_cons, List.head?_append_of_ne_nil c hc]

theorem length_pieces_flatten_le (hne : ∀ c ∈ cs, c ≠ []) :
    (pieces d cs.flatten).length ≤ (cs.flatMap (pieces d)).length ∧
      ((pieces d cs.flatten).length = (cs.flatMap (pieces d)).length → cs.IsChain (Clean d)) := by
  induction cs with
  | nil => simp
  | cons c cs ih =>
    obtain ⟨hc, hcs⟩ := List.forall_mem_cons.mp hne
    obtain ⟨hle, hchain⟩ := ih hcs
    cases cs with
    | nil => simp
    | cons c' cs =>
      have hc' := hcs c' List.mem_cons_self
      rw [List.flatten_cons, List.flatMap_cons, List.length_append, List.isChain_cons_cons]
      by_cases hclean : Clean d c c'
      · rw [pieces_append_of_clean ((clean_flatten hc').mpr hclean), List.length_append]
        exact ⟨by omega, fun heq => ⟨hclean, hchain (by omega)⟩⟩
      · have hlen := length_pieces_append_of_cut hc (b := (c' :: cs).flatten) (by simp [hc'])
          (mt (clean_flatten hc').mp hclean)
        exact ⟨by omega, fun heq => by omega⟩

theorem flatMap_pieces_of_isChain (hne : ∀ c ∈ cs, c ≠ []) (h : cs.IsChain (Clean d)) :
    cs.flatMap (pieces d) = pieces d cs.flatten := by
  induction cs with
  | nil => simp
  | cons c cs ih =>
    rw [List.flatMap_cons, ih (List.forall_mem_cons.mp hne).2 h.tail, List.flatten_cons]
    cases cs with
    | nil => simp
    | cons c' cs =>
      have hc' := hne c' (by simp)
      exact (pieces_append_of_clean ((clean_flatten hc').mpr (List.isChain_cons_cons.mp h).1)).symm

/-- The parts have the pieces of the whole exactly when no cut is inside a piece. -/
theorem flatMap_pieces_eq_iff (hne : ∀ c ∈ cs, c ≠ []) :
    cs.flatMap (pieces d) = pieces d cs.flatten ↔ cs.IsChain (Clean d) :=
  ⟨fun h => (length_pieces_flatten_le hne).2 (congrArg List.length h.symm),
    flatMap_pieces_of_isChain hne⟩

end CppUtil.Lib

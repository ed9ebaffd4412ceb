import Mathlib.Data.List.Basic

/-!
# Messages of a head and a body

The lines of a text are separated by a pair `a b` of different characters, and
the head of a message ends at the first two pairs in a row. A head followed by
two pairs and a body is cut there exactly if none of its lines but the first is
empty (`cutBlank_iff`).
-/

namespace CppUtil.Lib

variable {α : Type*} [DecidableEq α] {a b : α} {x : List α}

/-- The texts between the pairs. -/
def pairLines (a b : α) : List α → List (List α)
  | [] => [[]]
  | [c] => [[c]]
  | c :: d :: s =>
    if c = a ∧ d = b then [] :: pairLines a b s
    else (pairLines a b (d :: s)).modifyHead (c :: ·)

/-- What stands before and behind the first two pairs in a row. -/
def cutBlank (a b : α) : List α → Option (List α × List α)
  | [] => none
  | c :: s =>
    if [a, b, a, b] <+: c :: s then some ([], s.drop 3)
    else (cutBlank a b s).map fun p => (c :: p.1, p.2)

-- ---------------------------------------------------------------------------
-- Lines
-- ---------------------------------------------------------------------------

theorem pairLines_ne_nil (x : List α) : pairLines a b x ≠ [] := by
  induction x using pairLines.induct a b with
  | case1 => simp [pairLines]
  | case2 c => simp [pairLines]
  | case3 c d s hpair ih => simp [pairLines, hpair]
  | case4 c d s hpair ih => simpa [pairLines, hpair, List.modifyHead_eq_nil_iff] using ih

variable (a b) in
theorem pairLines_eq_cons (x : List α) : ∃ l ls, pairLines a b x = l :: ls :=
  List.exists_cons_of_ne_nil (pairLines_ne_nil x)

theorem pairLines_append (hne : a ≠ b) (x y : List α) :
    pairLines a b (x ++ a :: b :: y) = pairLines a b x ++ pairLines a b y := by
  induction x using pairLines.induct a b with
  | case1 => simp [pairLines]
  | case2 c => simp [pairLines, hne]
  | case3 c d s hpair ih => simp [pairLines, hpair, ih]
  | case4 c d s hpair ih =>
    obtain ⟨l, ls, hlines⟩ := pairLines_eq_cons a b (d :: s)
    simp only [List.cons_append, pairLines, if_neg hpair] at ih ⊢
    rw [ih, hlines]
    rfl

theorem pairLines_prepend (h : a ∉ p) (x : List α) :
    pairLines a b (p ++ x) = (pairLines a b x).modifyHead (p ++ ·) := by
  induction p with
  | nil =>
    obtain ⟨l, ls, hlines⟩ := pairLines_eq_cons a b x
    simp [hlines]
  | cons c p ih =>
    obtain ⟨hc, hp⟩ : a ≠ c ∧ a ∉ p := by simpa using h
    obtain ⟨l, ls, hlines⟩ := pairLines_eq_cons a b x
    have hcons : ∀ s, pairLines a b (c :: s) = (pairLines a b s).modifyHead (c :: ·) := by
      intro s
      cases s with
      | nil => rfl
      | cons d s => simp [pairLines, hc.symm]
    rw [List.cons_append, hcons, ih hp, hlines]
    rfl

theorem pairLines_of_notMem (h : a ∉ x) : pairLines a b x = [x] := by
  have hlines := pairLines_prepend (b := b) h []
  simpa [pairLines] using hlines

theorem pairLines_intercalate (hne : a ≠ b) (hfree : ∀ l ∈ ls, a ∉ l) (x : List α) :
    pairLines a b ([a, b].intercalate (x :: ls)) = pairLines a b x ++ ls := by
  induction ls generalizing x with
  | nil => simp
  | cons l ls ih =>
    obtain ⟨hl, hls⟩ := List.forall_mem_cons.mp hfree
    rw [List.intercalate_cons_cons, List.append_assoc, List.cons_append, List.singleton_append,
      pairLines_append hne, ih hls, pairLines_of_notMem hl]
    rfl

omit [DecidableEq α] in
theorem flatten_lines (sep x : List α) (ls : List (List α)) :
    ((x :: ls).map (· ++ sep)).flatten = sep.intercalate (x :: ls) ++ sep := by
  induction ls generalizing x with
  | nil => simp
  | cons l ls ih =>
    rw [List.map_cons, List.flatten_cons, ih, List.intercalate_cons_cons]
    simp

-- ---------------------------------------------------------------------------
-- The end of the head
-- ---------------------------------------------------------------------------

omit [DecidableEq α] in
theorem not_prefix_of_not_pair (h : ¬(c = a ∧ d = b)) (s : List α) : ¬[a, b] <+: c :: d :: s := by
  simp only [List.cons_prefix_cons, List.nil_prefix, and_true]
  exact fun hstart => h ⟨hstart.1.symm, hstart.2.symm⟩

theorem cutBlank_other (h : ¬[a, b] <+: c :: s) :
    cutBlank a b (c :: s) = (cutBlank a b s).map fun p => (c :: p.1, p.2) := by
  have hno : ¬[a, b, a, b] <+: c :: s := fun hfour =>
    h ((by simp : [a, b] <+: [a, b, a, b]).trans hfour)
  rw [cutBlank, if_neg hno]

section
variable (hne : a ≠ b)
include hne

theorem prefix_iff_head_nil (x y : List α) :
    [a, b] <+: x ++ a :: b :: y ↔ (pairLines a b x).head? = some [] := by
  induction x using pairLines.induct a b with
  | case1 => simp [pairLines]
  | case2 c => simp [pairLines, hne.symm]
  | case3 c d s hpair ih => simp [pairLines, hpair]
  | case4 c d s hpair ih =>
    have hstart := not_prefix_of_not_pair hpair (s ++ a :: b :: y)
    obtain ⟨l, ls, hlines⟩ := pairLines_eq_cons a b (d :: s)
    refine iff_of_false hstart ?_
    simp [pairLines, hpair, hlines]

theorem cutBlank_pair (s : List α) :
    cutBlank a b (a :: b :: s) =
      if [a, b] <+: s then some ([], s.drop 2)
      else (cutBlank a b s).map fun p => (a :: b :: p.1, p.2) := by
  have hback : ¬[a, b, a, b] <+: b :: s := by simp [hne]
  rw [cutBlank, cutBlank, if_neg hback, Option.map_map]
  simp [List.cons_prefix_cons, Function.comp_def]

theorem cutBlank_end (y : List α) : cutBlank a b (a :: b :: a :: b :: y) = some ([], y) := by
  simp [cutBlank_pair hne]

theorem cutBlank_append (h : [] ∉ (pairLines a b x).tail) (y : List α) :
    cutBlank a b (x ++ a :: b :: a :: b :: y) = some (x, y) := by
  induction x using pairLines.induct a b with
  | case1 => exact cutBlank_end hne y
  | case2 c =>
    rw [List.singleton_append, cutBlank_other (by simp [hne.symm]), cutBlank_end hne]
    rfl
  | case3 c d s hpair ih =>
    obtain ⟨rfl, rfl⟩ := hpair
    rw [pairLines, if_pos ⟨rfl, rfl⟩, List.tail_cons] at h
    have hfirst : ¬[c, d] <+: s ++ c :: d :: c :: d :: y := by
      rw [prefix_iff_head_nil hne]
      exact fun hhead => h (List.mem_of_mem_head? hhead)
    rw [List.cons_append, List.cons_append, cutBlank_pair hne, if_neg hfirst,
      ih fun hmem => h (List.mem_of_mem_tail hmem)]
    rfl
  | case4 c d s hpair ih =>
    rw [pairLines, if_neg hpair, List.tail_modifyHead] at h
    rw [List.cons_append, List.cons_append, cutBlank_other (not_prefix_of_not_pair hpair _),
      ← List.cons_append, ih h]
    rfl

theorem cutBlank_early (h : [] ∈ (pairLines a b x).tail) (y : List α) :
    ∃ head rest, cutBlank a b (x ++ a :: b :: a :: b :: y) = some (head, rest) ∧
      y.length < rest.length := by
  induction x using pairLines.induct a b with
  | case1 => exact absurd h (by simp [pairLines])
  | case2 c => exact absurd h (by simp [pairLines])
  | case3 c d s hpair ih =>
    obtain ⟨rfl, rfl⟩ := hpair
    rw [pairLines, if_pos ⟨rfl, rfl⟩, List.tail_cons] at h
    rw [List.cons_append, List.cons_append, cutBlank_pair hne]
    split
    · refine ⟨_, _, rfl, ?_⟩
      simp only [List.length_drop, List.length_append, List.length_cons]
      omega
    · rename_i hfirst
      rw [prefix_iff_head_nil hne] at hfirst
      obtain ⟨l, ls, hlines⟩ := List.exists_cons_of_ne_nil (pairLines_ne_nil (a := c) (b := d) s)
      have hmem : [] ∈ (pairLines c d s).tail := by
        rw [hlines] at h hfirst ⊢
        rcases List.mem_cons.mp h with heq | hmem
        · exact absurd (congrArg some heq.symm) hfirst
        · exact hmem
      obtain ⟨head, rest, hcut, hlen⟩ := ih hmem
      exact ⟨c :: d :: head, rest, by rw [hcut]; rfl, hlen⟩
  | case4 c d s hpair ih =>
    rw [pairLines, if_neg hpair, List.tail_modifyHead] at h
    obtain ⟨head, rest, hcut, hlen⟩ := ih h
    refine ⟨c :: head, rest, ?_, hlen⟩
    rw [List.cons_append, List.cons_append, cutBlank_other (not_prefix_of_not_pair hpair _),
      ← List.cons_append, hcut]
    rfl

/-- The body is what stands behind the head exactly if no line of the head but
the first is empty. -/
theorem cutBlank_iff {head y : List α} :
    cutBlank a b (x ++ a :: b :: a :: b :: y) = some (head, y) ↔
      head = x ∧ [] ∉ (pairLines a b x).tail := by
  by_cases h : [] ∈ (pairLines a b x).tail
  · obtain ⟨head', rest, hcut, hlen⟩ := cutBlank_early hne h y
    simp only [hcut, Option.some.injEq, Prod.mk.injEq, h, not_true, and_false, iff_false, not_and]
    rintro - rfl
    exact absurd hlen (Nat.lt_irrefl _)
  · simp [cutBlank_append hne h, h, eq_comm]

end

end CppUtil.Lib

import CppUtil.Lang.StringStream
import Mathlib.Data.List.DropRight
import Mathlib.Data.List.Forall2

/-!
# `util/string`

`string_split` reads a stream piece by piece and trims each piece.
-/

namespace CppUtil.Util

open Lang (Str StringStream isSpace)

def ltrim (s : Str) : Str := s.dropWhile isSpace

def rtrim (s : Str) : Str := s.rdropWhile isSpace

def trim (s : Str) : Str := ltrim (rtrim s)

/-- The loop of `string_split`. Every round reads at least one character or
ends the stream, so the characters left bound the rounds. -/
def splitLoop (delimter : Char) : (fuel : Nat) → StringStream → List Str → List Str
  | 0, _, res => res
  | fuel + 1, ss, res =>
    if ss.good then
      let (elem, ss) := ss.getline delimter []
      splitLoop delimter fuel ss (res ++ [trim elem])
    else res

def stringSplit (str : Str) (delimter : Char) (res : List Str) : List Str :=
  splitLoop delimter (str.length + 1) (.ofString str) res

theorem splitLoop_eq (h : ss.good = true) (hfuel : ss.rest.length < fuel) :
    splitLoop d fuel ss res = res ++ (ss.rest.splitOn d).map trim := by
  induction fuel generalizing ss res with
  | zero => exact absurd hfuel (Nat.not_lt_zero _)
  | succ fuel ih =>
    obtain ⟨text, next, hline, -, hnext⟩ := ss.getline_good h d []
    simp only [splitLoop, h, if_true, hline]
    rcases hnext with ⟨hstop, hpieces⟩ | ⟨hgood, hpieces, hlen⟩
    · rw [hpieces]
      cases fuel <;> simp [splitLoop, hstop]
    · rw [ih hgood (by omega), hpieces]
      simp

/-- The pieces between the delimiters, trimmed, behind what the result held. -/
theorem stringSplit_eq (str : Str) (d : Char) (res : List Str) :
    stringSplit str d res = res ++ (str.splitOn d).map trim :=
  splitLoop_eq (StringStream.ofString_good str) (Nat.lt_succ_self _)

-- ---------------------------------------------------------------------------
-- Trimming
-- ---------------------------------------------------------------------------

structure Bare (s : Str) : Prop where
  first : ∀ c ∈ s.head?, isSpace c = false
  last : ∀ c ∈ s.getLast?, isSpace c = false

instance Bare.decidable (s : Str) : Decidable (Bare s) :=
  decidable_of_iff (s.head?.all (!isSpace ·) = true ∧ s.getLast?.all (!isSpace ·) = true) (by
    simp only [Option.all_eq_true, Bool.not_eq_true']
    exact ⟨fun h => ⟨h.1, h.2⟩, fun h => ⟨h.first, h.last⟩⟩)

/-- `elem` is what is left of a piece without the whitespace around it. -/
structure Trimmed (piece elem : Str) : Prop where
  bare : Bare elem
  around : ∃ before behind, piece = before ++ elem ++ behind ∧
    (∀ c ∈ before, isSpace c = true) ∧ ∀ c ∈ behind, isSpace c = true

theorem rtrim_append (h : ∀ c ∈ behind, isSpace c = true) (s : Str) :
    rtrim (s ++ behind) = rtrim s := by
  rw [rtrim, List.rdropWhile, List.reverse_append,
    List.dropWhile_append_of_pos fun c hc => h c (List.mem_reverse.mp hc)]
  rfl

theorem ltrim_append (h : ∀ c ∈ before, isSpace c = true) (s : Str) :
    ltrim (before ++ s) = ltrim s :=
  List.dropWhile_append_of_pos h

theorem Bare.rtrim_append (h : Bare s) (hne : s ≠ []) (before : Str) :
    rtrim (before ++ s) = before ++ s := by
  refine List.rdropWhile_eq_self_iff.mpr fun hne' => ?_
  rw [List.getLast_append_of_ne_nil hne' hne, h.last _ (List.getLast_mem_getLast? hne)]
  decide

theorem Bare.ltrim_eq (h : Bare s) : ltrim s = s := by
  cases s with
  | nil => rfl
  | cons c s => exact List.dropWhile_cons_of_neg (by simp [h.first c rfl])

theorem Trimmed.trim_eq (h : Trimmed piece elem) : trim piece = elem := by
  obtain ⟨hbare, before, behind, rfl, hbefore, hbehind⟩ := h
  rw [trim, rtrim_append hbehind]
  by_cases hne : elem = []
  · subst hne
    rw [List.append_nil, show rtrim before = [] from List.rdropWhile_eq_nil_iff.mpr hbefore]
    rfl
  · rw [hbare.rtrim_append hne, ltrim_append hbefore, hbare.ltrim_eq]

theorem Bare.trim_eq (h : Bare s) : trim s = s :=
  Trimmed.trim_eq ⟨h, [], [], by simp⟩

theorem trim_eq_self (h : ∀ c ∈ s, isSpace c = false) : trim s = s :=
  Bare.trim_eq
    ⟨fun c hc => h c (List.mem_of_mem_head? hc), fun c hc => h c (List.mem_of_getLast? hc)⟩

theorem trim_trimmed (piece : Str) : Trimmed piece (trim piece) := by
  have hsuffix : trim piece <:+ rtrim piece := List.dropWhile_suffix _
  refine ⟨⟨fun c hc => ?_, fun c hc => ?_⟩, (rtrim piece).takeWhile isSpace,
    piece.rtakeWhile isSpace, ?_, fun c hc => List.mem_takeWhile_imp hc,
    fun c hc => List.mem_rtakeWhile_imp hc⟩
  · have hhead := List.head?_dropWhile_not isSpace (rtrim piece)
    rw [← ltrim, ← trim, Option.mem_def.mp hc] at hhead
    exact hhead
  · obtain ⟨hne, rfl⟩ := List.mem_getLast?_eq_getLast hc
    rw [hsuffix.getLast hne]
    exact Bool.eq_false_iff.mpr (List.rdropWhile_last_not _ _ _)
  · rw [trim, ltrim, List.takeWhile_append_dropWhile, rtrim, List.rdropWhile_append_rtakeWhile]

theorem trim_append_space (s : Str) (h : isSpace c = true) : trim (s ++ [c]) = trim s := by
  rw [trim, rtrim, List.rdropWhile_concat_pos _ _ _ h]
  rfl

theorem mem_trim (h : isSpace c = false) : c ∈ trim s ↔ c ∈ s := by
  have hdrop : ∀ l : Str, c ∈ l.dropWhile isSpace ↔ c ∈ l := by
    intro l
    have hsplit := List.takeWhile_append_dropWhile (p := isSpace) (l := l)
    have htake : c ∉ l.takeWhile isSpace := fun hmem => by
      simpa [h] using List.mem_takeWhile_imp hmem
    rw [← hsplit, List.mem_append, hsplit]
    exact (or_iff_right htake).symm
  rw [trim, ltrim, hdrop, rtrim, List.rdropWhile, List.mem_reverse, hdrop, List.mem_reverse]

-- ---------------------------------------------------------------------------
-- Pieces
-- ---------------------------------------------------------------------------

/-- The pieces of a string between the delimiters, trimmed, are appended. So
pieces without delimiter and without whitespace around them are found again in
the text they are joined to. -/
theorem stringSplit_pieces (str : Str) (d : Char) (res : List Str) :
    (∃ pieces elems, stringSplit str d res = res ++ elems ∧ List.Forall₂ Trimmed pieces elems ∧
      [d].intercalate pieces = str ∧ pieces.length = str.count d + 1 ∧ ∀ p ∈ pieces, d ∉ p) ∧
    (∀ piece elem elem', Trimmed piece elem → Trimmed piece elem' → elem = elem') ∧
    ∀ pieces, pieces ≠ [] → (∀ p ∈ pieces, d ∉ p ∧ Bare p) →
      stringSplit ([d].intercalate pieces) d res = res ++ pieces := by
  refine ⟨⟨str.splitOn d, (str.splitOn d).map trim, stringSplit_eq str d res, ?_,
    List.intercalate_splitOn d, StringStream.splitOn_length str d,
      fun p hp => StringStream.splitOn_free hp⟩,
    fun piece elem elem' h h' => h.trim_eq.symm.trans h'.trim_eq, fun pieces hne hpieces => ?_⟩
  · rw [List.forall₂_map_right_iff, List.forall₂_same]
    exact fun piece _ => trim_trimmed piece
  · have htrim : pieces.map trim = pieces :=
      (List.map_congr_left fun p hp => (hpieces p hp).2.trim_eq).trans (List.map_id pieces)
    rw [stringSplit_eq, List.splitOn_intercalate d (fun p hp => (hpieces p hp).1) hne, htrim]

theorem stringSplit_pieces_joined :
    stringSplit "a,,b c".toList ',' ["x".toList] = ["x".toList, "a".toList, [], "b c".toList] := by
  exact (stringSplit_pieces [] ',' ["x".toList]).2.2 ["a".toList, [], "b c".toList] (by decide)
    (by decide)

end CppUtil.Util

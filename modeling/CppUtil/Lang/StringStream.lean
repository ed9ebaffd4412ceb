import CppUtil.Lang.Numeric

/-!
# `std::stringstream`

The operations of a string stream that the servers and parsers use. A stream
is split at its read position, so the position is always inside the text; what
is written goes to the end of the text, as nothing moves the write position.
`badbit` is never set by a string buffer and is left out.
-/

namespace CppUtil.Lang

def wrapInt (n : Int) : Int := n.bmod (2 ^ 32)

theorem wrapInt_add_le (h : 2 ^ 31 ≤ n) : wrapInt n + 2 ^ 32 ≤ n := by
  rw [wrapInt, Int.bmod_def]
  omega

theorem wrapInt_sub (m n : Int) : wrapInt (wrapInt m - n) = wrapInt (m - n) :=
  Int.bmod_sub_bmod

theorem wrapInt_add (m n : Int) : wrapInt (wrapInt m + n) = wrapInt (m + n) :=
  Int.bmod_add_bmod

theorem wrapInt_eq (h : -2 ^ 31 ≤ n) (h' : n < 2 ^ 31) : wrapInt n = n :=
  Int.bmod_eq_of_le (by omega) (by omega)

structure StringStream where
  /-- The text before the read position. -/
  past : Str
  /-- The text that has not been read. -/
  rest : Str
  eof : Bool
  fail : Bool
  deriving DecidableEq, Repr

namespace StringStream

def ofString (text : Str) : StringStream := ⟨[], text, false, false⟩

def str (ss : StringStream) : Str := ss.past ++ ss.rest

/-- Where the next character is read from, also if the stream has failed. -/
def position (ss : StringStream) : Nat := ss.past.length

def good (ss : StringStream) : Bool := !ss.eof && !ss.fail

def clear (ss : StringStream) : StringStream := { ss with eof := false, fail := false }

/-- `write` and `operator<<`. A stream that is not good takes nothing. -/
def write (ss : StringStream) (text : Str) : StringStream :=
  if ss.good then { ss with rest := ss.rest ++ text } else ss

/-- `std::getline(ss, line, delim)`. A stream that is not good leaves `line` as
it is; a line that ends with the text sets `eofbit`, and `failbit` too when it
is empty. -/
def getline (ss : StringStream) (delim : Char) (line : Str) : Str × StringStream :=
  if ss.good then
    let text := ss.rest.takeWhile (· != delim)
    match ss.rest.dropWhile (· != delim) with
    | [] => (text, ⟨ss.str, [], true, text.isEmpty⟩)
    | _ :: rest => (text, { ss with past := ss.past ++ text ++ [delim], rest })
  else (line, { ss with fail := true })

def read (ss : StringStream) (n : Nat) : Str × StringStream :=
  if ss.good then
    if n ≤ ss.rest.length then
      (ss.rest.take n, { ss with past := ss.past ++ ss.rest.take n, rest := ss.rest.drop n })
    else (ss.rest, ⟨ss.str, [], true, true⟩)
  else ([], { ss with fail := true })

def readsome (ss : StringStream) (n : Nat) : Str × StringStream :=
  if ss.good then
    (ss.rest.take n, { ss with past := ss.past ++ ss.rest.take n, rest := ss.rest.drop n })
  else ([], { ss with fail := true })

def tellg (ss : StringStream) : Int × StringStream :=
  if ss.good then (ss.past.length, ss) else (-1, { ss with fail := true })

/-- `seekg(pos)`: clears `eofbit`, and fails outside the text. -/
def seekg (ss : StringStream) (pos : Int) : StringStream :=
  if ss.fail then { ss with eof := false }
  else if 0 ≤ pos ∧ pos ≤ ss.str.length then
    ⟨ss.str.take pos.toNat, ss.str.drop pos.toNat, false, false⟩
  else { ss with eof := false, fail := true }

def seekgEnd (ss : StringStream) (off : Int) : StringStream := ss.seekg (ss.str.length + off)

-- ---------------------------------------------------------------------------
-- Laws
-- ---------------------------------------------------------------------------

theorem good_iff {ss : StringStream} : ss.good = true ↔ ss.eof = false ∧ ss.fail = false := by
  simp [good]

@[simp] theorem ofString_good (text : Str) : (ofString text).good = true := rfl

theorem write_good {ss : StringStream} (h : ss.good = true) (text : Str) :
    (ss.write text).good = true ∧ (ss.write text).str = ss.str ++ text := by
  rw [write, if_pos h]
  exact ⟨h, by simp [str]⟩

def positioned (text : Str) (pos : Nat) : StringStream := ⟨text.take pos, text.drop pos, false, false⟩

@[simp] theorem positioned_zero (text : Str) : positioned text 0 = ofString text := by
  simp [positioned, ofString]

@[simp] theorem positioned_good (text : Str) (pos : Nat) : (positioned text pos).good = true := rfl

@[simp] theorem positioned_str (text : Str) (pos : Nat) : (positioned text pos).str = text :=
  List.take_append_drop pos text

@[simp] theorem positioned_rest (text : Str) (pos : Nat) :
    (positioned text pos).rest = text.drop pos := rfl

theorem seekg_good {ss : StringStream} (h : ss.good = true) (hpos : pos ≤ ss.str.length) :
    ss.seekg pos = positioned ss.str pos := by
  rw [seekg, if_neg (by simp [(good_iff.mp h).2]), if_pos ⟨by omega, by omega⟩, Int.toNat_natCast]
  rfl

theorem seekgEnd_good {ss : StringStream} (h : ss.good = true) (hn : n ≤ ss.str.length) :
    ss.seekgEnd (-n) = positioned ss.str (ss.str.length - n) := by
  have hpos : (ss.str.length : Int) + -n = (ss.str.length - n : Nat) := by omega
  rw [seekgEnd, hpos, seekg_good h (by omega)]

theorem readsome_positioned (text : Str) (pos n : Nat) :
    (positioned text pos).readsome n = ((text.drop pos).take n, positioned text (pos + n)) := by
  rw [readsome, if_pos (positioned_good text pos)]
  simp only [positioned, List.drop_drop, List.take_add]

theorem read_full (h : pos + n ≤ text.length) :
    (positioned text pos).read n = ((text.drop pos).take n, positioned text (pos + n)) := by
  have hn : n ≤ (positioned text pos).rest.length := by rw [positioned_rest, List.length_drop]; omega
  rw [read, if_pos (positioned_good text pos), if_pos hn]
  simp only [positioned, List.drop_drop, List.take_add]

theorem read_last (h : text.length < pos + n) (hpos : pos ≤ text.length) :
    (positioned text pos).read n = (text.drop pos, ⟨text, [], true, true⟩) := by
  have hn : ¬n ≤ (positioned text pos).rest.length := by rw [positioned_rest, List.length_drop]; omega
  rw [read, if_pos (positioned_good text pos), if_neg hn, positioned_str]
  rfl

theorem positioned_position (h : pos ≤ text.length) : (positioned text pos).position = pos := by
  simp [position, positioned, h]

theorem read_positioned (h : pos ≤ text.length) (n : Nat) :
    ∃ next, (positioned text pos).read n = ((text.drop pos).take n, next) ∧
      next.str = text ∧ next.position = pos + min n (text.length - pos) ∧
      (if next.eof then next.clear else next) = positioned text (pos + min n (text.length - pos)) := by
  rcases Nat.lt_or_ge text.length (pos + n) with hlast | hfull
  · have hend : pos + min n (text.length - pos) = text.length := by omega
    refine ⟨⟨text, [], true, true⟩, ?_, List.append_nil _, hend.symm, ?_⟩
    · rw [read_last hlast h, List.take_of_length_le]
      rw [List.length_drop]
      omega
    · simp [hend, positioned, clear]
  · have hend : pos + min n (text.length - pos) = pos + n := by omega
    refine ⟨positioned text (pos + n), read_full hfull, positioned_str _ _, ?_, ?_⟩
    · rw [positioned_position hfull, hend]
    · rw [hend]
      rfl

theorem seekg_position (h : pos ≤ text.length) (target : Int) :
    ((positioned text pos).seekg target).str = text ∧
      ((positioned text pos).seekg target).position =
        if 0 ≤ target ∧ target ≤ text.length then target.toNat else pos := by
  have hfail : ¬(positioned text pos).fail = true := by simp [positioned]
  rw [seekg, if_neg hfail, positioned_str]
  split
  · refine ⟨List.take_append_drop _ _, ?_⟩
    simp only [position, List.length_take]
    omega
  · exact ⟨positioned_str _ _, positioned_position h⟩

theorem seekg_inside {pos' : Nat} (h : pos' ≤ text.length) :
    (positioned text pos).seekg pos' = positioned text pos' := by
  rw [seekg_good (positioned_good text pos) (by simpa using h), positioned_str]

/-- `getline` takes the first of the pieces between delimiters. The stream
stays good exactly when there are more. -/
theorem getline_good {ss : StringStream} (h : ss.good = true) (delim : Char) (line : Str) :
    ∃ text next, ss.getline delim line = (text, next) ∧ next.str = ss.str ∧
      ((next.good = false ∧ ss.rest.splitOn delim = [text]) ∨
        (next.good = true ∧ ss.rest.splitOn delim = text :: next.rest.splitOn delim ∧
          next.rest.length < ss.rest.length)) := by
  have hsplit := List.takeWhile_append_dropWhile (p := (· != delim)) (l := ss.rest)
  have hfree : delim ∉ ss.rest.takeWhile (· != delim) := by
    intro hmem
    simpa using List.mem_takeWhile_imp hmem
  rw [getline, if_pos h]
  cases hdrop : ss.rest.dropWhile (· != delim) with
  | nil =>
    rw [hdrop, List.append_nil] at hsplit
    refine ⟨_, _, rfl, by simp [str], .inl ⟨rfl, ?_⟩⟩
    rw [hsplit] at hfree ⊢
    exact List.splitOn_eq_singleton hfree
  | cons c rest =>
    have hc : c = delim := by
      have hhead := List.head?_dropWhile_not (· != delim) ss.rest
      rw [hdrop] at hhead
      simpa using hhead
    subst hc
    rw [hdrop] at hsplit
    refine ⟨_, _, rfl, ?_, .inr ⟨h, ?_, ?_⟩⟩
    · simp [str, hsplit]
    · have hpieces := List.splitOn_append_cons_self_of_not_mem hfree rest
      rwa [hsplit] at hpieces
    · have hlen := congrArg List.length hsplit
      rw [List.length_append, List.length_cons] at hlen
      change rest.length < ss.rest.length
      omega

theorem getline_line {ss : StringStream} (h : ss.good = true) (delim : Char) (line : Str) :
    delim ∉ (ss.getline delim line).1 ∧
      (ss.getline delim line).2.eof = !(ss.getline delim line).2.good := by
  have hfree : delim ∉ ss.rest.takeWhile (· != delim) := by
    intro hmem
    simpa using List.mem_takeWhile_imp hmem
  obtain ⟨heof, hfail⟩ := good_iff.mp h
  rw [getline, if_pos h]
  cases ss.rest.dropWhile (· != delim) with
  | nil => exact ⟨hfree, rfl⟩
  | cons c rest => exact ⟨hfree, by simp [good, heof, hfail]⟩

theorem getline_pieces {ss : StringStream} (h : ss.good = true) (delim : Char) (line : Str)
    (hpieces : ss.rest.splitOn delim = piece :: pieces) :
    ∃ next, ss.getline delim line = (piece, next) ∧ (next.good = true ↔ pieces ≠ []) ∧
      (pieces ≠ [] → next.rest.splitOn delim = pieces) := by
  obtain ⟨text, next, hline, -, hnext⟩ := ss.getline_good h delim line
  refine ⟨next, ?_⟩
  rcases hnext with ⟨hstop, htext⟩ | ⟨hgood, htext, -⟩
  · rw [hpieces] at htext
    obtain ⟨rfl, rfl⟩ := List.cons.inj htext
    exact ⟨hline, by simp [hstop], fun hne => absurd rfl hne⟩
  · rw [hpieces] at htext
    obtain ⟨rfl, rfl⟩ := List.cons.inj htext
    exact ⟨hline, iff_of_true hgood (List.splitOn_ne_nil _ _), fun _ => rfl⟩

theorem splitOn_length (text : Str) (delim : Char) :
    (text.splitOn delim).length = text.count delim + 1 := by
  induction text with
  | nil => rfl
  | cons c text ih =>
    rw [List.splitOn_cons_eq_if_modifyHead, List.count_cons]
    split <;> simp [ih]

theorem splitOn_head (text : Str) (delim : Char) :
    text.splitOn delim = text.takeWhile (· != delim) :: (text.splitOn delim).tail := by
  induction text with
  | nil => rfl
  | cons c text ih =>
    rw [List.splitOn_cons_eq_if_modifyHead, List.takeWhile_cons]
    by_cases hc : c == delim
    · simp [hc, bne]
    · rw [if_neg hc, ih]
      simp [hc, bne]

theorem splitOn_free {text : Str} (h : piece ∈ text.splitOn delim) : delim ∉ piece := by
  induction text generalizing piece with
  | nil =>
    obtain rfl : piece = [] := by simpa using h
    exact List.not_mem_nil
  | cons c text ih =>
    rw [List.splitOn_cons_eq_if_modifyHead] at h
    split at h
    · rcases List.mem_cons.mp h with rfl | h
      · exact List.not_mem_nil
      · exact ih h
    · rename_i hc
      obtain ⟨first, more, hpieces⟩ := List.exists_cons_of_ne_nil (List.splitOn_ne_nil delim text)
      rw [hpieces, List.modifyHead_cons] at h
      rw [hpieces] at ih
      rcases List.mem_cons.mp h with rfl | h
      · rintro (_ | ⟨_, hmem⟩)
        · simp at hc
        · exact ih List.mem_cons_self hmem
      · exact ih (List.mem_cons_of_mem _ h)

theorem splitOn_lines (hfree : ∀ l ∈ lines, delim ∉ l) (last : Str) :
    ((lines.map (· ++ [delim])).flatten ++ last).splitOn delim
      = lines ++ last.splitOn delim := by
  induction lines with
  | nil => rfl
  | cons l lines ih =>
    obtain ⟨hl, hlines⟩ := List.forall_mem_cons.mp hfree
    rw [List.map_cons, List.flatten_cons, List.append_assoc, List.append_assoc,
      List.singleton_append, List.splitOn_append_cons_self_of_not_mem hl, ih hlines]
    rfl

end StringStream

end CppUtil.Lang

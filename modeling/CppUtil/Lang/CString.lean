import CppUtil.Lang.Numeric

/-!
# C strings

A buffer is a list of characters. Read as a C string, it ends before its first
NUL.
-/

namespace CppUtil.Lang

def nul : Char := '\x00'

def cString (buffer : Str) : Str := buffer.takeWhile (· ≠ nul)

theorem nul_notMem_cString (s : Str) : nul ∉ cString s := by
  intro h
  simpa using List.mem_takeWhile_imp h

theorem cString_eq_self_iff : cString s = s ↔ nul ∉ s := by
  constructor
  · intro h
    rw [← h]
    exact nul_notMem_cString s
  · intro h
    refine List.takeWhile_eq_self_iff.mpr fun c hc => decide_eq_true ?_
    rintro rfl
    exact h hc

theorem cString_append_nul (h : nul ∉ s) (rest : Str) : cString (s ++ nul :: rest) = s := by
  have hs : ∀ c ∈ s, decide (c ≠ nul) = true := fun c hc =>
    decide_eq_true fun he => h (he ▸ hc)
  rw [cString, List.takeWhile_append_of_pos hs]
  simp

theorem cString_append_nul_eq (s rest : Str) : cString (s ++ nul :: rest) = cString s := by
  simp only [cString]
  induction s with
  | nil => simp
  | cons c s ih => rw [List.cons_append, List.takeWhile_cons, List.takeWhile_cons, ih]

def snprintf (size : Nat) (text : Str) : Str := text.take (size - 1) ++ [nul]

/-- A conversion other than `%%`. Without arguments it is undefined: it reads one
that was not passed, or is no valid conversion at all. -/
def converts : Str → Bool
  | [] => false
  | [c] => c = '%'
  | c :: d :: s => if c = '%' then d ≠ '%' || converts s else converts (d :: s)

/-- What a format gives without arguments. `%%` is a percent sign. Any other
conversion is undefined; what comes of it and of the rest of the format is up to
`unpassed`. -/
def formatNoArgs (unpassed : Str → Str) : Str → Str
  | [] => []
  | [c] => if c = '%' then unpassed [] else [c]
  | c :: d :: s =>
    if c = '%' then
      if d = '%' then '%' :: formatNoArgs unpassed s else unpassed (d :: s)
    else c :: formatNoArgs unpassed (d :: s)

theorem formatNoArgs_eq_self (h : '%' ∉ s) : formatNoArgs unpassed s = s := by
  fun_induction formatNoArgs unpassed s with
  | case1 => rfl
  | case2 => simp at h
  | case3 => rfl
  | case4 s ih => simp at h
  | case5 => simp at h
  | case6 c d s hc ih =>
    rw [List.mem_cons, not_or] at h
    rw [ih h.2]

theorem formatNoArgs_length_le (s : Str) : (formatNoArgs (fun _ => []) s).length ≤ s.length := by
  fun_induction formatNoArgs (fun _ => []) s with
  | case1 => rfl
  | case2 => simp
  | case3 => rfl
  | case4 s ih =>
    simp only [List.length_cons]
    omega
  | case5 => simp
  | case6 c d s hc ih => exact Nat.succ_le_succ ih

theorem formatNoArgs_length_lt (h : '%' ∈ s) :
    (formatNoArgs (fun _ => []) s).length < s.length := by
  fun_induction formatNoArgs (fun _ => []) s with
  | case1 => cases h
  | case2 => simp
  | case3 c hc => simp [Ne.symm hc] at h
  | case4 s ih =>
    have := formatNoArgs_length_le s
    simp only [List.length_cons]
    omega
  | case5 => simp
  | case6 c d s hc ih =>
    rcases List.mem_cons.mp h with hc' | h
    · exact absurd hc'.symm hc
    · exact Nat.succ_lt_succ (ih h)

/-- `strncpy` stops at a NUL and fills the rest of the `n` characters with
NULs. -/
def strncpy (s : Str) (n : Nat) : Str :=
  (cString s).take n ++ List.replicate (n - (cString s).length) nul

theorem cString_strncpy (s : Str) : cString (strncpy s s.length ++ [nul]) = cString s := by
  have hlen : (cString s).length ≤ s.length := (List.takeWhile_sublist _).length_le
  rw [strncpy, List.take_of_length_le hlen, List.append_assoc, ← List.replicate_succ',
    List.replicate_succ]
  exact cString_append_nul (nul_notMem_cString s) _

end CppUtil.Lang

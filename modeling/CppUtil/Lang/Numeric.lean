import Mathlib.Algebra.Group.Int.Defs
import Mathlib.Algebra.Group.Nat.Defs
import Mathlib.Data.List.TakeWhile

/-!
# Strings and the numeric conversions of `<string>`

A `std::string` is a list of characters. `stdToString` is `std::to_string` of
an integer; `stoi`, `stoll`, `stoul` and `stoull` read the longest numeric
text after white space and a sign, and throw where it is missing or does not
fit. `unsigned long` has 64 bits, and a negative text wraps around in it.
-/

namespace CppUtil.Lang

abbrev Str := List Char

inductive Exn
  | invalidArgument
  | outOfRange
  /-- What jsoncpp throws from a failed check. -/
  | json
  deriving DecidableEq, Repr

def isSpace (c : Char) : Bool :=
  c = ' ' || c = '\t' || c = '\n' || c = '\x0b' || c = '\x0c' || c = '\r'

def stdToString (n : Int) : Str :=
  if n < 0 then '-' :: Nat.toDigits 10 n.natAbs else Nat.toDigits 10 n.natAbs

def readSign : Str → Bool × Str
  | '-' :: rest => (true, rest)
  | '+' :: rest => (false, rest)
  | rest => (false, rest)

/-- The integer `strtol` and its relatives read, before any range check. -/
def readInt (s : Str) : Option Int :=
  let (negative, rest) := readSign (s.dropWhile isSpace)
  let digits := rest.takeWhile Char.isDigit
  if digits = [] then none
  else
    let n : Int := Nat.ofDigitChars 10 digits 0
    some (if negative then -n else n)

def sto (fits : Int → Bool) (convert : Int → α) (s : Str) : Except Exn α :=
  match readInt s with
  | none => .error .invalidArgument
  | some n => if fits n then .ok (convert n) else .error .outOfRange

def stoi : Str → Except Exn Int32 :=
  sto (fun n => -2 ^ 31 ≤ n ∧ n < 2 ^ 31) Int32.ofInt

def stoll : Str → Except Exn Int64 :=
  sto (fun n => -2 ^ 63 ≤ n ∧ n < 2 ^ 63) Int64.ofInt

def stoull : Str → Except Exn UInt64 :=
  sto (fun n => n.natAbs < 2 ^ 64) UInt64.ofInt

def stoul : Str → Except Exn UInt64 := stoull

-- ---------------------------------------------------------------------------
-- Reading back what `std::to_string` wrote
-- ---------------------------------------------------------------------------

theorem isDigit_not_space (h : c.isDigit = true) : isSpace c = false := by
  simp only [Char.isDigit, Bool.and_eq_true, decide_eq_true_eq] at h
  have hne (d : Char) (hd : d.val < 48) : c ≠ d := by
    rintro rfl
    exact absurd h.1 (UInt32.not_le.mpr hd)
  simp [isSpace, hne ' ' (by decide), hne '\t' (by decide), hne '\n' (by decide),
    hne '\x0b' (by decide), hne '\x0c' (by decide), hne '\r' (by decide)]

theorem readSign_digit (h : c.isDigit = true) : readSign (c :: s) = (false, c :: s) := by
  unfold readSign
  split
  · rename_i he
    obtain ⟨rfl, -⟩ := List.cons.inj he
    exact absurd h (by decide)
  · rename_i he
    obtain ⟨rfl, -⟩ := List.cons.inj he
    exact absurd h (by decide)
  · rfl

theorem toDigits_cons (n : Nat) : ∃ c s, Nat.toDigits 10 n = c :: s ∧ c.isDigit = true := by
  cases h : Nat.toDigits 10 n with
  | nil => exact absurd h Nat.toDigits_ne_nil
  | cons c s =>
    have hc : c ∈ Nat.toDigits 10 n := by rw [h]; exact List.mem_cons_self
    exact ⟨c, s, rfl, Nat.isDigit_of_mem_toDigits (by decide) (by decide) hc⟩

theorem takeWhile_toDigits (n : Nat) :
    (Nat.toDigits 10 n).takeWhile Char.isDigit = Nat.toDigits 10 n :=
  List.takeWhile_eq_self_iff.mpr fun _ hc => Nat.isDigit_of_mem_toDigits (by decide) (by decide) hc

theorem readInt_stdToString (n : Int) : readInt (stdToString n) = some n := by
  obtain ⟨c, s, hd, hc⟩ := toDigits_cons n.natAbs
  by_cases hn : n < 0
  · have hspace : isSpace '-' = false := by decide
    simp only [readInt, stdToString, if_pos hn, List.dropWhile_cons, hspace, Bool.false_eq_true,
      if_false, readSign, takeWhile_toDigits, Nat.toDigits_ne_nil, Nat.ofDigitChars_ten_toDigits,
      if_true]
    congr 1
    omega
  · have hdrop : (Nat.toDigits 10 n.natAbs).dropWhile isSpace = Nat.toDigits 10 n.natAbs := by
      rw [hd, List.dropWhile_cons, isDigit_not_space hc]
      rfl
    have hsign : readSign (Nat.toDigits 10 n.natAbs) = (false, Nat.toDigits 10 n.natAbs) := by
      rw [hd, readSign_digit hc]
    simp only [readInt, stdToString, if_neg hn, hdrop, hsign, takeWhile_toDigits,
      Nat.toDigits_ne_nil, Nat.ofDigitChars_ten_toDigits, if_false, Bool.false_eq_true]
    congr 1
    omega

/-- Reading the text of an integer that fits gives its conversion. -/
theorem sto_stdToString (n : Int) (h : fits n = true) :
    sto fits convert (stdToString n) = .ok (convert n) := by
  rw [sto, readInt_stdToString]
  exact if_pos h

theorem stoi_stdToString (n : Int32) : stoi (stdToString n.toInt) = .ok n := by
  have h := n.le_toInt
  have h' := n.toInt_lt
  rw [stoi, sto_stdToString _ (by simpa using ⟨h, h'⟩), Int32.ofInt_toInt]

theorem stoll_stdToString (n : Int64) : stoll (stdToString n.toInt) = .ok n := by
  have h := n.le_toInt
  have h' := n.toInt_lt
  rw [stoll, sto_stdToString _ (by simpa using ⟨h, h'⟩), Int64.ofInt_toInt]

theorem stoull_stdToString (n : Nat) (hn : n < 2 ^ 64) :
    stoull (stdToString n) = .ok (UInt64.ofNat n) := by
  have hmod : ((n : Int) % 2 ^ 64).toNat = n := by omega
  rw [stoull, sto_stdToString _ (by simpa using hn), UInt64.ofInt, hmod]

end CppUtil.Lang

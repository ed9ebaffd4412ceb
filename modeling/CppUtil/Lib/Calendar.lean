import Mathlib.Algebra.Order.Ring.Int
import Mathlib.Tactic.IntervalCases

/-!
# The Gregorian calendar

Dates, the day after a date, and the date of a day number, counted from
1970-01-01 in both directions. `Date.ofDays_succ` and `Date.ofDays_zero`
characterise the day numbers. `Date.packed` is a date as the decimal number
`yyyymmdd`, which grows by at least one a day.
-/

namespace CppUtil.Lib

def isLeap (year : Int) : Bool := year % 4 = 0 && (year % 100 ≠ 0 || year % 400 = 0)

def daysInMonth (year month : Int) : Int :=
  if month = 2 then if isLeap year then 29 else 28
  else if month = 4 ∨ month = 6 ∨ month = 9 ∨ month = 11 then 30
  else 31

@[ext]
structure Date where
  year : Int
  month : Int
  day : Int
  month_mem : 1 ≤ month ∧ month ≤ 12
  day_mem : 1 ≤ day ∧ day ≤ daysInMonth year month
  deriving DecidableEq

theorem daysInMonth_bounds (year month : Int) :
    28 ≤ daysInMonth year month ∧ daysInMonth year month ≤ 31 := by
  unfold daysInMonth
  split
  · split <;> omega
  · split <;> omega

namespace Date

def next (d : Date) : Date :=
  if h : d.day < daysInMonth d.year d.month then
    { d with day := d.day + 1, day_mem := by have := d.day_mem; omega }
  else if hm : d.month < 12 then
    { year := d.year, month := d.month + 1, day := 1
      month_mem := by have := d.month_mem; omega
      day_mem := by have := daysInMonth_bounds d.year (d.month + 1); omega }
  else
    { year := d.year + 1, month := 1, day := 1, month_mem := by decide
      day_mem := by have := daysInMonth_bounds (d.year + 1) 1; omega }

/-- A day in the 400 years from some 1 March on: the century, the group of four
years, the year and the day of the year. The last year of a group has 366 days,
except that the last group of a century has none, unless it is the fourth. -/
structure Cycle where
  century : Int
  group : Int
  year : Int
  day : Int
  century_mem : 0 ≤ century ∧ century ≤ 3
  group_mem : 0 ≤ group ∧ group ≤ 24
  year_mem : 0 ≤ year ∧ year ≤ 3
  day_mem : 0 ≤ day ∧ day ≤ 365
  day_leap : day = 365 → year = 3 ∧ (group = 24 → century = 3)

def Cycle.days (c : Cycle) : Int := 36524 * c.century + 1461 * c.group + 365 * c.year + c.day

def Cycle.ofDays (n : Int) (h : 0 ≤ n ∧ n < 146097) : Cycle :=
  let century := min (n / 36524) 3
  let n₁ := n - 36524 * century
  let group := n₁ / 1461
  let n₂ := n₁ - 1461 * group
  let year := min (n₂ / 365) 3
  { century, group, year, day := n₂ - 365 * year
    century_mem := by omega
    group_mem := by omega
    year_mem := by omega
    day_mem := by omega
    day_leap := by omega }

theorem Cycle.days_ofDays (n : Int) (h : 0 ≤ n ∧ n < 146097) : (Cycle.ofDays n h).days = n := by
  simp only [Cycle.days, Cycle.ofDays]
  omega

theorem isLeap_iff (year : Int) :
    isLeap year = true ↔ year % 4 = 0 ∧ (year % 100 ≠ 0 ∨ year % 400 = 0) := by
  simp [isLeap]

def monthsSince (n : Int) : Int := (5 * n + 2) / 153

def monthStart (k : Int) : Int := (153 * k + 2) / 5

def ofYearDay (year n : Int) (h : 0 ≤ n ∧ n ≤ 365) (hleap : n = 365 → isLeap (year + 1)) : Date where
  year := if monthsSince n < 10 then year else year + 1
  month := if monthsSince n < 10 then monthsSince n + 3 else monthsSince n - 9
  day := n - monthStart (monthsSince n) + 1
  month_mem := by
    unfold monthsSince
    split <;> omega
  day_mem := by
    unfold daysInMonth monthsSince monthStart
    by_cases hn : (5 * n + 2) / 153 < 10
    · simp only [if_pos hn]
      split
      · omega
      · split <;> omega
    · simp only [if_neg hn]
      by_cases hlast : n = 365
      · simp [hlast, hleap hlast]
      · split
        · split <;> omega
        · split <;> omega

/-- The days from 1 March of the year 0 to 1 March of `year`. -/
def yearStart (year : Int) : Int := 365 * year + year / 4 - year / 100 + year / 400

theorem yearStart_succ (year : Int) :
    yearStart (year + 1) = yearStart year + if isLeap (year + 1) then 366 else 365 := by
  simp only [yearStart, isLeap_iff]
  split <;> omega

theorem yearStart_mono (h : y ≤ y') : yearStart y ≤ yearStart y' := by
  simp only [yearStart]
  omega

theorem yearDay_unique (h : yearStart y + n = yearStart y' + n') (hn : 0 ≤ n ∧ n ≤ 365)
    (hn' : 0 ≤ n' ∧ n' ≤ 365) (hleap : n = 365 → isLeap (y + 1))
    (hleap' : n' = 365 → isLeap (y' + 1)) : y = y' ∧ n = n' := by
  have hlt : ∀ {y n y' n'}, 0 ≤ n' → n ≤ 365 → (n = 365 → isLeap (y + 1)) →
      yearStart y + n = yearStart y' + n' → ¬ y < y' := by
    intro y n y' n' hn' hn hleap h hy
    have hmono := yearStart_mono (show y + 1 ≤ y' from hy)
    rw [yearStart_succ] at hmono
    by_cases hlast : n = 365
    · rw [if_pos (hleap hlast)] at hmono
      omega
    · split at hmono <;> omega
  have h₁ := hlt hn'.1 hn.2 hleap h
  have h₂ := hlt hn.1 hn'.2 hleap' h.symm
  obtain rfl : y = y' := by omega
  exact ⟨rfl, by omega⟩

def Cycle.years (c : Cycle) : Int := 100 * c.century + 4 * c.group + c.year

theorem Cycle.isLeap (c : Cycle) (era : Int) (h : c.day = 365) :
    Lib.isLeap (400 * era + c.years + 1) := by
  have hc := c.century_mem
  have hg := c.group_mem
  have hleap := c.day_leap h
  rw [isLeap_iff, Cycle.years]
  omega

theorem Cycle.yearStart_years (c : Cycle) (era : Int) :
    yearStart (400 * era + c.years) = 146097 * era + c.days - c.day := by
  have hc := c.century_mem
  have hg := c.group_mem
  have hy := c.year_mem
  simp only [yearStart, Cycle.years, Cycle.days]
  omega

/-- The date of day `z`, where 1970-01-01 is day 0. -/
def ofDays (z : Int) : Date :=
  -- day 0 is day 719468 from 1 March of the year 0 on
  let c := Cycle.ofDays ((z + 719468) % 146097) (by omega)
  ofYearDay (400 * ((z + 719468) / 146097) + c.years) c.day c.day_mem (c.isLeap _)

theorem ofDays_zero : ofDays 0 = ⟨1970, 1, 1, by decide, by decide⟩ := by
  decide

theorem exists_yearDay (z : Int) :
    ∃ y n, ∃ hn : 0 ≤ n ∧ n ≤ 365, ∃ hleap : n = 365 → isLeap (y + 1),
      z + 719468 = yearStart y + n ∧ ofDays z = ofYearDay y n hn hleap := by
  have hmod : 0 ≤ (z + 719468) % 146097 ∧ (z + 719468) % 146097 < 146097 := by omega
  have hdays := Cycle.days_ofDays _ hmod
  have hstart := (Cycle.ofDays _ hmod).yearStart_years ((z + 719468) / 146097)
  refine ⟨_, _, (Cycle.ofDays _ hmod).day_mem, (Cycle.ofDays _ hmod).isLeap _, ?_, rfl⟩
  rw [hstart]
  omega

theorem ofDays_eq (h : z + 719468 = yearStart y + n) (hn : 0 ≤ n ∧ n ≤ 365)
    (hleap : n = 365 → isLeap (y + 1)) : ofDays z = ofYearDay y n hn hleap := by
  obtain ⟨y', n', hn', hleap', h', heq⟩ := exists_yearDay z
  obtain ⟨rfl, rfl⟩ := yearDay_unique (h'.symm.trans h) hn' hn hleap' hleap
  exact heq

-- ---------------------------------------------------------------------------
-- The next day
-- ---------------------------------------------------------------------------

theorem monthsSince_succ (n : Int) :
    monthsSince (n + 1) = monthsSince n ∧ n + 1 < monthStart (monthsSince n + 1) ∨
      monthsSince (n + 1) = monthsSince n + 1 ∧ n + 1 = monthStart (monthsSince n + 1) := by
  simp only [monthsSince, monthStart]
  omega

theorem daysInMonth_eq (y : Int) (hk : 0 ≤ k ∧ k ≤ 10) :
    daysInMonth y (if k < 10 then k + 3 else k - 9) = monthStart (k + 1) - monthStart k := by
  obtain ⟨hk₀, hk₁⟩ := hk
  interval_cases k <;> rfl

theorem next_of_lt {d : Date} (h : d.day < daysInMonth d.year d.month) :
    d.next.year = d.year ∧ d.next.month = d.month ∧ d.next.day = d.day + 1 := by
  rw [next, dif_pos h]
  exact ⟨rfl, rfl, rfl⟩

theorem next_of_month_end {d : Date} (h : ¬ d.day < daysInMonth d.year d.month)
    (hm : d.month < 12) :
    d.next.year = d.year ∧ d.next.month = d.month + 1 ∧ d.next.day = 1 := by
  rw [next, dif_neg h, dif_pos hm]
  exact ⟨rfl, rfl, rfl⟩

theorem next_of_year_end {d : Date} (h : ¬ d.day < daysInMonth d.year d.month)
    (hm : ¬ d.month < 12) :
    d.next.year = d.year + 1 ∧ d.next.month = 1 ∧ d.next.day = 1 := by
  rw [next, dif_neg h, dif_neg hm]
  exact ⟨rfl, rfl, rfl⟩

@[simp] theorem ofYearDay_year {h hleap} : (ofYearDay y n h hleap).year =
    if monthsSince n < 10 then y else y + 1 := rfl

@[simp] theorem ofYearDay_month {h hleap} : (ofYearDay y n h hleap).month =
    if monthsSince n < 10 then monthsSince n + 3 else monthsSince n - 9 := rfl

@[simp] theorem ofYearDay_day {h hleap} : (ofYearDay y n h hleap).day =
    n - monthStart (monthsSince n) + 1 := rfl

theorem february_next (hn : 337 ≤ n ∧ n ≤ 364) (hleap : n = 364 → isLeap (y + 1)) :
    (ofYearDay y n (by omega) (by omega)).next =
      ofYearDay y (n + 1) (by omega) (fun h => hleap (by omega)) := by
  have hk : monthsSince n = 11 := by
    unfold monthsSince
    omega
  have hk' : monthsSince (n + 1) = 11 := by
    unfold monthsSince
    omega
  have hlt : n - monthStart 11 + 1 < daysInMonth (y + 1) 2 := by
    simp only [monthStart, daysInMonth, if_true]
    by_cases hlast : n = 364
    · simp [hlast, hleap hlast]
    · split <;> omega
  obtain ⟨hy, hm, hd⟩ := next_of_lt (d := ofYearDay y n (by omega) (by omega)) (by simpa [hk] using hlt)
  ext
  · rw [hy]
    simp [hk, hk']
  · rw [hm]
    simp [hk, hk']
  · rw [hd]
    simp only [ofYearDay_day, hk, hk']
    omega

theorem month_next (hn : 0 ≤ n ∧ n < 337) :
    (ofYearDay y n (by omega) (by omega)).next = ofYearDay y (n + 1) (by omega) (by omega) := by
  have hk : 0 ≤ monthsSince n ∧ monthsSince n ≤ 10 := by
    unfold monthsSince
    omega
  generalize hd : ofYearDay y n (by omega) (by omega) = d
  have hyear : d.year = if monthsSince n < 10 then y else y + 1 := by rw [← hd]; rfl
  have hmonth : d.month = if monthsSince n < 10 then monthsSince n + 3 else monthsSince n - 9 := by
    rw [← hd]; rfl
  have hday : d.day = n - monthStart (monthsSince n) + 1 := by rw [← hd]; rfl
  have hdim := daysInMonth_eq d.year hk
  rw [← hmonth] at hdim
  rcases monthsSince_succ n with ⟨hsame, hlt⟩ | ⟨hnew, heq⟩
  · obtain ⟨hy, hm, hd'⟩ := next_of_lt (d := d) (by omega)
    ext
    · rw [hy, hyear, ofYearDay_year, hsame]
    · rw [hm, hmonth, ofYearDay_month, hsame]
    · rw [hd', hday, ofYearDay_day, hsame]
      omega
  · by_cases hdec : monthsSince n = 9
    · -- after December
      obtain ⟨hy, hm, hd'⟩ := next_of_year_end (d := d) (by omega) (by rw [hmonth, hdec]; decide)
      ext
      · rw [hy, hyear, ofYearDay_year, hnew, hdec]
        rfl
      · rw [hm, ofYearDay_month, hnew, hdec]
        rfl
      · rw [hd', ofYearDay_day, hnew]
        omega
    · have hmonth12 : d.month < 12 := by
        rw [hmonth]
        split <;> omega
      obtain ⟨hy, hm, hd'⟩ := next_of_month_end (d := d) (by omega) hmonth12
      ext
      · rw [hy, hyear, ofYearDay_year, hnew]
        split <;> split <;> omega
      · rw [hm, hmonth, ofYearDay_month, hnew]
        split <;> split <;> omega
      · rw [hd', ofYearDay_day, hnew]
        omega

theorem february_last (hn : 364 ≤ n ∧ n ≤ 365) (hleap : n = 365 ↔ isLeap (y + 1)) :
    (ofYearDay y n (by omega) hleap.mp).next = ofYearDay (y + 1) 0 (by omega) (by omega) := by
  have hk : monthsSince n = 11 := by
    unfold monthsSince
    omega
  have hlast : ¬ n - monthStart 11 + 1 < daysInMonth (y + 1) 2 := by
    simp only [monthStart, daysInMonth, if_true, ← hleap]
    split <;> omega
  obtain ⟨hy, hm, hd⟩ := next_of_month_end (d := ofYearDay y n (by omega) hleap.mp)
    (by simpa [hk] using hlast) (by simp [hk])
  have hk₀ : monthsSince 0 = 0 := rfl
  ext
  · rw [hy]
    simp [hk, hk₀]
  · rw [hm]
    simp [hk, hk₀]
  · rw [hd]
    simp [hk₀, monthStart]

/-- Day numbers count the days of the calendar. -/
theorem ofDays_succ (z : Int) : ofDays (z + 1) = (ofDays z).next := by
  obtain ⟨y, n, hn, hleap, h, heq⟩ := exists_yearDay z
  rw [heq]
  by_cases hlast : n = 365 ∨ n = 364 ∧ ¬ isLeap (y + 1)
  · have hyear : n = 365 ↔ isLeap (y + 1) := by
      rcases hlast with rfl | ⟨rfl, hnot⟩
      · exact ⟨fun _ => hleap rfl, fun _ => rfl⟩
      · exact ⟨by omega, fun h => absurd h hnot⟩
    rw [february_last (by omega) hyear]
    refine ofDays_eq ?_ _ _
    rw [yearStart_succ]
    simp only [← hyear]
    split <;> omega
  · have hnext : z + 1 + 719468 = yearStart y + (n + 1) := by omega
    rw [not_or, not_and, not_not] at hlast
    by_cases hfeb : n < 337
    · rw [month_next (by omega)]
      exact ofDays_eq hnext _ _
    · rw [february_next (by omega) hlast.2]
      exact ofDays_eq hnext _ _

-- ---------------------------------------------------------------------------
-- Dates as numbers
-- ---------------------------------------------------------------------------

def packed (d : Date) : Int := d.year * 10000 + d.month * 100 + d.day

theorem packed_lt_next (d : Date) : d.packed < d.next.packed := by
  have hday := d.day_mem
  have hmonth := d.month_mem
  have hdim := daysInMonth_bounds d.year d.month
  unfold packed
  by_cases h : d.day < daysInMonth d.year d.month
  · obtain ⟨hy, hm, hd⟩ := next_of_lt h
    omega
  · by_cases h12 : d.month < 12
    · obtain ⟨hy, hm, hd⟩ := next_of_month_end h h12
      omega
    · obtain ⟨hy, hm, hd⟩ := next_of_year_end h h12
      omega

/-- Between two days the number grows by at least the days between them. -/
theorem packed_ofDays_add (z : Int) (k : Nat) :
    (ofDays z).packed + k ≤ (ofDays (z + k)).packed := by
  induction k with
  | zero => simp
  | succ k ih =>
    have hlt := packed_lt_next (ofDays (z + k))
    rw [← ofDays_succ] at hlt
    rw [Nat.cast_succ, ← add_assoc, ← add_assoc]
    omega

end Date

end CppUtil.Lib

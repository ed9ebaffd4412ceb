import CppUtil.Logger.Rotation

/-!
# Which files are deleted

`DeleteOverdueFile` compares hours as decimal numbers `yyyymmddhh`: a file goes
when the number of the current hour is more than `retain_hours_` above its own.
Within a day that is the number of hours between them; over midnight it is at
least 76 more for each day.

`removed_overdue_iff` says for which runs no file is deleted too early: those
that meet no two hours closer than `retain_hours_` whose numbers are further
apart than that.
-/

namespace CppUtil.Logger

open Lang Lib

-- ---------------------------------------------------------------------------
-- The numbers of the hours
-- ---------------------------------------------------------------------------

/-- The suffix of an hour, counted from the hour 0 of 1970-01-01 on. -/
def suffixOf (hour : Int) : Int := (Date.ofDays (hour / 24)).packed * 100 + hour % 24

theorem hourSuffix_localtimeAt (offset tvSec : Int) :
    (localtimeAt offset tvSec).hourSuffix = suffixOf ((tvSec + offset) / 3600) := by
  have hday : (tvSec + offset) / 86400 = (tvSec + offset) / 3600 / 24 := by omega
  simp only [Tm.hourSuffix, localtimeAt, suffixOf, Date.packed, hday]
  omega

theorem suffixOf_add (hour : Int) (k : Nat) : suffixOf hour + k ≤ suffixOf (hour + k) := by
  obtain ⟨days, hdays⟩ : ∃ days : Nat, (hour + k) / 24 = hour / 24 + days :=
    ⟨((hour + k) / 24 - hour / 24).toNat, by omega⟩
  have hpacked := Date.packed_ofDays_add (hour / 24) days
  simp only [suffixOf, hdays]
  omega

theorem suffixOf_lt (hlt : h < n) : suffixOf h < suffixOf n := by
  have hadd := suffixOf_add h (n - h).toNat
  rw [show h + ((n - h).toNat : Int) = n by omega] at hadd
  omega

theorem suffixOf_le_iff : suffixOf h ≤ suffixOf n ↔ h ≤ n := by
  constructor
  · intro hle
    by_contra hlt
    have hback := suffixOf_lt (Int.not_le.mp hlt)
    omega
  · intro hle
    rcases hle.eq_or_lt with rfl | hlt
    · exact Int.le_refl _
    · exact (suffixOf_lt hlt).le

theorem suffixOf_inj (heq : suffixOf h = suffixOf n) : h = n :=
  Int.le_antisymm (suffixOf_le_iff.mp heq.le) (suffixOf_le_iff.mp heq.ge)

theorem suffixOf_sub (hday : h / 24 = n / 24) : suffixOf n - suffixOf h = n - h := by
  simp only [suffixOf, hday]
  omega

-- ---------------------------------------------------------------------------
-- One cut
-- ---------------------------------------------------------------------------

variable {a : FileAppender} {sh : Shared}

theorem deleteLoop_spec (nowHour : Int) (hours : List Int) (files : FileSystem) :
    (Shared.deleteLoop a nowHour hours files).1 =
        hours.filter (fun hour => nowHour ≤ hour + a.retainHours_) ∧
      (Shared.deleteLoop a nowHour hours files).2.2 =
        (hours.filter fun hour => hour + a.retainHours_ < nowHour).map (.removed · nowHour) := by
  induction hours generalizing files with
  | nil => exact ⟨rfl, rfl⟩
  | cons hour hours ih =>
    by_cases hlt : nowHour > hour + a.retainHours_
    · have hnot : ¬ nowHour ≤ hour + a.retainHours_ := not_le.mpr hlt
      simp [Shared.deleteLoop, hlt, hnot, ih]
    · have hle : nowHour ≤ hour + a.retainHours_ := not_lt.mp hlt
      simp [Shared.deleteLoop, hlt, hle, ih]

theorem mem_insertHour : x ∈ Shared.insertHour hour hours ↔ x = hour ∨ x ∈ hours := by
  unfold Shared.insertHour
  split
  case isTrue h => exact ⟨.inr, fun hx => hx.elim (fun he => he ▸ h) id⟩
  case isFalse => simp

@[simp] theorem openStream_historyFiles :
    (sh.openStream a opened).historyFiles_ = sh.historyFiles_ := by
  cases opened <;> rfl

theorem cut_spec (ha : 0 < a.retainHours_) (hnow : nowHour > sh.lastHourSuffix_) :
    ∃ replaced, (sh.cut a nowHour renamed opened).1.lastHourSuffix_ = nowHour ∧
      (∀ x, x ∈ (sh.cut a nowHour renamed opened).1.historyFiles_ ↔
        (x = sh.lastHourSuffix_ ∨ x ∈ sh.historyFiles_) ∧ nowHour ≤ x + a.retainHours_) ∧
      (sh.cut a nowHour renamed opened).2 = .rotated sh.lastHourSuffix_ nowHour replaced ::
        ((Shared.insertHour sh.lastHourSuffix_ sh.historyFiles_).filter
          fun hour => hour + a.retainHours_ < nowHour).map (.removed · nowHour) := by
  have hpos : ¬ a.retainHours_ ≤ 0 := not_le.mpr ha
  simp only [Shared.cut, if_pos hnow, gt_iff_lt, if_pos ha, Shared.deleteOverdueFile, if_neg hpos,
    openStream_historyFiles, deleteLoop_spec, List.mem_filter, mem_insertHour, decide_eq_true_eq]
  exact ⟨_, trivial, fun _ => trivial, rfl⟩

-- ---------------------------------------------------------------------------
-- Runs
-- ---------------------------------------------------------------------------

def nowHours (es : List Event) : List Int :=
  es.filterMap fun
    | .rotated _ nowHour _ => some nowHour
    | _ => none

theorem mem_rotatedHours : x ∈ rotatedHours es ↔ ∃ nowHour replaced,
    .rotated x nowHour replaced ∈ es := by
  simp only [rotatedHours, List.mem_filterMap]
  constructor
  · rintro ⟨e, he, hx⟩
    cases e <;> cases hx
    exact ⟨_, _, he⟩
  · rintro ⟨nowHour, replaced, he⟩
    exact ⟨_, he, rfl⟩

theorem mem_nowHours : y ∈ nowHours es ↔ ∃ lastHour replaced,
    .rotated lastHour y replaced ∈ es := by
  simp only [nowHours, List.mem_filterMap]
  constructor
  · rintro ⟨e, he, hy⟩
    cases e <;> cases hy
    exact ⟨_, _, he⟩
  · rintro ⟨lastHour, replaced, he⟩
    exact ⟨_, he, rfl⟩

theorem mem_rotatedHours_cut (ha : 0 < a.retainHours_) (hnow : nowHour > sh.lastHourSuffix_) :
    x ∈ rotatedHours (es ++ (sh.cut a nowHour renamed opened).2) ↔
      x ∈ rotatedHours es ∨ x = sh.lastHourSuffix_ := by
  obtain ⟨replaced, -, -, hes⟩ := @cut_spec a sh nowHour renamed opened ha hnow
  simp [hes, mem_rotatedHours, exists_or]

theorem mem_nowHours_cut (ha : 0 < a.retainHours_) (hnow : nowHour > sh.lastHourSuffix_) :
    y ∈ nowHours (es ++ (sh.cut a nowHour renamed opened).2) ↔
      y ∈ nowHours es ∨ y = nowHour := by
  obtain ⟨replaced, -, -, hes⟩ := @cut_spec a sh nowHour renamed opened ha hnow
  simp [hes, mem_nowHours, exists_or]

theorem mem_removed_cut (ha : 0 < a.retainHours_) (hnow : nowHour > sh.lastHourSuffix_) :
    .removed x y ∈ es ++ (sh.cut a nowHour renamed opened).2 ↔ .removed x y ∈ es ∨
      ((x = sh.lastHourSuffix_ ∨ x ∈ sh.historyFiles_) ∧ x + a.retainHours_ < nowHour) ∧
        y = nowHour := by
  obtain ⟨replaced, -, -, hes⟩ := @cut_spec a sh nowHour renamed opened ha hnow
  simp [hes, mem_insertHour, eq_comm]

/-- The hours met so far are hours of the calendar. -/
structure Dated (es : List Event) (sh : Shared) : Prop where
  rotated : ∀ x ∈ rotatedHours es, x ∈ Set.range suffixOf
  now : ∀ y ∈ nowHours es, y ∈ Set.range suffixOf
  last : sh.lastHourSuffix_ ∈ Set.range suffixOf

def Frame.Dated : Frame → Prop
  | .comparing _ nowHour | .locking _ nowHour => nowHour ∈ Set.range suffixOf
  | .idle | .cutting _ | .appending _ => True

theorem Dated.cut (h : Dated es sh) (ha : 0 < a.retainHours_)
    (hdate : nowHour ∈ Set.range suffixOf) :
    Dated (es ++ (sh.cut a nowHour renamed opened).2) (sh.cut a nowHour renamed opened).1 := by
  by_cases hnow : nowHour > sh.lastHourSuffix_
  case neg =>
    simpa [Shared.cut, hnow] using h
  obtain ⟨-, hlast, -, -⟩ := @cut_spec a sh nowHour renamed opened ha hnow
  refine ⟨fun x hx => ?_, fun y hy => ?_, by rwa [hlast]⟩
  · rcases (mem_rotatedHours_cut ha hnow).mp hx with hx | rfl
    · exact h.rotated x hx
    · exact h.last
  · rcases (mem_nowHours_cut ha hnow).mp hy with hy | rfl
    · exact h.now y hy
    · exact hdate

/-- A rotated file is in the history until the first cut that finds it overdue. -/
structure Listed (a : FileAppender) (es : List Event) (sh : Shared) : Prop where
  now_le : ∀ y ∈ nowHours es, y ≤ sh.lastHourSuffix_
  history : ∀ x ∈ sh.historyFiles_, x ∈ rotatedHours es ∧
    sh.lastHourSuffix_ ≤ x + a.retainHours_
  listed : ∀ x ∈ rotatedHours es, x ∈ sh.historyFiles_ ∨ ∃ y, .removed x y ∈ es
  removed : ∀ x y, .removed x y ∈ es → x ∈ rotatedHours es ∧ y ∈ nowHours es ∧
    x + a.retainHours_ < y ∧ ∀ z ∈ nowHours es, x + a.retainHours_ < z → y ≤ z

section
variable {es : List Event} {nowHour : Int} {renamed opened : Bool} (h : Listed a es sh)
  (ha : 0 < a.retainHours_) (hnow : nowHour > sh.lastHourSuffix_)
include h ha hnow

theorem Listed.candidate (hx : x = sh.lastHourSuffix_ ∨ x ∈ sh.historyFiles_) :
    x ∈ rotatedHours (es ++ (sh.cut a nowHour renamed opened).2) ∧
      sh.lastHourSuffix_ ≤ x + a.retainHours_ := by
  rw [mem_rotatedHours_cut ha hnow]
  rcases hx with rfl | hx
  · exact ⟨.inr rfl, by omega⟩
  · exact ⟨.inl (h.history x hx).1, (h.history x hx).2⟩

/-- A candidate stays in the history or is removed. -/
theorem Listed.listed_cut (hx : x ∈ rotatedHours (es ++ (sh.cut a nowHour renamed opened).2)) :
    x ∈ (sh.cut a nowHour renamed opened).1.historyFiles_ ∨
      ∃ y, .removed x y ∈ es ++ (sh.cut a nowHour renamed opened).2 := by
  obtain ⟨-, -, hhist, -⟩ := @cut_spec a sh nowHour renamed opened ha hnow
  have hkept : (x = sh.lastHourSuffix_ ∨ x ∈ sh.historyFiles_) →
      x ∈ (sh.cut a nowHour renamed opened).1.historyFiles_ ∨
        ∃ y, .removed x y ∈ es ++ (sh.cut a nowHour renamed opened).2 := by
    intro hx
    by_cases hle : nowHour ≤ x + a.retainHours_
    · exact .inl ((hhist x).mpr ⟨hx, hle⟩)
    · exact .inr ⟨nowHour, (mem_removed_cut ha hnow).mpr (.inr ⟨⟨hx, not_le.mp hle⟩, rfl⟩)⟩
  rcases (mem_rotatedHours_cut ha hnow).mp hx with hx | hx
  · rcases h.listed x hx with hx | ⟨y, hy⟩
    · exact hkept (.inr hx)
    · exact .inr ⟨y, (mem_removed_cut ha hnow).mpr (.inl hy)⟩
  · exact hkept (.inl hx)

theorem Listed.removed_cut (hxy : .removed x y ∈ es ++ (sh.cut a nowHour renamed opened).2) :
    x ∈ rotatedHours (es ++ (sh.cut a nowHour renamed opened).2) ∧
      y ∈ nowHours (es ++ (sh.cut a nowHour renamed opened).2) ∧ x + a.retainHours_ < y ∧
      ∀ z ∈ nowHours (es ++ (sh.cut a nowHour renamed opened).2),
        x + a.retainHours_ < z → y ≤ z := by
  simp only [mem_nowHours_cut ha hnow]
  rcases (mem_removed_cut ha hnow).mp hxy with hxy | ⟨⟨hx, hlt⟩, rfl⟩
  · obtain ⟨hx, hy, hlt, hfirst⟩ := h.removed x y hxy
    refine ⟨(mem_rotatedHours_cut ha hnow).mpr (.inl hx), .inl hy, hlt, fun z hz hxz => ?_⟩
    rcases hz with hz | rfl
    · exact hfirst z hz hxz
    · exact (h.now_le y hy).trans hnow.le
  · obtain ⟨hrotated, hlast⟩ := h.candidate ha hnow hx
    refine ⟨hrotated, .inr rfl, hlt, fun z hz hxz => ?_⟩
    rcases hz with hz | rfl
    · exact absurd (hxz.trans_le (h.now_le z hz)) (not_lt.mpr hlast)
    · exact le_rfl

end

theorem Listed.cut (h : Listed a es sh) (ha : 0 < a.retainHours_) :
    Listed a (es ++ (sh.cut a nowHour renamed opened).2) (sh.cut a nowHour renamed opened).1 := by
  by_cases hnow : nowHour > sh.lastHourSuffix_
  case neg =>
    simpa [Shared.cut, hnow] using h
  obtain ⟨-, hlast, hhist, -⟩ := @cut_spec a sh nowHour renamed opened ha hnow
  refine ⟨?_, ?_, fun x hx => h.listed_cut ha hnow hx, fun x y hxy => h.removed_cut ha hnow hxy⟩
  · intro y hy
    rw [hlast]
    rcases (mem_nowHours_cut ha hnow).mp hy with hy | rfl
    · exact (h.now_le y hy).trans hnow.le
    · exact le_rfl
  · intro x hx
    obtain ⟨hx, hle⟩ := (hhist x).mp hx
    exact ⟨(h.candidate ha hnow hx).1, by rwa [hlast]⟩

theorem append_spec (sh : Shared) (text : Str) (es : List Event) :
    (sh.append a text).1.lastHourSuffix_ = sh.lastHourSuffix_ ∧
      (sh.append a text).1.historyFiles_ = sh.historyFiles_ ∧
      rotatedHours (es ++ (sh.append a text).2) = rotatedHours es ∧
      nowHours (es ++ (sh.append a text).2) = nowHours es ∧
      ∀ x y, .removed x y ∈ es ++ (sh.append a text).2 ↔ .removed x y ∈ es := by
  rw [Shared.append]
  split
  · exact ⟨rfl, rfl, by simp [rotatedHours], by simp [nowHours], by simp⟩
  · exact ⟨rfl, rfl, by simp [rotatedHours], by simp [nowHours], by simp⟩

theorem Dated.append (h : Dated es sh) (text : Str) :
    Dated (es ++ (sh.append a text).2) (sh.append a text).1 := by
  obtain ⟨hlast, -, hrot, hnow, -⟩ := append_spec (a := a) sh text es
  constructor
  · rw [hrot]
    exact h.rotated
  · rw [hnow]
    exact h.now
  · rw [hlast]
    exact h.last

theorem Listed.append (h : Listed a es sh) (text : Str) :
    Listed a (es ++ (sh.append a text).2) (sh.append a text).1 := by
  obtain ⟨hlast, hhist, hrot, hnow, hremoved⟩ := append_spec (a := a) sh text es
  constructor
  · rw [hnow, hlast]
    exact h.now_le
  · rw [hrot, hlast, hhist]
    exact h.history
  · simp only [hrot, hhist, hremoved]
    exact h.listed
  · simp only [hrot, hnow, hremoved]
    exact h.removed

theorem Moves.tracked (hm : Moves a sh fr act sh' fr' es') (ha : 0 < a.retainHours_)
    (hlocal : a.localtime = localtimeAt offset) (hd : Dated es sh) (hl : Listed a es sh)
    (hf : fr.Dated) : Dated (es ++ es') sh' ∧ Listed a (es ++ es') sh' ∧ fr'.Dated := by
  cases hm with
  | write =>
    refine ⟨by simpa using hd, by simpa using hl, ?_⟩
    split <;> trivial
  | clock =>
    refine ⟨by simpa using hd, by simpa using hl, ?_⟩
    rw [Frame.Dated, FileAppender.genHourSuffix, hlocal, hourSuffix_localtimeAt]
    exact ⟨_, rfl⟩
  | later => exact ⟨by simpa using hd, by simpa using hl, hf⟩
  | same => exact ⟨by simpa using hd, by simpa using hl, trivial⟩
  | cut => exact ⟨hd.cut ha hf, hl.cut ha, trivial⟩
  | append => exact ⟨hd.append _, hl.append _, trivial⟩

structure Tracked (a : FileAppender) (os : List (Tid × Event)) (s : State Tid) : Prop where
  dated : Dated (os.map Prod.snd) s.shared
  listed : Listed a (os.map Prod.snd) s.shared
  frames : ∀ t, (s.threads t).Dated

theorem Tracked.init (hlocal : a.localtime = localtimeAt offset) (files : FileSystem)
    (opened : Bool) (tvSec : Int) : Tracked a [] (.init a files opened tvSec : State Tid) := by
  have hlast : (State.init a files opened tvSec : State Tid).shared.lastHourSuffix_ =
      a.genHourSuffix tvSec := by
    cases opened <;> rfl
  refine ⟨⟨by simp [rotatedHours], by simp [nowHours], ?_⟩, ⟨by simp [nowHours], ?_,
    by simp [rotatedHours], by simp⟩, fun _ => trivial⟩
  · rw [hlast, FileAppender.genHourSuffix, hlocal, hourSuffix_localtimeAt]
    exact ⟨_, rfl⟩
  · simp [State.init]

section Runs

variable [DecidableEq Tid]

theorem Tracked.step (ha : 0 < a.retainHours_) (hlocal : a.localtime = localtimeAt offset)
    (h : Tracked a os s) (hstep : (machine a Tid).step s x = some (s', o)) :
    Tracked a (os ++ o) s' := by
  obtain ⟨u, act⟩ := x
  obtain ⟨sh, fr, es, hmove, rfl, rfl⟩ := Machine.interleave_step_iff.mp hstep
  have hes : (os ++ es.map fun e => (u, e)).map Prod.snd = os.map Prod.snd ++ es := by
    simp [Function.comp_def]
  obtain ⟨hd, hl, hf⟩ := (step_moves hmove).tracked ha hlocal h.dated h.listed (h.frames u)
  refine ⟨by rwa [hes], by rwa [hes], fun t => ?_⟩
  by_cases htu : t = u
  · subst htu
    simpa using hf
  · simpa [Function.update_of_ne htu] using h.frames t

/-- Each deletion in a run is of a file more than `retain_hours_` hours old,
exactly if on no day after the one of a rotated file the file is cut at an hour
within `retain_hours_` of it whose number is further away. -/
theorem removed_overdue_iff {a : FileAppender} (ha : 0 < a.retainHours_)
    (hlocal : a.localtime = localtimeAt offset)
    (h : (machine a Tid).run (.init a files opened tvSec) as = some (s, os)) :
    (∀ t x y, (t, .removed x y) ∈ os →
      ∃ hour now, x = suffixOf hour ∧ y = suffixOf now ∧ a.retainHours_ < now - hour) ↔
    ∀ hour now, suffixOf hour ∈ rotatedHours (os.map Prod.snd) →
      suffixOf now ∈ nowHours (os.map Prod.snd) → hour / 24 < now / 24 →
      now - hour ≤ a.retainHours_ → suffixOf now - suffixOf hour ≤ a.retainHours_ := by
  have htr : Tracked a os s :=
    @Machine.run_keeps _ _ _ (machine a Tid) [] [] _ _ _ _ (fun _ _ => True)
      (fun _ => Tracked a) (fun _ _ _ _ _ _ hi _ hst => hi.step ha hlocal hst)
      (.init hlocal files opened tvSec) .trivial h
  constructor
  · intro hgood hour now hrot hnow _ hclose
    by_contra hfar
    rcases htr.listed.listed _ hrot with hhist | ⟨y, hy⟩
    · -- a file in the history is overdue at no hour so far
      have hle := (htr.listed.history _ hhist).2
      have hlast := htr.listed.now_le _ hnow
      omega
    · obtain ⟨-, -, -, hfirst⟩ := htr.listed.removed _ _ hy
      have hyle := hfirst _ hnow (by omega)
      obtain ⟨⟨t, e⟩, hmem, rfl⟩ := List.mem_map.mp hy
      obtain ⟨hour', now', heq, rfl, hlate⟩ := hgood t _ _ hmem
      cases suffixOf_inj heq
      have hnow' := suffixOf_le_iff.mp hyle
      omega
  · intro hcond t x y hmem
    obtain ⟨hx, hy, hlt, -⟩ := htr.listed.removed x y (List.mem_map_of_mem hmem)
    obtain ⟨hour, rfl⟩ := htr.dated.rotated x hx
    obtain ⟨now, rfl⟩ := htr.dated.now y hy
    refine ⟨hour, now, rfl, rfl, ?_⟩
    by_contra hclose
    have horder : hour < now := Int.not_le.mp (mt suffixOf_le_iff.mpr (by omega))
    by_cases hday : hour / 24 = now / 24
    · have hsub := suffixOf_sub hday
      omega
    · have hfar := hcond hour now hx hy (by omega) (by omega)
      omega

end Runs

def writeAt (tvSec : Int) : List (Unit × Act) :=
  [((), .write "a".toList), ((), .clock tvSec), ((), .next), ((), .cut true true), ((), .next)]

set_option maxRecDepth 4000 in
theorem removed_overdue_fiveHours : ∃ s os,
    (machine (utcAppender 4) Unit).run (.init (utcAppender 4) (fun _ => none) true 0)
      (writeAt 18000) = some (s, os) ∧ ((), .removed 1970010100 1970010105) ∈ os ∧
    ∀ hour now, suffixOf hour ∈ rotatedHours (os.map Prod.snd) →
      suffixOf now ∈ nowHours (os.map Prod.snd) → hour / 24 < now / 24 →
      now - hour ≤ 4 → suffixOf now - suffixOf hour ≤ 4 := by
  have hrun : ((machine (utcAppender 4) Unit).run (.init (utcAppender 4) (fun _ => none) true 0)
      (writeAt 18000)).map Prod.snd =
        some [((), .rotated 1970010100 1970010105 none), ((), .removed 1970010100 1970010105),
          ((), .wrote "a".toList)] := by
    decide
  obtain ⟨⟨s, os⟩, hs, hos⟩ := Option.map_eq_some_iff.mp hrun
  subst hos
  refine ⟨s, _, hs, by decide, (removed_overdue_iff (by decide) rfl hs).mp ?_⟩
  intro t x y hmem
  obtain ⟨rfl, rfl⟩ : x = 1970010100 ∧ y = 1970010105 := by simpa using hmem
  exact ⟨0, 5, by decide, by decide, by decide⟩

set_option maxRecDepth 4000 in
/-- At midnight the file of the hour before is deleted. -/
theorem removed_early_midnight : ∃ s os,
    (machine (utcAppender 4) Unit).run (.init (utcAppender 4) (fun _ => none) true 82800)
      (writeAt 86400) = some (s, os) ∧
    ¬ ∀ t x y, (t, .removed x y) ∈ os →
      ∃ hour now, x = suffixOf hour ∧ y = suffixOf now ∧ 4 < now - hour := by
  have hrun : ((machine (utcAppender 4) Unit).run
      (.init (utcAppender 4) (fun _ => none) true 82800) (writeAt 86400)).map Prod.snd =
        some [((), .rotated (suffixOf 23) (suffixOf 24) none),
          ((), .removed (suffixOf 23) (suffixOf 24)), ((), .wrote "a".toList)] := by
    decide
  obtain ⟨⟨s, os⟩, hs, hos⟩ := Option.map_eq_some_iff.mp hrun
  subst hos
  refine ⟨s, _, hs, fun hgood => ?_⟩
  obtain ⟨hour, now, hx, hy, hlate⟩ := hgood () (suffixOf 23) (suffixOf 24) (by simp)
  have hhour := suffixOf_inj hx
  have hnow := suffixOf_inj hy
  omega

end CppUtil.Logger

import CppUtil.Logger.Retention

/-!
# What the history holds

The history has no hour more than `retain_hours_` hours before the last
rotation, and the file of every hour that has left it is gone
(`history_within_retention`). The first rests on the numbers of the hours, which
differ at least by the hours in between; the second on a name that is never
used twice, as the hours of rotations rise.
-/

namespace CppUtil.Logger

open Lang Lib

theorem sub_le_suffixOf_sub (hle : h ≤ n) : n - h ≤ suffixOf n - suffixOf h := by
  have hadd := suffixOf_add h (n - h).toNat
  rw [show h + ((n - h).toNat : Int) = n by omega] at hadd
  omega

-- ---------------------------------------------------------------------------
-- The files of a cut
-- ---------------------------------------------------------------------------

variable {a : FileAppender} {sh : Shared} {es : List Event}

theorem deleteLoop_absent (h : files path = none) :
    (Shared.deleteLoop a nowHour hours files).2.1 path = none := by
  induction hours generalizing files with
  | nil => exact h
  | cons hour hours ih =>
    rw [Shared.deleteLoop]
    split
    · exact ih (FileSystem.remove_absent h)
    · exact ih h

theorem deleteLoop_removed (hx : x ∈ hours) (hlate : nowHour > x + a.retainHours_) :
    (Shared.deleteLoop a nowHour hours files).2.1 (a.rotatedPath x) = none := by
  induction hours generalizing files with
  | nil => exact absurd hx List.not_mem_nil
  | cons hour hours ih =>
    rw [Shared.deleteLoop]
    rcases List.mem_cons.mp hx with rfl | hx
    · rw [if_pos hlate]
      exact deleteLoop_absent FileSystem.remove_self
    · split <;> exact ih hx

section
variable {nowHour : Int} {renamed opened : Bool}

theorem openStream_files (hpath : path ≠ a.filePath_) :
    (sh.openStream a opened).files path = sh.files path := by
  cases opened with
  | true => exact FileSystem.openAppend_of_ne hpath
  | false => rfl

/-- The files of a cut are those the loop leaves, and of rotated files only that
of the last hour is new among them. -/
theorem cut_files (ha : 0 < a.retainHours_) (hnow : nowHour > sh.lastHourSuffix_) :
    ∃ files, (sh.cut a nowHour renamed opened).1.files = (Shared.deleteLoop a nowHour
        (Shared.insertHour sh.lastHourSuffix_ sh.historyFiles_) files).2.1 ∧
      ∀ x ≠ sh.lastHourSuffix_, sh.files (a.rotatedPath x) = none →
        files (a.rotatedPath x) = none := by
  have hpos : ¬a.retainHours_ ≤ 0 := not_le.mpr ha
  simp only [Shared.cut, if_pos hnow, gt_iff_lt, if_pos ha, Shared.deleteOverdueFile, if_neg hpos,
    openStream_historyFiles]
  refine ⟨_, rfl, fun x hx h => ?_⟩
  rw [openStream_files FileAppender.rotatedPath_ne]
  cases renamed with
  | true => exact FileSystem.rename_absent (fun heq => hx (FileAppender.rotatedPath_inj heq)) h
  | false => exact h

theorem cut_absent (ha : 0 < a.retainHours_) (hnow : nowHour > sh.lastHourSuffix_)
    (hx : x ≠ sh.lastHourSuffix_) (h : sh.files (a.rotatedPath x) = none) :
    (sh.cut a nowHour renamed opened).1.files (a.rotatedPath x) = none := by
  obtain ⟨files, hcut, hfiles⟩ := @cut_files a sh nowHour renamed opened ha hnow
  rw [hcut]
  exact deleteLoop_absent (hfiles x hx h)

theorem cut_removed (ha : 0 < a.retainHours_) (hnow : nowHour > sh.lastHourSuffix_)
    (hx : x = sh.lastHourSuffix_ ∨ x ∈ sh.historyFiles_) (hlate : x + a.retainHours_ < nowHour) :
    (sh.cut a nowHour renamed opened).1.files (a.rotatedPath x) = none := by
  obtain ⟨files, hcut, -⟩ := @cut_files a sh nowHour renamed opened ha hnow
  rw [hcut]
  exact deleteLoop_removed (mem_insertHour.mpr hx) hlate

end

-- ---------------------------------------------------------------------------
-- Runs
-- ---------------------------------------------------------------------------

structure Swept (a : FileAppender) (es : List Event) (sh : Shared) : Prop where
  rotated_lt : ∀ x ∈ rotatedHours es, x < sh.lastHourSuffix_
  last_now : ∀ now ∈ (nowHours es).getLast?, sh.lastHourSuffix_ = now
  gone : ∀ x y, .removed x y ∈ es → sh.files (a.rotatedPath x) = none

theorem Swept.cut (h : Swept a es sh) (hl : Listed a es sh) (ha : 0 < a.retainHours_) :
    Swept a (es ++ (sh.cut a nowHour renamed opened).2) (sh.cut a nowHour renamed opened).1 := by
  by_cases hnow : nowHour > sh.lastHourSuffix_
  case neg =>
    simpa [Shared.cut, hnow] using h
  obtain ⟨replaced, hlast, -, hes⟩ := @cut_spec a sh nowHour renamed opened ha hnow
  refine ⟨fun x hx => ?_, fun now hmem => ?_, fun x y hxy => ?_⟩
  · rw [hlast]
    rcases (mem_rotatedHours_cut ha hnow).mp hx with hx | rfl
    · exact (h.rotated_lt x hx).trans hnow
    · exact hnow
  · have hhours : nowHours (es ++ (sh.cut a nowHour renamed opened).2)
        = nowHours es ++ [nowHour] := by
      simp [hes, nowHours, List.filterMap_map]
    rw [hhours, List.getLast?_concat] at hmem
    rw [hlast]
    exact Option.some.inj hmem
  · rcases (mem_removed_cut ha hnow).mp hxy with hxy | ⟨⟨hx, hlate⟩, -⟩
    · have hlt := h.rotated_lt x (hl.removed x y hxy).1
      exact cut_absent ha hnow hlt.ne (h.gone x y hxy)
    · exact cut_removed ha hnow hx hlate

theorem Swept.append (h : Swept a es sh) (text : Str) :
    Swept a (es ++ (sh.append a text).2) (sh.append a text).1 := by
  obtain ⟨hlast, -, hrot, hnow, hremoved⟩ := append_spec (a := a) sh text es
  have hfiles : ∀ x, (sh.append a text).1.files (a.rotatedPath x) = sh.files (a.rotatedPath x) := by
    intro x
    rw [Shared.append]
    split
    · exact FileSystem.append_of_ne FileAppender.rotatedPath_ne
    · rfl
  constructor
  · rw [hrot, hlast]
    exact h.rotated_lt
  · rw [hnow, hlast]
    exact h.last_now
  · simp only [hremoved, hfiles]
    exact h.gone

theorem Moves.swept (hm : Moves a sh fr act sh' fr' es') (ha : 0 < a.retainHours_)
    (hl : Listed a es sh) (h : Swept a es sh) : Swept a (es ++ es') sh' := by
  cases hm with
  | cut => exact h.cut hl ha
  | append => exact h.append _
  | write | clock | later | same => simpa using h

section Runs

variable [DecidableEq Tid]

theorem Swept.step (ha : 0 < a.retainHours_) {s : State Tid} {os : List (Tid × Event)}
    (hl : Listed a (os.map Prod.snd) s.shared) (h : Swept a (os.map Prod.snd) s.shared)
    (hstep : (machine a Tid).step s x = some (s', o)) :
    Swept a ((os ++ o).map Prod.snd) s'.shared := by
  obtain ⟨u, act⟩ := x
  obtain ⟨sh, fr, es, hmove, rfl, rfl⟩ := Machine.interleave_step_iff.mp hstep
  have hes : (os ++ es.map fun e => (u, e)).map Prod.snd = os.map Prod.snd ++ es := by
    simp [Function.comp_def]
  rw [hes]
  exact (step_moves hmove).swept ha hl h

/-- The numbers of the hours rise with them, by at least the hours in between.
So whatever the threads and their clocks do, the history holds no hour more
than `retain_hours_` hours before the last rotation; and of the hours rotated,
those that are not in it have no file any more. -/
theorem history_within_retention {a : FileAppender} (ha : 0 < a.retainHours_)
    (hlocal : a.localtime = localtimeAt offset)
    (h : (machine a Tid).run (.init a files opened tvSec) as = some (s, os)) :
    (∀ tvSec, a.genHourSuffix tvSec = suffixOf ((tvSec + offset) / 3600)) ∧
    (∀ hour now, hour < now → suffixOf hour < suffixOf now) ∧
    (∀ hour now, hour ≤ now → now - hour ≤ suffixOf now - suffixOf hour) ∧
    (∀ now ∈ (nowHours (os.map Prod.snd)).getLast?, ∃ t, now = suffixOf t ∧
      ∀ x ∈ s.shared.historyFiles_, ∃ hour, x = suffixOf hour ∧ t - hour ≤ a.retainHours_) ∧
    (∀ x ∈ rotatedHours (os.map Prod.snd),
      x ∈ s.shared.historyFiles_ ∨ s.shared.files (a.rotatedPath x) = none) := by
  obtain ⟨htr, hsw⟩ : Tracked a os s ∧ Swept a (os.map Prod.snd) s.shared :=
    @Machine.run_keeps _ _ _ (machine a Tid) [] [] _ _ _ _ (fun _ _ => True)
      (fun _ os s => Tracked a os s ∧ Swept a (os.map Prod.snd) s.shared)
      (fun _ _ _ _ _ _ hi _ hst => ⟨hi.1.step ha hlocal hst, hi.2.step ha hi.1.listed hst⟩)
      ⟨.init hlocal files opened tvSec, by simp [rotatedHours], by simp [nowHours], by simp⟩
      .trivial h
  refine ⟨fun tvSec => ?_, fun _ _ => suffixOf_lt, fun _ _ => sub_le_suffixOf_sub,
    fun now hmem => ?_, fun x hx => ?_⟩
  · rw [FileAppender.genHourSuffix, hlocal, hourSuffix_localtimeAt]
  · have hlast := hsw.last_now now hmem
    obtain ⟨t, ht⟩ := htr.dated.last
    refine ⟨t, hlast.symm.trans ht.symm, fun x hx => ?_⟩
    obtain ⟨hrot, hle⟩ := htr.listed.history x hx
    obtain ⟨hour, rfl⟩ := htr.dated.rotated x hrot
    refine ⟨hour, rfl, ?_⟩
    have hbefore : hour ≤ t := suffixOf_le_iff.mp (ht ▸ (hsw.rotated_lt _ hrot).le)
    have hsub := sub_le_suffixOf_sub hbefore
    omega
  · refine (htr.listed.listed x hx).imp_right ?_
    rintro ⟨y, hy⟩
    exact hsw.gone x y hy

end Runs

set_option maxRecDepth 8000 in
theorem history_within_retention_twoCuts : ∃ s os,
    (machine (utcAppender 4) Unit).run (.init (utcAppender 4) (fun _ => none) true 0)
      (writeAt 3600 ++ writeAt 18000) = some (s, os) ∧
    s.shared.historyFiles_ = [1970010101] ∧
    s.shared.files ((utcAppender 4).rotatedPath 1970010100) = none := by
  have hrun : ((machine (utcAppender 4) Unit).run (.init (utcAppender 4) (fun _ => none) true 0)
      (writeAt 3600 ++ writeAt 18000)).map (fun x => (x.1.shared.historyFiles_, x.2)) =
        some ([1970010101], [((), .rotated 1970010100 1970010101 none), ((), .wrote "a".toList),
          ((), .rotated 1970010101 1970010105 none), ((), .removed 1970010100 1970010105),
          ((), .wrote "a".toList)]) := by
    decide
  obtain ⟨⟨s, os⟩, hs, heq⟩ := Option.map_eq_some_iff.mp hrun
  obtain ⟨hhistory, rfl⟩ := Prod.mk.inj heq
  obtain ⟨-, -, -, -, hgone⟩ := history_within_retention (by decide) rfl hs
  refine ⟨s, _, hs, hhistory, (hgone 1970010100 (by decide)).resolve_left ?_⟩
  rw [show s.shared.historyFiles_ = [1970010101] from hhistory]
  decide

end CppUtil.Logger

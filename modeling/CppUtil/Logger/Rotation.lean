import CppUtil.Logger.FileAppender

/-!
# Where the lines of a log are

Threads write to one `FileAppender`, and the clock is whatever it is. Each cut
raises `last_hour_suffix_`, so the name a file is moved to was never used
before, and nothing is overwritten. `lines_kept`: the files in the order of
their hours, with the current file at the end, are the lines in the order in
which they were appended, and each thread's lines come in its own order.
-/

namespace CppUtil.Logger

open Lang Lib

-- ---------------------------------------------------------------------------
-- Paths
-- ---------------------------------------------------------------------------

namespace FileAppender

variable {a : FileAppender}

theorem rotatedPath_inj (h : a.rotatedPath i = a.rotatedPath j) : i = j := by
  have hs : stdToString i = stdToString j := List.append_cancel_left h
  exact Option.some.inj (by rw [← readInt_stdToString i, hs, readInt_stdToString])

theorem rotatedPath_ne : a.rotatedPath i ≠ a.filePath_ := by
  intro h
  have hlen := congrArg List.length h
  simp [rotatedPath] at hlen

end FileAppender

-- ---------------------------------------------------------------------------
-- What was written
-- ---------------------------------------------------------------------------

def line (text : Str) : Str := cString (snprintf FileAppender.buffSize text)

def Event.lines : Event → List Str
  | .wrote line => [line]
  | _ => []

def rotatedHours (es : List Event) : List Int :=
  es.filterMap fun
    | .rotated lastHour _ _ => some lastHour
    | _ => none

/-- The lines in the files of the given hours and in the current file. -/
def found (a : FileAppender) (hours : List Int) (files : FileSystem) : List Str :=
  hours.flatMap (fun hour => (files (a.rotatedPath hour)).getD []) ++ (files a.filePath_).getD []

def written (os : List (Tid × Event)) : List (Tid × Str) :=
  os.flatMap fun x => x.2.lines.map fun line => (x.1, line)

def Act.lines : Act → List Str
  | .write text => [line text]
  | _ => []

def Frame.pending : Frame → List Str
  | .idle => []
  | .cutting text | .comparing text _ | .locking text _ | .appending text => [line text]

def Act.Succeeds : Act → Prop
  | .cut renamed opened => renamed = true ∧ opened = true
  | _ => True

instance : (act : Act) → Decidable act.Succeeds
  | .cut renamed opened => inferInstanceAs (Decidable (renamed = true ∧ opened = true))
  | .write _ | .clock _ | .next => isTrue trivial

-- ---------------------------------------------------------------------------
-- The critical sections
-- ---------------------------------------------------------------------------

/-- After the events `es`, with the lines `old` in the log at first. -/
structure Kept (a : FileAppender) (old : List Str) (es : List Event) (sh : Shared) : Prop where
  isOpen : sh.isOpen = true
  current : (sh.files a.filePath_).isSome
  rising : (rotatedHours es ++ [sh.lastHourSuffix_]).Pairwise (· < ·)
  unused : ∀ hour, hour ∉ rotatedHours es → sh.files (a.rotatedPath hour) = none
  intact : ∀ lastHour nowHour replaced, .rotated lastHour nowHour replaced ∈ es → replaced = none
  found : found a (rotatedHours es) sh.files = old ++ es.flatMap Event.lines

variable {a : FileAppender} {sh : Shared}

theorem Kept.append (h : Kept a old es sh) (text : Str) :
    Kept a old (es ++ (sh.append a text).2) (sh.append a text).1 := by
  have happ : sh.append a text =
      ({ sh with files := sh.files.append a.filePath_ (line text) }, [.wrote (line text)]) := by
    simp [Shared.append, h.isOpen, line]
  have hhours : rotatedHours (es ++ [.wrote (line text)]) = rotatedHours es := by
    simp [rotatedHours]
  have hother : ∀ hour, (sh.files.append a.filePath_ (line text)) (a.rotatedPath hour) =
      sh.files (a.rotatedPath hour) := fun _ =>
    FileSystem.append_of_ne FileAppender.rotatedPath_ne
  rw [happ]
  refine ⟨h.isOpen, ?_, ?_, fun hour hh => ?_, ?_, ?_⟩
  · simpa using h.current
  · rw [hhours]
    exact h.rising
  · rw [hhours] at hh
    exact (hother hour).trans (h.unused hour hh)
  · simpa using h.intact
  · obtain ⟨cur, hcur⟩ := Option.isSome_iff_exists.mp h.current
    have hfound := h.found
    simp only [Logger.found, hcur, Option.getD_some] at hfound
    simp only [Logger.found, hhours, hother, FileSystem.append_self, hcur, Option.map_some,
      Option.getD_some, List.flatMap_append, ← List.append_assoc, hfound]
    simp [Event.lines]

theorem Kept.last_notMem (h : Kept a old es sh) : sh.lastHourSuffix_ ∉ rotatedHours es := by
  intro hmem
  have hlt := (List.pairwise_append.mp h.rising).2.2 _ hmem _ (List.mem_singleton_self _)
  exact lt_irrefl _ hlt

/-- A cut moves what is in the log file to the path of the last hour, and opens
an empty log file. -/
theorem cut_renames (ha : a.retainHours_ = 0) (hnow : nowHour > sh.lastHourSuffix_)
    (hcur : sh.files a.filePath_ = some cur) :
    ∃ files, sh.cut a nowHour true true =
        ({ sh with files, isOpen := true, lastHourSuffix_ := nowHour },
          [.rotated sh.lastHourSuffix_ nowHour (sh.files (a.rotatedPath sh.lastHourSuffix_))]) ∧
      files a.filePath_ = some [] ∧ files (a.rotatedPath sh.lastHourSuffix_) = some cur ∧
      ∀ path, path ≠ a.rotatedPath sh.lastHourSuffix_ → path ≠ a.filePath_ →
        files path = sh.files path := by
  obtain ⟨fs, hren, hnew, hold, hrest⟩ :=
    FileSystem.rename_spec hcur (@FileAppender.rotatedPath_ne a sh.lastHourSuffix_)
  refine ⟨fs.openAppend a.filePath_, ?_, ?_, ?_, fun path hlast hfile => ?_⟩
  · simp [Shared.cut, hnow, hren, ha, Shared.openStream]
  · simp [hold]
  · exact (FileSystem.openAppend_of_ne FileAppender.rotatedPath_ne).trans hnew
  · rw [FileSystem.openAppend_of_ne hfile]
    exact hrest path hlast hfile

theorem Kept.cut_eq (h : Kept a old es sh) (ha : a.retainHours_ = 0)
    (hnow : nowHour > sh.lastHourSuffix_) :
    ∃ cur files, sh.files a.filePath_ = some cur ∧
      sh.cut a nowHour true true =
        ({ sh with files, isOpen := true, lastHourSuffix_ := nowHour },
          [.rotated sh.lastHourSuffix_ nowHour none]) ∧
      files a.filePath_ = some [] ∧ files (a.rotatedPath sh.lastHourSuffix_) = some cur ∧
      ∀ hour, hour ≠ sh.lastHourSuffix_ →
        files (a.rotatedPath hour) = sh.files (a.rotatedPath hour) := by
  obtain ⟨cur, hcur⟩ := Option.isSome_iff_exists.mp h.current
  obtain ⟨files, hcut, hempty, hlast, hrest⟩ := cut_renames ha hnow hcur
  rw [h.unused _ h.last_notMem] at hcut
  exact ⟨cur, files, hcur, hcut, hempty, hlast, fun hour hne =>
    hrest _ (fun he => hne (FileAppender.rotatedPath_inj he)) FileAppender.rotatedPath_ne⟩

theorem Kept.cut (h : Kept a old es sh) (ha : a.retainHours_ = 0) (nowHour : Int) :
    Kept a old (es ++ (sh.cut a nowHour true true).2) (sh.cut a nowHour true true).1 := by
  by_cases hnow : nowHour > sh.lastHourSuffix_
  case neg =>
    simpa [Shared.cut, hnow] using h
  obtain ⟨cur, files, hcur, hcut, hempty, hlast, hother⟩ := h.cut_eq ha hnow
  have hhours : rotatedHours (es ++ [.rotated sh.lastHourSuffix_ nowHour none]) =
      rotatedHours es ++ [sh.lastHourSuffix_] := by
    simp [rotatedHours]
  rw [hcut]
  refine ⟨rfl, by simp [hempty], ?_, fun hour hh => ?_, ?_, ?_⟩
  · rw [hhours, List.pairwise_append]
    refine ⟨h.rising, List.pairwise_singleton .., fun hour hmem _ hm => ?_⟩
    cases List.mem_singleton.mp hm
    rcases List.mem_append.mp hmem with hm | hm
    · exact lt_trans ((List.pairwise_append.mp h.rising).2.2 _ hm _ (List.mem_singleton_self _)) hnow
    · cases List.mem_singleton.mp hm
      exact hnow
  · rw [hhours, List.mem_append, List.mem_singleton, not_or] at hh
    exact (hother hour hh.2).trans (h.unused hour hh.1)
  · intro l n r hm
    rcases List.mem_append.mp hm with hm | hm
    · exact h.intact l n r hm
    · cases List.mem_singleton.mp hm
      rfl
  · have hsame : (rotatedHours es).flatMap (fun hour => (files (a.rotatedPath hour)).getD []) =
        (rotatedHours es).flatMap fun hour => (sh.files (a.rotatedPath hour)).getD [] :=
      List.flatMap_congr fun hour hmem => by
        rw [hother hour fun he => h.last_notMem (he ▸ hmem)]
    have hfound := h.found
    simp only [Logger.found, hcur, Option.getD_some] at hfound
    simp [Logger.found, hhours, hlast, hempty, hsame, Event.lines, ← hfound]

-- ---------------------------------------------------------------------------
-- Runs
-- ---------------------------------------------------------------------------

theorem Moves.kept (hm : Moves a sh fr act sh' fr' es') (ha : a.retainHours_ = 0)
    (hok : act.Succeeds) (h : Kept a old es sh) : Kept a old (es ++ es') sh' := by
  cases hm with
  | cut =>
    obtain ⟨rfl, rfl⟩ := hok
    exact h.cut ha _
  | append => exact h.append _
  | write | clock | later | same => simpa using h

theorem Moves.lines (hm : Moves a sh fr act sh' fr' es') (ha : a.retainHours_ = 0)
    (h : Kept a old es sh) : fr.pending ++ act.lines = es'.flatMap Event.lines ++ fr'.pending := by
  cases hm with
  | write => cases a.isCut_ <;> rfl
  | append => simp [Shared.append, h.isOpen, Frame.pending, Act.lines, Event.lines, line]
  | cut =>
    simp only [Shared.cut, ha, gt_iff_lt, lt_irrefl, if_false]
    split <;> rfl
  | clock | later | same => rfl

theorem Kept.init (hnone : ∀ hour, files (a.rotatedPath hour) = none) :
    Kept a ((files a.filePath_).getD []) [] (State.init a files true tvSec : State Tid).shared where
  isOpen := rfl
  current := by simp [State.init, Shared.openStream]
  rising := List.pairwise_singleton ..
  unused hour _ := (FileSystem.openAppend_of_ne FileAppender.rotatedPath_ne).trans (hnone hour)
  intact := by simp
  found := by simp [Logger.found, rotatedHours, State.init, Shared.openStream]

theorem written_append (os : List (Tid × Event)) (t : Tid) (es : List Event) :
    written (os ++ es.map fun e => (t, e)) =
      written os ++ (es.flatMap Event.lines).map fun line => (t, line) := by
  simp [written, List.flatMap_map, List.map_flatMap]

theorem written_lines (os : List (Tid × Event)) :
    (written os).map Prod.snd = (os.map Prod.snd).flatMap Event.lines := by
  simp [written, List.flatMap_map, List.map_flatMap, Function.comp_def]

variable [DecidableEq Tid]

/-- What a run keeps: the files hold the lines written, and what each thread
has asked to write is written or pending. -/
def Recorded (a : FileAppender) (old : List Str) (as : List (Tid × Act))
    (os : List (Tid × Event)) (s : State Tid) : Prop :=
  Kept a old (os.map Prod.snd) s.shared ∧
    ∀ t, (ofThread t as).flatMap Act.lines = ofThread t (written os) ++ (s.threads t).pending

theorem Recorded.step (ha : a.retainHours_ = 0) (h : Recorded a old as os s)
    (hok : x.2.Succeeds) (hstep : (machine a Tid).step s x = some (s', o)) :
    Recorded a old (as ++ [x]) (os ++ o) s' := by
  obtain ⟨u, act⟩ := x
  obtain ⟨sh, fr, es, hmove, rfl, rfl⟩ := Machine.interleave_step_iff.mp hstep
  obtain ⟨hkept, hlines⟩ := h
  have hm := step_moves hmove
  refine ⟨?_, fun t => ?_⟩
  · have hes : (os ++ es.map fun e => (u, e)).map Prod.snd = os.map Prod.snd ++ es := by
      simp [Function.comp_def]
    rw [hes]
    exact hm.kept ha hok hkept
  · rw [flatMap_ofThread_concat, written_append, ofThread_append, ofThread_map, hlines]
    by_cases htu : u = t
    · subst htu
      simp only [if_true, Function.update_self, List.append_assoc]
      rw [hm.lines ha hkept]
    · simp [htu, Function.update_of_ne (Ne.symm htu)]

/-- With nothing deleted, system calls that succeed and no rotated file at
first, whatever the threads and their clocks do: `last_hour_suffix_` only rises
(each hour in the list is its value before a cut), no `rename` overwrites a
file, and the files in the order of their hours have the lines in the order in
which they were written, each thread's in its own order. -/
theorem lines_kept {a : FileAppender} (ha : a.retainHours_ = 0) {files : FileSystem}
    (hnone : ∀ hour, files (a.rotatedPath hour) = none) {as : List (Tid × Act)}
    (hok : ∀ x ∈ as, x.2.Succeeds)
    (h : (machine a Tid).run (.init a files true tvSec) as = some (s, os)) :
    let hours := rotatedHours (os.map Prod.snd)
    (hours ++ [s.shared.lastHourSuffix_]).Pairwise (· < ·) ∧
    (∀ t lastHour nowHour replaced, (t, .rotated lastHour nowHour replaced) ∈ os →
      replaced = none) ∧
    (∀ hour, hour ∉ hours → s.shared.files (a.rotatedPath hour) = none) ∧
    found a hours s.shared.files =
      (files a.filePath_).getD [] ++ (written os).map Prod.snd ∧
    ∀ t, (ofThread t as).flatMap Act.lines =
      ofThread t (written os) ++ (s.threads t).pending := by
  have hrec : Recorded a ((files a.filePath_).getD []) as os s :=
    @Machine.run_keeps _ _ _ (machine a Tid) [] [] _ _ _ _ (fun _ x => x.2.Succeeds)
      (Recorded a ((files a.filePath_).getD [])) (fun _ _ _ _ _ _ hr hs hst => hr.step ha hs hst)
      ⟨.init hnone, fun _ => rfl⟩ (.of_forall hok) h
  obtain ⟨hkept, hlines⟩ := hrec
  refine ⟨hkept.rising, ?_, hkept.unused, ?_, hlines⟩
  · intro t lastHour nowHour replaced hmem
    exact hkept.intact lastHour nowHour replaced (List.mem_map_of_mem hmem)
  · rw [written_lines]
    exact hkept.found

def utcAppender (retainHours : Int) : FileAppender :=
  .new [] "log".toList retainHours true (localtimeAt 0)

def bothCut : List (Bool × Act) :=
  [(false, .write "a".toList), (true, .write "b".toList), (false, .clock 3600), (true, .clock 3600),
    (false, .next), (true, .next), (true, .cut true true), (false, .cut true true),
    (false, .next), (true, .next)]

set_option maxRecDepth 4000 in
theorem lines_kept_bothCut : ∃ s os,
    (machine (utcAppender 0) Bool).run (.init (utcAppender 0) (fun _ => none) true 0) bothCut =
      some (s, os) ∧
    rotatedHours (os.map Prod.snd) = [1970010100] ∧
    found (utcAppender 0) [1970010100] s.shared.files = ["a".toList, "b".toList] := by
  have hrun : ((machine (utcAppender 0) Bool).run
      (.init (utcAppender 0) (fun _ => none) true 0) bothCut).map Prod.snd =
        some [(true, .rotated 1970010100 1970010101 none), (false, .wrote "a".toList),
          (true, .wrote "b".toList)] := by
    decide
  obtain ⟨⟨s, os⟩, hs, hos⟩ := Option.map_eq_some_iff.mp hrun
  subst hos
  exact ⟨s, _, hs, rfl, (lines_kept rfl (fun _ => rfl) (by decide) hs).2.2.2.1⟩

end CppUtil.Logger

import CppUtil.Logger.Sinks

/-!
# Which file a line is in

One thread writes, hour suffixes do not fall, and the system calls succeed. A
file is only cut by the first `Write` of a later hour, so until then the log
file has the lines of the hour `last_hour_suffix_` and no other; it is moved to
the name of that hour (`lines_placed`).
-/

namespace CppUtil.Logger

open Lang Lib

variable {a : FileAppender} {sh : Shared} {files : FileSystem} {hours : Set Int}
  {ws : List (Int × Str)}

-- ---------------------------------------------------------------------------
-- A sequence of `Write` calls
-- ---------------------------------------------------------------------------

def FileAppender.hourOf (a : FileAppender) (w : Int × Str) : Int := a.genHourSuffix w.1

/-- `Write` calls of one thread, each with the time of its clock. -/
def Shared.writes (a : FileAppender) : List (Int × Str) → Shared → Shared
  | [], sh => sh
  | w :: ws, sh => (sh.write a ⟨w.1, true, true⟩ w.2).1.writes a ws

def writesActs (a : FileAppender) : List (Int × Str) → Shared → List (Unit × Act)
  | [], _ => []
  | w :: ws, sh =>
    writeActs a ⟨w.1, true, true⟩ w.2 sh ++
      writesActs a ws (sh.write a ⟨w.1, true, true⟩ w.2).1

theorem run_writesActs (a : FileAppender) (ws : List (Int × Str)) (sh : Shared) :
    ∃ os, (machine a Unit).run ⟨sh, fun _ => .idle⟩ (writesActs a ws sh) =
      some (⟨sh.writes a ws, fun _ => .idle⟩, os) := by
  induction ws generalizing sh with
  | nil => exact ⟨[], rfl⟩
  | cons w ws ih =>
    obtain ⟨os, hrest⟩ := ih (sh.write a ⟨w.1, true, true⟩ w.2).1
    exact ⟨_, Machine.run_append_iff.mpr ⟨_, _, _, run_writeActs a _ w.2 sh, hrest, rfl⟩⟩

def linesAt (a : FileAppender) (hour : Int) (ws : List (Int × Str)) : List Str :=
  (ws.filter fun w => a.hourOf w = hour).map fun w => line w.2

theorem linesAt_concat (a : FileAppender) (hour : Int) (ws : List (Int × Str)) (w : Int × Str) :
    linesAt a hour (ws ++ [w])
      = linesAt a hour ws ++ if a.hourOf w = hour then [line w.2] else [] := by
  rw [linesAt, List.filter_append, List.map_append, linesAt]
  split
  · rename_i hw
    simp [hw]
  · rename_i hw
    simp [hw]

theorem linesAt_nil (h : ∀ w ∈ ws, a.hourOf w ≠ hour) : linesAt a hour ws = [] := by
  simpa [linesAt] using h

-- ---------------------------------------------------------------------------
-- The critical sections
-- ---------------------------------------------------------------------------

/-- The lines `ws` have been written in some of the hours `hours`, the last of
which is the current one. Files of other names are those of the start. -/
structure Located (a : FileAppender) (files : FileSystem) (hours : Set Int)
    (ws : List (Int × Str)) (sh : Shared) : Prop where
  isOpen : sh.isOpen = true
  last_mem : sh.lastHourSuffix_ ∈ hours
  le_last : ∀ hour ∈ hours, hour ≤ sh.lastHourSuffix_
  written : ∀ w ∈ ws, a.hourOf w ∈ hours
  current : sh.files a.filePath_ = some (linesAt a sh.lastHourSuffix_ ws)
  rotated : ∀ hour ∈ hours, hour ≠ sh.lastHourSuffix_ →
    sh.files (a.rotatedPath hour) = some (linesAt a hour ws)
  other : ∀ path, path ≠ a.filePath_ →
    (∀ hour ∈ hours, hour ≠ sh.lastHourSuffix_ → path ≠ a.rotatedPath hour) →
    sh.files path = files path

/-- At a later hour the lines of the last one are moved to its name. -/
theorem Located.cut (h : Located a files hours ws sh) (ha : a.retainHours_ = 0)
    (hnow : nowHour > sh.lastHourSuffix_) :
    Located a files (insert nowHour hours) ws (sh.cut a nowHour true true).1 ∧
      (sh.cut a nowHour true true).1.lastHourSuffix_ = nowHour := by
  obtain ⟨files', hcut, hempty, hmoved, hrest⟩ := cut_renames ha hnow h.current
  have hnew : ∀ hour ∈ hours, hour ≠ nowHour := fun hour hmem =>
    ((h.le_last hour hmem).trans_lt hnow).ne
  rw [hcut]
  refine ⟨⟨rfl, Set.mem_insert .., ?_, fun w hw => ?_, ?_, ?_, ?_⟩, rfl⟩
  · rintro hour (rfl | hmem)
    · exact le_rfl
    · exact (h.le_last hour hmem).trans hnow.le
  · exact Set.mem_insert_of_mem _ (h.written w hw)
  · rw [linesAt_nil fun w hw => hnew _ (h.written w hw)]
    exact hempty
  · intro hour hmem hne
    have hold : hour ∈ hours := hmem.resolve_left hne
    by_cases hlast : hour = sh.lastHourSuffix_
    · rw [hlast]
      exact hmoved
    · refine (hrest _ (fun heq => hlast (FileAppender.rotatedPath_inj heq))
        FileAppender.rotatedPath_ne).trans ?_
      exact h.rotated hour hold hlast
  · intro path hpath hother
    have hfree : ∀ hour ∈ hours, path ≠ a.rotatedPath hour := fun hour hmem =>
      hother hour (Set.mem_insert_of_mem _ hmem) (hnew hour hmem)
    refine (hrest path (hfree _ h.last_mem) hpath).trans ?_
    exact h.other path hpath fun hour hmem _ => hfree hour hmem

theorem Located.append (h : Located a files hours ws sh) (hw : a.hourOf w = sh.lastHourSuffix_) :
    Located a files hours (ws ++ [w]) (sh.append a w.2).1 := by
  have happ : (sh.append a w.2).1
      = { sh with files := sh.files.append a.filePath_ (line w.2) } := by
    simp [Shared.append, h.isOpen, line]
  rw [happ]
  refine ⟨h.isOpen, h.last_mem, h.le_last, fun w' hw' => ?_, ?_, ?_, ?_⟩
  · rcases List.mem_append.mp hw' with hw' | hw'
    · exact h.written w' hw'
    · rw [List.mem_singleton.mp hw', hw]
      exact h.last_mem
  · simp [linesAt_concat, hw, h.current]
  · intro hour hmem hne
    rw [linesAt_concat, if_neg (by rw [hw]; exact hne.symm), List.append_nil]
    exact (FileSystem.append_of_ne FileAppender.rotatedPath_ne).trans (h.rotated hour hmem hne)
  · intro path hpath hother
    exact (FileSystem.append_of_ne hpath).trans (h.other path hpath hother)

theorem Located.write (h : Located a files hours ws sh) (hcut : a.isCut_ = true)
    (ha : a.retainHours_ = 0) (hle : sh.lastHourSuffix_ ≤ a.hourOf w) :
    Located a files (insert (a.hourOf w) hours) (ws ++ [w]) (sh.write a ⟨w.1, true, true⟩ w.2).1 := by
  have hwrite : (sh.write a ⟨w.1, true, true⟩ w.2).1 =
      ((if a.hourOf w > sh.lastHourSuffix_ then (sh.cut a (a.hourOf w) true true).1
        else sh).append a w.2).1 := by
    simp only [Shared.write, Shared.cutIfNeed, hcut, if_true, apply_ite Prod.fst]
    rfl
  rw [hwrite]
  split
  · rename_i hnow
    obtain ⟨hlocated, hlast⟩ := h.cut ha hnow
    exact hlocated.append hlast.symm
  · rename_i hnow
    have hsame : a.hourOf w = sh.lastHourSuffix_ := le_antisymm (not_lt.mp hnow) hle
    rw [Set.insert_eq_of_mem (hsame ▸ h.last_mem)]
    exact h.append hsame

-- ---------------------------------------------------------------------------
-- Runs
-- ---------------------------------------------------------------------------

theorem Located.init (hnone : files a.filePath_ = none) (tvSec : Int) :
    Located a files {a.genHourSuffix tvSec} []
      (State.init a files true tvSec : State Unit).shared where
  isOpen := rfl
  last_mem := rfl
  le_last _ hour := (Set.mem_singleton_iff.mp hour).le
  written := by simp
  current := by simp [State.init, Shared.openStream, hnone, linesAt]
  rotated _ hmem hne := absurd hmem hne
  other _ hpath _ := FileSystem.openAppend_of_ne hpath

theorem Located.writes (h : Located a files hours ws sh) (hcut : a.isCut_ = true)
    (ha : a.retainHours_ = 0)
    (hsorted : (sh.lastHourSuffix_ :: ws'.map a.hourOf).Pairwise (· ≤ ·)) :
    Located a files (hours ∪ {hour | hour ∈ ws'.map a.hourOf}) (ws ++ ws') (sh.writes a ws') := by
  induction ws' generalizing hours ws sh with
  | nil => simpa [Shared.writes] using h
  | cons w ws' ih =>
    obtain ⟨hle, hrest⟩ := List.pairwise_cons.mp hsorted
    have hone := h.write hcut ha (hle _ List.mem_cons_self)
    -- The hour of this `Write` is the latest of all, so it is the current one now.
    have hlast : (sh.write a ⟨w.1, true, true⟩ w.2).1.lastHourSuffix_ = a.hourOf w := by
      refine le_antisymm ?_ (hone.le_last _ (Set.mem_insert ..))
      rcases hone.last_mem with heq | hmem
      · exact heq.le
      · exact (h.le_last _ hmem).trans (hle _ List.mem_cons_self)
    have hall := ih hone (by rw [hlast]; exact hrest)
    have hhours : insert (a.hourOf w) hours ∪ {hour | hour ∈ ws'.map a.hourOf}
        = hours ∪ {hour | hour ∈ (w :: ws').map a.hourOf} := by
      ext hour
      simp only [Set.mem_union, Set.mem_insert_iff, Set.mem_ofPred_eq, List.map_cons, List.mem_cons]
      tauto
    rwa [hhours, List.append_assoc, List.singleton_append] at hall

/-- One thread writes `ws`, with hour suffixes that do not fall from the one at
`Init` on. Afterwards the log file has the lines of the current hour and the
file of every other hour its lines, in writing order; no other file has
changed. -/
theorem lines_placed {a : FileAppender} (hcut : a.isCut_ = true) (ha : a.retainHours_ = 0)
    {files : FileSystem} (hnone : files a.filePath_ = none) {tvSec : Int}
    {ws : List (Int × Str)}
    (hsorted : (a.genHourSuffix tvSec :: ws.map a.hourOf).Pairwise (· ≤ ·)) :
    let init : State Unit := .init a files true tvSec
    let hours := a.genHourSuffix tvSec :: ws.map a.hourOf
    ∃ sh os, (machine a Unit).run init (writesActs a ws init.shared)
        = some (⟨sh, fun _ => .idle⟩, os) ∧
      (sh.lastHourSuffix_ ∈ hours ∧ ∀ hour ∈ hours, hour ≤ sh.lastHourSuffix_) ∧
      sh.files a.filePath_ = some (linesAt a sh.lastHourSuffix_ ws) ∧
      (∀ hour ∈ hours, hour ≠ sh.lastHourSuffix_ →
        sh.files (a.rotatedPath hour) = some (linesAt a hour ws)) ∧
      ∀ path, path ≠ a.filePath_ →
        (∀ hour ∈ hours, hour ≠ sh.lastHourSuffix_ → path ≠ a.rotatedPath hour) →
        sh.files path = files path := by
  intro init hours
  obtain ⟨os, hrun⟩ := run_writesActs a ws init.shared
  have hlocated := (Located.init hnone tvSec).writes hcut ha hsorted
  have hhours : ({a.genHourSuffix tvSec} ∪ {hour | hour ∈ ws.map a.hourOf} : Set Int)
      = {hour | hour ∈ hours} := by
    ext hour
    simp [hours]
  rw [hhours, List.nil_append] at hlocated
  exact ⟨init.shared.writes a ws, os, hrun, ⟨hlocated.last_mem, hlocated.le_last⟩,
    hlocated.current, hlocated.rotated, hlocated.other⟩

def idleWrites : List (Int × Str) := [(0, "a".toList), (10800, "b".toList), (10800, "c".toList)]

theorem lines_placed_idleWrites :
    let a := utcAppender 0
    let init : State Unit := .init a (fun _ => none) true 0
    ∃ sh os, (machine a Unit).run init (writesActs a idleWrites init.shared)
        = some (⟨sh, fun _ => .idle⟩, os) ∧
      sh.files a.filePath_ = some ["b".toList, "c".toList] ∧
      sh.files (a.rotatedPath 1970010100) = some ["a".toList] := by
  intro a init
  have hhours : a.genHourSuffix 0 :: idleWrites.map a.hourOf
      = [1970010100, 1970010100, 1970010103, 1970010103] := by decide
  obtain ⟨sh, os, hrun, ⟨hmem, hle⟩, hcurrent, hrotated, -⟩ :=
    @lines_placed a rfl rfl (fun _ => none) rfl 0 idleWrites (by rw [hhours]; decide)
  rw [hhours] at hmem hle hrotated
  have hlast : sh.lastHourSuffix_ = 1970010103 := by
    have hbound := hle 1970010103 (by decide)
    simp only [List.mem_cons, List.not_mem_nil, or_false] at hmem
    omega
  rw [hlast] at hcurrent hrotated
  refine ⟨sh, os, hrun, hcurrent.trans (by decide), ?_⟩
  exact (hrotated 1970010100 (by decide) (by decide)).trans (by decide)

end CppUtil.Logger

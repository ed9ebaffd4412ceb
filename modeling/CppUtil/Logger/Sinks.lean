import CppUtil.Logger.Logger
import CppUtil.Logger.Retention

/-!
# Where a log goes

The console is on until an `Init` succeeds, and no `Init` turns it on again. So
after a success a log below ERROR has only the log file, whether it is open or
not: `log_reaches_iff` says when a log is lost, or is missing on the console
after an `Init` that returned false.
-/

namespace CppUtil.Logger

open Lang Lib

variable {a : FileAppender} {sh : Shared} {l l' : LoggerState}

-- ---------------------------------------------------------------------------
-- `Write`
-- ---------------------------------------------------------------------------

def writeActs (a : FileAppender) (x : CutInput) (text : Str) (sh : Shared) : List (Unit × Act) :=
  [((), .write text)] ++
    (if a.isCut_ then
      [((), .clock x.tvSec), ((), .next)] ++
        if a.genHourSuffix x.tvSec > sh.lastHourSuffix_ then [((), .cut x.renamed x.opened)] else []
    else []) ++ [((), .next)]

theorem run_writeActs (a : FileAppender) (x : CutInput) (text : Str) (sh : Shared) :
    (machine a Unit).run ⟨sh, fun _ => .idle⟩ (writeActs a x text sh) =
      some (⟨(sh.write a x text).1, fun _ => .idle⟩, (sh.write a x text).2.map fun e => ((), e)) := by
  have hupdate : ∀ fr fr' : Frame, Function.update (fun _ : Unit => fr) () fr' = fun _ => fr' :=
    fun _ _ => funext fun _ => rfl
  by_cases hcut : a.isCut_ = true
  · by_cases hlate : a.genHourSuffix x.tvSec > sh.lastHourSuffix_
    · simp [writeActs, Machine.run, machine, Machine.interleave, step, Shared.write,
        Shared.cutIfNeed, hcut, hlate, hupdate]
    · simp [writeActs, Machine.run, machine, Machine.interleave, step, Shared.write,
        Shared.cutIfNeed, hcut, hlate, hupdate]
  · simp [writeActs, Machine.run, machine, Machine.interleave, step, Shared.write,
      Shared.cutIfNeed, hcut, hupdate]

theorem wrote_notMem_cut : .wrote s ∉ (sh.cut a nowHour renamed opened).2 := by
  have hdelete : ∀ sh : Shared, .wrote s ∉ (sh.deleteOverdueFile a nowHour).2 := by
    intro sh
    unfold Shared.deleteOverdueFile
    split <;> simp [deleteLoop_spec]
  by_cases hnow : nowHour > sh.lastHourSuffix_
  · by_cases hretain : a.retainHours_ > 0
    · simp only [Shared.cut, if_pos hnow, if_pos hretain, List.mem_cons, reduceCtorEq, false_or]
      exact hdelete _
    · simp [Shared.cut, hnow, hretain]
  · simp [Shared.cut, hnow]

theorem wrote_mem_write_iff : .wrote s ∈ (sh.write a x text).2 ↔
    (sh.cutIfNeed a x).1.isOpen = true ∧ s = line text := by
  have hcut : .wrote s ∉ (sh.cutIfNeed a x).2 := by
    unfold Shared.cutIfNeed
    split
    · dsimp only
      split
      · exact wrote_notMem_cut
      · simp
    · simp
  cases hopen : (sh.cutIfNeed a x).1.isOpen with
  | true => simp [Shared.write, Shared.append, hopen, hcut, line]
  | false => simpa [Shared.write, Shared.append, hopen] using hcut

/-- The file is open when `Write` comes to append its line. -/
def Appender.opens (x : CutInput) (files : FileSystem) : Option Appender → Bool
  | none => false
  | some a => ((a.shared files).cutIfNeed a.conf x).1.isOpen

theorem Appender.wrote_mem_write_iff : .wrote s ∈ (Appender.write x text files app).2.2 ↔
    Appender.opens x files app = true ∧ s = line text := by
  cases app with
  | none => simp [Appender.write, Appender.opens]
  | some a => exact Logger.wrote_mem_write_iff

-- ---------------------------------------------------------------------------
-- `Log`
-- ---------------------------------------------------------------------------

namespace LoggerState

def fileOpen (x : CutInput) (l : LoggerState) : Bool := Appender.opens x l.files l.fileAppender_

def crashFileOpen (x : CutInput) (l : LoggerState) : Bool :=
  Appender.opens x l.files l.crashFileAppender_

theorem wrote_mem_writeFile_iff :
    .file (.wrote s) ∈ (l.writeFile x msg).2 ↔ l.fileOpen x = true ∧ s = line msg := by
  simp only [writeFile, fileOpen, List.mem_map, Output.file.injEq, exists_eq_right]
  exact Appender.wrote_mem_write_iff

theorem console_notMem_writeFile : .console s ∉ (l.writeFile x msg).2 := by
  simp [writeFile]

theorem crashFile_notMem_writeFile : .crashFile e ∉ (l.writeFile x msg).2 := by
  simp [writeFile]

/-- This log was printed to the console. -/
def Printed (level : Level) (x : LogInput) (os : List Output) : Prop :=
  .console (text level x ++ "\n".toList) ∈ os

def Written (level : Level) (x : LogInput) (os : List Output) : Prop :=
  .file (.wrote (line (text level x))) ∈ os ∨ .crashFile (.wrote (line (text level x))) ∈ os

theorem log_of_lt_error (hlevel : l.priority_ ≤ level) (herror : level < .error) :
    (l.log ndebug level x).2 =
      (if l.isConsoleOutput_ then [.console (text level x ++ "\n".toList)] else []) ++
        (l.writeFile x.cut (text level x)).2 := by
  have hpriority : ¬ level < l.priority_ := Int.not_lt.mpr hlevel
  have hconsole : ¬ level ≥ .error := Int.not_le.mpr herror
  have hne : level ≠ .fatal := by
    rintro rfl
    exact absurd herror (by decide)
  have hcrash : ¬ level ≥ .fatal := by
    revert herror
    cases level <;> decide
  simp [log, hpriority, hconsole, hcrash, hne]

theorem log_below_error (hlevel : l.priority_ ≤ level) (herror : level < .error) :
    (Printed level x (l.log ndebug level x).2 ↔ l.isConsoleOutput_ = true) ∧
      (Written level x (l.log ndebug level x).2 ↔ l.fileOpen x.cut = true) := by
  rw [log_of_lt_error hlevel herror]
  constructor
  · simp [Printed, console_notMem_writeFile]
  · simp [Written, crashFile_notMem_writeFile, wrote_mem_writeFile_iff]

theorem log_prints (hlevel : l.priority_ ≤ level)
    (hprint : l.isConsoleOutput_ = true ∨ level ≥ .error) :
    Printed level x (l.log ndebug level x).2 := by
  have hpriority : ¬ level < l.priority_ := Int.not_lt.mpr hlevel
  simp [Printed, log, hpriority, hprint]

-- ---------------------------------------------------------------------------
-- The console
-- ---------------------------------------------------------------------------

structure Logs (l l' : LoggerState) (os : List Output) : Prop where
  console : l'.isConsoleOutput_ = l.isConsoleOutput_
  silent : ∀ ok, .inited ok ∉ os

theorem Logs.none (l : LoggerState) : Logs l l [] := ⟨rfl, by simp⟩

theorem Logs.append {l₁ l₂ l₃ : LoggerState} (h : Logs l₁ l₂ os) (h' : Logs l₂ l₃ os') :
    Logs l₁ l₃ (os ++ os') :=
  ⟨h'.console.trans h.console, fun ok => by simp [h.silent, h'.silent]⟩

theorem Logs.print (h : Logs l l' os) : Logs l l' (.console s :: os) :=
  ⟨h.console, fun ok => by simp [h.silent]⟩

theorem writeFile_logs (x : CutInput) (msg : Str) (l : LoggerState) :
    Logs l (l.writeFile x msg).1 (l.writeFile x msg).2 :=
  ⟨rfl, by simp [writeFile]⟩

theorem writeCrashFile_logs (x : CutInput) (msg : Str) (l : LoggerState) :
    Logs l (l.writeCrashFile x msg).1 (l.writeCrashFile x msg).2 :=
  ⟨rfl, by simp [writeCrashFile]⟩

theorem backtrace_logs (x : LogInput) (l : LoggerState) :
    Logs l (l.backtrace x).1 (l.backtrace x).2 := by
  unfold backtrace
  cases x.stackFrames with
  | none => exact (Logs.none l).print
  | some frames =>
    exact ((writeFile_logs _ _ l).append (writeCrashFile_logs _ _ _)).print

theorem exitOnFatal_logs (ndebug : Bool) (x : LogInput) (l : LoggerState) :
    Logs l (l.exitOnFatal ndebug x).1 (l.exitOnFatal ndebug x).2 := by
  unfold exitOnFatal
  split
  · split
    · exact .none l
    · exact ⟨(backtrace_logs x _).console, (backtrace_logs x _).silent⟩
  · exact backtrace_logs x l

theorem Logs.ite {c : Prop} [Decidable c] {r : LoggerState × List Output} (h : Logs l r.1 r.2) :
    Logs l (if c then r else (l, [])).1 (if c then r else (l, [])).2 := by
  split
  · exact h
  · exact .none l

theorem log_logs (ndebug : Bool) (level : Level) (x : LogInput) (l : LoggerState) :
    Logs l (l.log ndebug level x).1 (l.log ndebug level x).2 := by
  have hprint : Logs l l (if l.isConsoleOutput_ ∨ level ≥ .error then
      [.console (text level x ++ "\n".toList)] else []) := by
    split
    · exact (Logs.none l).print
    · exact .none l
  by_cases hpriority : level < l.priority_
  · rw [log, if_pos hpriority]
    exact .none l
  · rw [log, if_neg hpriority]
    exact ((hprint.append (writeFile_logs x.cut (text level x) l)).append
      (writeCrashFile_logs x.cut (text level x) _).ite).append (exitOnFatal_logs ndebug x _).ite

/-- A result of `Init`: success turns the console off, and nothing turns it on. -/
structure Inits (l : LoggerState) (r : Option Bool × LoggerState × List Output) : Prop where
  console : r.2.1.isConsoleOutput_ = false ↔ r.1 = some true ∨ l.isConsoleOutput_ = false
  silent : ∀ ok, .inited ok ∉ r.2.2

theorem Logs.inits (h : Logs l r.1 r.2) (hok : ok ≠ some true) : Inits l (ok, r) :=
  ⟨by simp [h.console, hok], h.silent⟩

theorem init_inits (ndebug : Bool) (localtime : Int → Tm) (x : InitInput) (l : LoggerState) :
    Inits l (l.init ndebug localtime x) := by
  unfold init
  cases x.parseFile with
  | error what => exact (log_logs ..).inits (by simp)
  | ok g =>
    dsimp only
    cases g.getInt "Level".toList with
    | error => exact (Logs.none l).inits (by simp)
    | ok level =>
      dsimp only
      cases g.getString "FileName".toList with
      | none =>
        have hlogs := fun x => log_logs ndebug .warn x
          { l with priority_ := (level.bind Level.ofInt?).getD l.priority_ }
        exact ⟨by simp [(hlogs _).console], (hlogs _).silent⟩
      | some fileName =>
        dsimp only
        cases g.getInt "RetainHours".toList with
        | error => exact ⟨by simp, by simp⟩
        | ok retainHours =>
          dsimp only
          split
          · split
            · exact ⟨by simp, by simp⟩
            · exact ⟨by simp, by simp⟩
          · exact ⟨by simp, by simp⟩

/-- The console is off exactly if an `Init` has returned true. -/
theorem step_console (h : l.isConsoleOutput_ = false ↔ .inited (some true) ∈ os)
    (hs : (calls ndebug localtime).step l c = some (l', o)) :
    l'.isConsoleOutput_ = false ↔ .inited (some true) ∈ os ++ o := by
  cases c with
  | init x =>
    simp only [calls, Option.ite_none_left_eq_some, Option.some.injEq, Prod.mk.injEq] at hs
    obtain ⟨-, rfl, rfl⟩ := hs
    obtain ⟨hconsole, hsilent⟩ := init_inits ndebug localtime x l
    rw [hconsole, h]
    simp [hsilent, or_comm, eq_comm]
  | log level x =>
    simp only [calls, Option.ite_none_left_eq_some, Option.some.injEq] at hs
    obtain ⟨-, hlog⟩ := hs
    have hlogs : Logs l l' o := by simpa only [hlog] using log_logs ndebug level x l
    rw [hlogs.console, h]
    simp [hlogs.silent]

-- ---------------------------------------------------------------------------
-- Every log
-- ---------------------------------------------------------------------------

def lastInit (os : List Output) : Option (Option Bool) :=
  (os.filterMap fun
    | .inited ok => some ok
    | _ => none).getLast?

/-- After any calls, a log reaches the console or a file, and the console where
the last `Init` returned false, exactly if it is an ERROR or FATAL log, or no
`Init` has returned true, or the last `Init` did not return false and the log
file is open. -/
theorem log_reaches_iff (files : FileSystem)
    (h : (calls ndebug localtime).run (.new files) as = some (l, os))
    (hlevel : l.priority_ ≤ level) (x : LogInput) :
    let os' := (l.log ndebug level x).2
    ((Printed level x os' ∨ Written level x os') ∧
        (lastInit os = some (some false) → Printed level x os')) ↔
      level ≥ .error ∨ .inited (some true) ∉ os ∨
        (lastInit os ≠ some (some false) ∧ l.fileOpen x.cut = true) := by
  intro os'
  have hconsole : l.isConsoleOutput_ = false ↔ .inited (some true) ∈ os :=
    @Machine.run_keeps _ _ _ (calls ndebug localtime) [] [] _ _ _ _ (fun _ _ => True)
      (fun _ os l => l.isConsoleOutput_ = false ↔ .inited (some true) ∈ os)
      (fun _ _ _ _ _ _ h _ hs => step_console h hs) (by simp [new]) .trivial h
  by_cases herror : level ≥ .error
  · have hprint : Printed level x os' := log_prints hlevel (.inr herror)
    simp [hprint, herror]
  · obtain ⟨hprinted, hwritten⟩ := @log_below_error l level x ndebug hlevel (Int.not_le.mp herror)
    rw [hprinted, hwritten, ← hconsole]
    cases l.isConsoleOutput_ with
    | true => simp
    | false => simp [herror, and_comm]

def plainLog : LogInput where
  stamp := []
  msg := "m".toList
  cut := ⟨0, true, true⟩
  stackFrames := none
  backtraceCut := ⟨0, true, true⟩

def plainInit (fileName : Option Str) (opened : Bool) : InitInput where
  confPath := "logger.conf".toList
  parseFile := .ok fun key => if key = "FileName".toList then fileName.map .string else none
  file := ⟨true, opened, 0⟩
  crashFile := ⟨true, opened, 0⟩
  site := []
  report := plainLog

def infoAfter (as : List Call) : Option (Level × Option (Option Bool) × Bool × List Output) :=
  ((calls true fun _ => ⟨0, 1, 0, 70⟩).run (.new fun _ => none) as).map fun r =>
    (r.1.priority_, lastInit r.2, r.1.fileOpen plainLog.cut, (r.1.log true .info plainLog).2)

theorem log_reaches_iff_retry :
    ∃ l os, (calls true fun _ => ⟨0, 1, 0, 70⟩).run (.new fun _ => none)
        [.init (plainInit none true), .init (plainInit (some "a".toList) true)] = some (l, os) ∧
      lastInit os = some (some true) ∧
      (Printed .info plainLog (l.log true .info plainLog).2 ∨
        Written .info plainLog (l.log true .info plainLog).2) := by
  have h : infoAfter [.init (plainInit none true), .init (plainInit (some "a".toList) true)] =
      some (.debug, some (some true), true, [.file (.wrote "[INFO]m".toList)]) := by decide +kernel
  obtain ⟨⟨l, os⟩, hrun, hl⟩ := Option.map_eq_some_iff.mp h
  simp only [Prod.mk.injEq] at hl
  obtain ⟨hpriority, hlast, hopen, -⟩ := hl
  have hlevel : l.priority_ ≤ .info := by
    rw [hpriority]
    decide
  exact ⟨l, os, hrun, hlast, ((log_reaches_iff _ hrun hlevel plainLog).mpr
    (.inr (.inr ⟨by simp [hlast], hopen⟩))).1⟩

/-- `Init` returns true though the log file cannot be opened, and an INFO log is
lost. Where it can be opened and a second `Init` returns false, an INFO log is
not printed to the console. -/
theorem log_reaches_nothing :
    infoAfter [.init (plainInit (some "a".toList) false)] =
      some (.debug, some (some true), false, [.file (.dropped "[INFO]m".toList)]) ∧
    infoAfter [.init (plainInit (some "a".toList) true), .init (plainInit none true)] =
      some (.debug, some (some false), true, [.file (.wrote "[INFO]m".toList)]) := by
  constructor <;> decide +kernel

end LoggerState

end CppUtil.Logger

import CppUtil.Lang.NewDelete
import CppUtil.Logger.Backtrace

/-!
# The appenders of `Logger` in memory

`Logger` has pointers to its two appenders. `Init` stores a new `FileAppender`
before it is known whether that can be used: where the directory cannot be made,
`FileAppender::Init` returns before `pthread_mutex_init`, and `Log` locks a
mutex that has no value yet, which is undefined. So is the `Write` of a call
stack with a conversion in it to a file that is open. The appenders of earlier
calls of `Init` are not deleted.

`Watch.CanLog` says when a log is defined (`Shows.gives_log`, `Shows.canLog`). The
texts of logs and call stacks are given.
-/

namespace CppUtil.Logger

open Lang Lib

/-- A `FileAppender` in memory, and whether `write_mutex_` was initialised. -/
structure AppenderObject where
  appender : Appender
  mutexInited : Bool

structure LoggerHeap where
  memory : Memory AppenderObject
  news : Nat
  files : FileSystem
  isConsoleOutput_ : Bool
  fileAppender_ : Ptr
  crashFileAppender_ : Ptr
  priority_ : Level
  receiveFatal_ : Bool

namespace LoggerHeap

def new (m : Memory AppenderObject) (files : FileSystem) : LoggerHeap where
  memory := m
  news := 0
  files := files
  isConsoleOutput_ := true
  fileAppender_ := nullptr
  crashFileAppender_ := nullptr
  priority_ := .debug
  receiveFatal_ := false

/-- `FileAppender::Write` through a pointer, where it is not null. It locks
`write_mutex_` in any case. -/
def write (p : Ptr) (x : CutInput) (text : Str) (h : LoggerHeap) :
    Except Stop (LoggerHeap × List Event) :=
  if p = nullptr then .ok (h, [])
  else do
    let o ← h.memory.load p
    if o.mutexInited then
      let (sh, es) := (o.appender.shared h.files).write o.appender.conf x text
      let memory ← h.memory.store p { o with appender := o.appender.update sh }
      return ({ h with memory, files := sh.files }, es)
    else .error .undefined

/-- `vsnprintf` with a format and no arguments, where the `Write` through this
pointer gets to it. -/
def checkFormat (p : Ptr) (x : CutInput) (fmt : Str) (h : LoggerHeap) : Except Stop Unit :=
  if p = nullptr then .ok ()
  else do
    let o ← h.memory.load p
    if Appender.opens x h.files (some o.appender) && converts fmt then .error .undefined
    else return ()

def writeFile (x : CutInput) (text : Str) (h : LoggerHeap) :
    Except Stop (LoggerHeap × List Output) := do
  let (h, es) ← h.write h.fileAppender_ x text
  return (h, es.map .file)

def writeCrashFile (x : CutInput) (text : Str) (h : LoggerHeap) :
    Except Stop (LoggerHeap × List Output) := do
  let (h, es) ← h.write h.crashFileAppender_ x text
  return (h, es.map .crashFile)

def backtrace (x : LogInput) (h : LoggerHeap) : Except Stop (LoggerHeap × List Output) :=
  match x.stackFrames with
  | none => .ok (h, [.console "\t\tdump backtrace fail".toList])
  | some stackFrames => do
    let output := cString (LoggerState.listing stackFrames)
    h.checkFormat h.fileAppender_ x.backtraceCut output
    let (h, es) ← h.writeFile x.backtraceCut (formatNoArgs x.unpassed output)
    h.checkFormat h.crashFileAppender_ x.backtraceCut output
    let (h, es') ← h.writeCrashFile x.backtraceCut (formatNoArgs x.unpassed output)
    return (h, .console output :: es ++ es')

def exitOnFatal (ndebug : Bool) (x : LogInput) (h : LoggerHeap) :
    Except Stop (LoggerHeap × List Output) :=
  if ndebug then
    if h.receiveFatal_ then .ok (h, []) else backtrace x { h with receiveFatal_ := true }
  else backtrace x h

def writeIfFatal (level : Level) (x : LogInput) (h : LoggerHeap) :
    Except Stop (LoggerHeap × List Output) :=
  if level ≥ .fatal then h.writeCrashFile x.cut (LoggerState.text level x) else .ok (h, [])

def exitIfFatal (ndebug : Bool) (level : Level) (x : LogInput) (h : LoggerHeap) :
    Except Stop (LoggerHeap × List Output) :=
  if level = .fatal then h.exitOnFatal ndebug x else .ok (h, [])

def log (ndebug : Bool) (level : Level) (x : LogInput) (h : LoggerHeap) :
    Except Stop (LoggerHeap × List Output) :=
  if level < h.priority_ then .ok (h, [])
  else do
    let printed :=
      if h.isConsoleOutput_ ∨ level ≥ .error then
        [.console (LoggerState.text level x ++ "\n".toList)]
      else []
    let (h, es₁) ← h.writeFile x.cut (LoggerState.text level x)
    let (h, es₂) ← h.writeIfFatal level x
    let (h, es₃) ← h.exitIfFatal ndebug level x
    return (h, printed ++ es₁ ++ es₂ ++ es₃)

section

variable (alloc : Nat → Ptr)

def newAppender (conf : FileAppender) (h : LoggerHeap) : Except Stop (Ptr × LoggerHeap) := do
  let memory ← h.memory.new (alloc h.news) ⟨.new conf, false⟩
  return (alloc h.news, { h with memory, news := h.news + 1 })

def initAppender (p : Ptr) (x : Appender.Input) (h : LoggerHeap) :
    Except Stop (Bool × LoggerHeap) := do
  let o ← h.memory.load p
  let (ok, appender, files) := Appender.init x o.appender h.files
  let memory ← h.memory.store p ⟨appender, o.mutexInited || ok⟩
  return (ok, { h with memory, files })

def makeFile (conf : FileAppender) (x : Appender.Input) (h : LoggerHeap) :
    Except Stop (Bool × LoggerHeap) := do
  let (p, h) ← h.newAppender alloc conf
  { h with fileAppender_ := p }.initAppender p x

def makeCrashFile (conf : FileAppender) (x : Appender.Input) (h : LoggerHeap) :
    Except Stop (Bool × LoggerHeap) := do
  let (p, h) ← h.newAppender alloc conf
  { h with crashFileAppender_ := p }.initAppender p x

def makeFiles (localtime : Int → Tm) (dir fileName : Str) (retainHours : Int) (x : InitInput)
    (h : LoggerHeap) : Except Stop (Option Bool × LoggerHeap × List Output) := do
  let (ok, h) ← h.makeFile alloc (FileAppender.new dir fileName retainHours true localtime) x.file
  if ok then
    let conf := FileAppender.new dir (fileName ++ ".fatal".toList) 0 false localtime
    let (ok, h) ← h.makeCrashFile alloc conf x.crashFile
    if ok then return (some true, { h with isConsoleOutput_ := false }, [])
    else return (some false, h, [])
  else return (some false, h, [])

def init (ndebug : Bool) (localtime : Int → Tm) (x : InitInput) (h : LoggerHeap) :
    Except Stop (Option Bool × LoggerHeap × List Output) :=
  match x.parseFile with
  | .error what => do
    let msg := x.site ++ "parse logger conf fail, path:".toList ++ x.confPath ++
      " err:".toList ++ what
    let r ← h.log ndebug .error { x.report with msg }
    return (some false, r)
  | .ok g =>
    match g.getInt "Level".toList with
    | .error _ => .ok (none, h, [])
    | .ok level =>
      let h := { h with priority_ := (level.bind Level.ofInt?).getD h.priority_ }
      let dir := (g.getString "Directory".toList).getD "./log".toList
      match g.getString "FileName".toList with
      | none => do
        let msg := x.site ++ "parse FileName config fail, print to console".toList
        let r ← h.log ndebug .warn { x.report with msg }
        return (some false, r)
      | some fileName =>
        match g.getInt "RetainHours".toList with
        | .error _ => .ok (none, h, [])
        | .ok retainHours => h.makeFiles alloc localtime dir fileName (retainHours.getD 0) x

def call (ndebug : Bool) (localtime : Int → Tm) (c : LoggerState.Call) (h : LoggerHeap) :
    Except Stop (LoggerHeap × List Output) :=
  if ndebug && h.receiveFatal_ then .error .refused
  else
    match c with
    | .init x => do
      let (ok, h, es) ← h.init alloc ndebug localtime x
      return (h, es ++ [.inited ok])
    | .log level x => h.log ndebug level x

def callAll (ndebug : Bool) (localtime : Int → Tm) :
    List LoggerState.Call → LoggerHeap → Except Stop (LoggerHeap × List Output)
  | [], h => .ok (h, [])
  | c :: cs, h => do
    let (h, os) ← h.call alloc ndebug localtime c
    let (h, os') ← callAll ndebug localtime cs h
    return (h, os ++ os')

end

end LoggerHeap

-- ---------------------------------------------------------------------------
-- Which appenders can be used
-- ---------------------------------------------------------------------------

/-- A logger, whether its appenders, where it has them, can be used, and how many
were made. -/
structure Watch where
  logger : LoggerState
  fileReady : Bool
  crashReady : Bool
  made : Nat

namespace Watch

def new (files : FileSystem) : Watch := ⟨.new files, true, true, 0⟩

/-- Whether `Init` gets as far as to make an appender. -/
def makes (x : InitInput) : Bool :=
  match x.parseFile with
  | .error _ => false
  | .ok g =>
    match g.getInt "Level".toList, g.getString "FileName".toList,
      g.getInt "RetainHours".toList with
    | .ok _, some _, .ok _ => true
    | _, _, _ => false

def after (w : Watch) (l : LoggerState) : LoggerState.Call → Watch
  | .log _ _ => { w with logger := l }
  | .init x =>
    if makes x then
      if x.file.mkdir then ⟨l, true, x.crashFile.mkdir, w.made + 2⟩
      else ⟨l, false, w.crashReady, w.made + 1⟩
    else { w with logger := l }

def calls (ndebug : Bool) (localtime : Int → Tm) : Machine Watch LoggerState.Call Output where
  step w c :=
    ((LoggerState.calls ndebug localtime).step w.logger c).map fun (l, os) => (w.after l c, os)

/-- A call stack with a conversion meets no open file. -/
def CanDump (l : LoggerState) (x : LogInput) : Prop :=
  ∀ stackFrames, x.stackFrames = some stackFrames →
    converts (cString (LoggerState.listing stackFrames)) = true →
      l.fileOpen x.backtraceCut = false ∧ l.crashFileOpen x.backtraceCut = false

def beforeDump (l : LoggerState) (x : LogInput) : LoggerState :=
  ((l.writeFile x.cut (LoggerState.text .fatal x)).1.writeCrashFile x.cut
    (LoggerState.text .fatal x)).1

/-- A log goes to appenders that can be used only, and its call stack can be
written. -/
def CanLog (w : Watch) (level : Level) (x : LogInput) : Prop :=
  level < w.logger.priority_ ∨ w.fileReady = true ∧
    (level = .fatal → w.crashReady = true ∧ CanDump (beforeDump w.logger x) x)

/-- What a call logs, it can log. `Init` logs that the configuration is bad. -/
def Usable (w : Watch) : LoggerState.Call → Prop
  | .log level x => w.CanLog level x
  | .init x =>
    match x.parseFile with
    | .error _ => w.CanLog .error x.report
    | .ok g =>
      match g.getInt "Level".toList, g.getString "FileName".toList with
      | .ok level, none =>
        { w with logger := { w.logger with
            priority_ := (level.bind Level.ofInt?).getD w.logger.priority_ } }.CanLog .warn x.report
      | _, _ => True

theorem canLog_congr {w : Watch} (hlevel : level ≠ .fatal) :
    w.CanLog level x ↔ w.CanLog level x' := by
  simp [CanLog, hlevel]

end Watch

-- ---------------------------------------------------------------------------
-- The appenders in memory are those of the logger
-- ---------------------------------------------------------------------------

def appenderCells (p : Ptr) (ready : Bool) : Option Appender → List (Ptr × AppenderObject)
  | none => []
  | some a => [(p, ⟨a, ready⟩)]

def pointers (p q : Ptr) : Nat := (if p = nullptr then 0 else 1) + if q = nullptr then 0 else 1

/-- The fields are those of the logger, and the memory has its appenders and
those of earlier calls of `Init`. -/
structure Shows (m₀ : Memory AppenderObject) (h : LoggerHeap) (w : Watch)
    (leaked : List (Ptr × AppenderObject)) : Prop where
  files : h.files = w.logger.files
  console : h.isConsoleOutput_ = w.logger.isConsoleOutput_
  priority : h.priority_ = w.logger.priority_
  fatal : h.receiveFatal_ = w.logger.receiveFatal_
  file : h.fileAppender_ = nullptr ↔ w.logger.fileAppender_ = none
  crash : h.crashFileAppender_ = nullptr ↔ w.logger.crashFileAppender_ = none
  fileSet : w.fileReady = false → w.logger.fileAppender_ ≠ none
  crashSet : w.crashReady = false → w.logger.crashFileAppender_ ≠ none
  cells : Cells m₀ h.memory (appenderCells h.fileAppender_ w.fileReady w.logger.fileAppender_ ++
    (appenderCells h.crashFileAppender_ w.crashReady w.logger.crashFileAppender_ ++ leaked))
  made : w.made = leaked.length + pointers h.fileAppender_ h.crashFileAppender_

variable {m₀ : Memory AppenderObject} {h : LoggerHeap} {w : Watch}
  {leaked a b : List (Ptr × AppenderObject)}

namespace LoggerHeap

theorem gives_write (happ : p = nullptr ↔ app = none)
    (hcells : Cells m₀ h.memory (a ++ (appenderCells p true app ++ b))) :
    Gives (h.write p x text) fun r =>
      r.2 = (Appender.write x text h.files app).2.2 ∧
        Cells m₀ r.1.memory (a ++ (appenderCells p true (Appender.write x text h.files app).1 ++ b)) ∧
          r.1 = { h with memory := r.1.memory, files := (Appender.write x text h.files app).2.1 } := by
  rw [write]
  cases app with
  | none =>
    rw [if_pos (happ.mpr rfl)]
    exact ⟨rfl, hcells, rfl⟩
  | some app =>
    rw [if_neg (by simp [happ])]
    have hload : h.memory p = some ⟨app, true⟩ := hcells.holds (p, ⟨app, true⟩) (by simp [appenderCells])
    refine (Gives.load hload).bind ?_
    rintro _ rfl
    refine Gives.bind (Cells.gives_store hcells) ?_
    rintro m hm
    exact ⟨rfl, hm, rfl⟩

theorem checkFormat_eq {files : FileSystem} (hfiles : h.files = files)
    (happ : p = nullptr ↔ app = none)
    (hcells : Cells m₀ h.memory (a ++ (appenderCells p ready app ++ b))) :
    h.checkFormat p x fmt =
      if Appender.opens x files app && converts fmt then .error .undefined else .ok () := by
  rw [checkFormat, hfiles]
  cases app with
  | none =>
    rw [if_pos (happ.mpr rfl)]
    rfl
  | some app =>
    have hload : h.memory p = some ⟨app, ready⟩ :=
      hcells.holds (p, ⟨app, ready⟩) (by simp [appenderCells])
    rw [if_neg (by simp [happ]), Memory.load, hload]
    rfl

theorem ready_of_write (happ : p = nullptr ↔ app = none) (hset : app ≠ none)
    (hcells : Cells m₀ h.memory (a ++ (appenderCells p ready app ++ b)))
    (hok : h.write p x text = .ok r) : ready = true := by
  obtain ⟨app, rfl⟩ := Option.ne_none_iff_exists'.mp hset
  rw [write, if_neg (by simp [happ])] at hok
  obtain ⟨o, ho, hok⟩ := Gives.bind_eq_ok hok
  have hload : h.memory p = some ⟨app, ready⟩ :=
    hcells.holds (p, ⟨app, ready⟩) (by simp [appenderCells])
  rw [Memory.load, hload] at ho
  cases ho
  cases ready with
  | true => rfl
  | false => cases hok

end LoggerHeap

theorem Appender.write_eq_none_iff :
    (Appender.write x text files app).1 = none ↔ app = none := by
  cases app <;> simp [Appender.write]

namespace Shows

theorem gives_writeFile (hs : Shows m₀ h w leaked) (hready : w.fileReady = true) :
    Gives (h.writeFile x text) fun r => r.2 = (w.logger.writeFile x text).2 ∧
      Shows m₀ r.1 { w with logger := (w.logger.writeFile x text).1 } leaked := by
  obtain ⟨l, fileReady, crashReady, made⟩ := w
  cases hready
  refine (LoggerHeap.gives_write (a := []) hs.file hs.cells).bind ?_
  rintro ⟨h', es⟩ ⟨rfl, hcells, hh'⟩
  dsimp only at hcells hh'
  rw [hh', hs.files] at *
  refine ⟨rfl, rfl, hs.console, hs.priority, hs.fatal, ?_, hs.crash, by simp, hs.crashSet, hcells,
    hs.made⟩
  exact hs.file.trans Appender.write_eq_none_iff.symm

theorem gives_writeCrashFile (hs : Shows m₀ h w leaked) (hready : w.crashReady = true) :
    Gives (h.writeCrashFile x text) fun r => r.2 = (w.logger.writeCrashFile x text).2 ∧
      Shows m₀ r.1 { w with logger := (w.logger.writeCrashFile x text).1 } leaked := by
  obtain ⟨l, fileReady, crashReady, made⟩ := w
  cases hready
  refine (LoggerHeap.gives_write hs.crash hs.cells).bind ?_
  rintro ⟨h', es⟩ ⟨rfl, hcells, hh'⟩
  dsimp only at hcells hh'
  rw [hh', hs.files] at *
  refine ⟨rfl, rfl, hs.console, hs.priority, hs.fatal, hs.file, ?_, hs.fileSet, by simp, hcells,
    hs.made⟩
  exact hs.crash.trans Appender.write_eq_none_iff.symm

theorem fileReady (hs : Shows m₀ h w leaked) (hok : h.writeFile x text = .ok r) :
    w.fileReady = true := by
  obtain ⟨r', hr', -⟩ := Gives.bind_eq_ok hok
  by_contra hready
  rw [Bool.not_eq_true] at hready
  have := LoggerHeap.ready_of_write (a := []) hs.file (hs.fileSet hready) hs.cells hr'
  rw [hready] at this
  cases this

theorem crashReady (hs : Shows m₀ h w leaked) (hok : h.writeCrashFile x text = .ok r) :
    w.crashReady = true := by
  obtain ⟨r', hr', -⟩ := Gives.bind_eq_ok hok
  by_contra hready
  rw [Bool.not_eq_true] at hready
  have := LoggerHeap.ready_of_write hs.crash (hs.crashSet hready) hs.cells hr'
  rw [hready] at this
  cases this

theorem checkFormat_file (hs : Shows m₀ h w leaked) :
    h.checkFormat h.fileAppender_ x fmt =
      if w.logger.fileOpen x && converts fmt then .error .undefined else .ok () :=
  LoggerHeap.checkFormat_eq (a := []) hs.files hs.file hs.cells

theorem checkFormat_crashFile (hs : Shows m₀ h w leaked) :
    h.checkFormat h.crashFileAppender_ x fmt =
      if w.logger.crashFileOpen x && converts fmt then .error .undefined else .ok () :=
  LoggerHeap.checkFormat_eq hs.files hs.crash hs.cells

theorem gives_backtrace (hs : Shows m₀ h w leaked) (hfile : w.fileReady = true)
    (hcrash : w.crashReady = true) (hdump : Watch.CanDump w.logger x) :
    Gives (h.backtrace x) fun r => r.2 = (w.logger.backtrace x).2 ∧
      Shows m₀ r.1 { w with logger := (w.logger.backtrace x).1 } leaked := by
  rw [LoggerHeap.backtrace, LoggerState.backtrace]
  cases hframes : x.stackFrames with
  | none => exact ⟨rfl, hs⟩
  | some stackFrames =>
    have hclosed := hdump stackFrames hframes
    refine (Gives.of_eq (a := ()) ?_).bind ?_
    · rw [hs.checkFormat_file]
      exact if_neg fun h => by simp_all
    rintro ⟨⟩ -
    refine (hs.gives_writeFile hfile).bind ?_
    rintro ⟨h₁, es⟩ ⟨rfl, hs₁⟩
    refine (Gives.of_eq (a := ()) ?_).bind ?_
    · rw [hs₁.checkFormat_crashFile, LoggerState.crashFileOpen_writeFile]
      exact if_neg fun h => by simp_all
    rintro ⟨⟩ -
    refine (hs₁.gives_writeCrashFile hcrash).bind ?_
    rintro ⟨h₂, es'⟩ ⟨rfl, hs₂⟩
    exact ⟨rfl, hs₂⟩

theorem canDump (hs : Shows m₀ h w leaked) (hfile : w.fileReady = true)
    (hok : h.backtrace x = .ok r) : Watch.CanDump w.logger x := by
  intro stackFrames hframes hconverts
  simp only [LoggerHeap.backtrace, hframes] at hok
  obtain ⟨⟨⟩, hcheck, hok⟩ := Gives.bind_eq_ok hok
  obtain ⟨⟨h₁, es⟩, hwrite, hok⟩ := Gives.bind_eq_ok hok
  obtain ⟨⟨⟩, hcheck', -⟩ := Gives.bind_eq_ok hok
  have hs₁ := ((hs.gives_writeFile hfile).of_eq_ok hwrite).2
  rw [hs.checkFormat_file, hconverts, Bool.and_true] at hcheck
  rw [hs₁.checkFormat_crashFile, LoggerState.crashFileOpen_writeFile, hconverts,
    Bool.and_true] at hcheck'
  constructor
  · cases hopen : w.logger.fileOpen x.backtraceCut with
    | false => rfl
    | true => simp [hopen] at hcheck
  · cases hopen : w.logger.crashFileOpen x.backtraceCut with
    | false => rfl
    | true => simp [hopen] at hcheck'

theorem setFatal (hs : Shows m₀ h w leaked) :
    Shows m₀ { h with receiveFatal_ := true }
      { w with logger := { w.logger with receiveFatal_ := true } } leaked :=
  ⟨hs.files, hs.console, hs.priority, rfl, hs.file, hs.crash, hs.fileSet, hs.crashSet, hs.cells,
    hs.made⟩

theorem gives_exitOnFatal (hs : Shows m₀ h w leaked) (hfile : w.fileReady = true)
    (hcrash : w.crashReady = true) (hdump : Watch.CanDump w.logger x) :
    Gives (h.exitOnFatal ndebug x) fun r => r.2 = (w.logger.exitOnFatal ndebug x).2 ∧
      Shows m₀ r.1 { w with logger := (w.logger.exitOnFatal ndebug x).1 } leaked := by
  rw [LoggerHeap.exitOnFatal, LoggerState.exitOnFatal, hs.fatal]
  split
  · split
    · exact ⟨rfl, hs⟩
    · exact hs.setFatal.gives_backtrace hfile hcrash hdump
  · exact hs.gives_backtrace hfile hcrash hdump

theorem exitOnFatal_canDump (hs : Shows m₀ h w leaked) (hfile : w.fileReady = true)
    (hrunning : (ndebug && w.logger.receiveFatal_) = false) (hok : h.exitOnFatal ndebug x = .ok r) :
    Watch.CanDump w.logger x := by
  rw [LoggerHeap.exitOnFatal, hs.fatal] at hok
  split at hok
  · next hndebug =>
    have hfatal : w.logger.receiveFatal_ = false := by simpa [hndebug] using hrunning
    rw [if_neg (by simp [hfatal])] at hok
    exact hs.setFatal.canDump hfile hok
  · exact hs.canDump hfile hok

theorem gives_log (hs : Shows m₀ h w leaked) (hcan : w.CanLog level x) :
    Gives (h.log ndebug level x) fun r => r.2 = (w.logger.log ndebug level x).2 ∧
      Shows m₀ r.1 { w with logger := (w.logger.log ndebug level x).1 } leaked := by
  rw [LoggerHeap.log, LoggerState.log, hs.priority, ← hs.console]
  split
  · exact ⟨rfl, hs⟩
  · next hlevel =>
    obtain ⟨hfile, hcrash⟩ := hcan.resolve_left hlevel
    refine (hs.gives_writeFile hfile).bind ?_
    rintro ⟨h₁, es₁⟩ ⟨rfl, hs₁⟩
    by_cases hfatal : level = .fatal
    · subst hfatal
      obtain ⟨hcrash, hdump⟩ := hcrash rfl
      refine (hs₁.gives_writeCrashFile hcrash).bind ?_
      rintro ⟨h₂, es₂⟩ ⟨rfl, hs₂⟩
      refine (hs₂.gives_exitOnFatal hfile hcrash hdump).bind ?_
      rintro ⟨h₃, es₃⟩ ⟨rfl, hs₃⟩
      exact ⟨rfl, hs₃⟩
    · have hbelow : ¬ level ≥ .fatal := by
        cases level with
        | fatal => exact absurd rfl hfatal
        | debug | info | warn | error => decide
      simp only [LoggerHeap.writeIfFatal, LoggerHeap.exitIfFatal, if_neg hfatal, if_neg hbelow]
      exact ⟨rfl, hs₁⟩

theorem canLog (hs : Shows m₀ h w leaked)
    (hrunning : (ndebug && w.logger.receiveFatal_) = false)
    (hok : h.log ndebug level x = .ok r) : w.CanLog level x := by
  rw [LoggerHeap.log, hs.priority] at hok
  split at hok
  · next hlevel => exact .inl hlevel
  · obtain ⟨⟨h₁, es₁⟩, hr₁, hok⟩ := Gives.bind_eq_ok hok
    have hfile := hs.fileReady hr₁
    refine .inr ⟨hfile, ?_⟩
    rintro rfl
    obtain ⟨⟨h₂, es₂⟩, hr₂, hok⟩ := Gives.bind_eq_ok hok
    obtain ⟨⟨h₃, es₃⟩, hr₃, -⟩ := Gives.bind_eq_ok hok
    have hs₁ := ((hs.gives_writeFile hfile).of_eq_ok hr₁).2
    have hcrash := hs₁.crashReady hr₂
    have hs₂ := ((hs₁.gives_writeCrashFile hcrash).of_eq_ok hr₂).2
    exact ⟨hcrash, hs₂.exitOnFatal_canDump hfile hrunning hr₃⟩

end Shows

end CppUtil.Logger

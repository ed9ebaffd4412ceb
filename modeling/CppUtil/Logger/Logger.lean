import CppUtil.Logger.FileAppender

/-!
# `Logger`

`Init` reads a configuration and opens two log files, `Log` prints to the
console and writes to the files. A failed `Init` returns early and leaves what
it has changed until then.

One thread calls both. What the system calls give is an input: the clock,
whether a directory can be made and a file be opened, and the call stack.
-/

namespace CppUtil.Logger

open Lang Lib

-- ---------------------------------------------------------------------------
-- Appenders
-- ---------------------------------------------------------------------------

structure CutInput where
  tvSec : Int
  renamed : Bool
  opened : Bool

def Shared.cutIfNeed (a : FileAppender) (x : CutInput) (sh : Shared) : Shared × List Event :=
  if a.isCut_ then
    let nowHour := a.genHourSuffix x.tvSec
    if nowHour > sh.lastHourSuffix_ then sh.cut a nowHour x.renamed x.opened else (sh, [])
  else (sh, [])

def Shared.write (a : FileAppender) (x : CutInput) (text : Str) (sh : Shared) :
    Shared × List Event :=
  let (sh, es) := sh.cutIfNeed a x
  let (sh, es') := sh.append a text
  (sh, es ++ es')

structure Appender where
  conf : FileAppender
  isOpen : Bool
  lastHourSuffix_ : Int
  historyFiles_ : List Int

namespace Appender

def new (conf : FileAppender) : Appender where
  conf := conf
  isOpen := false
  lastHourSuffix_ := -1
  historyFiles_ := []

def shared (a : Appender) (files : FileSystem) : Shared where
  files := files
  isOpen := a.isOpen
  lastHourSuffix_ := a.lastHourSuffix_
  historyFiles_ := a.historyFiles_

def update (a : Appender) (sh : Shared) : Appender where
  conf := a.conf
  isOpen := sh.isOpen
  lastHourSuffix_ := sh.lastHourSuffix_
  historyFiles_ := sh.historyFiles_

/-- What the system calls of `FileAppender::Init` give. `mkdir` is whether there
is a directory after it. -/
structure Input where
  mkdir : Bool
  opened : Bool
  tvSec : Int

def init (x : Input) (a : Appender) (files : FileSystem) : Bool × Appender × FileSystem :=
  if x.mkdir then
    -- whether the file could be opened is not looked at
    let sh := (a.shared files).openStream a.conf x.opened
    (true, a.update { sh with lastHourSuffix_ := a.conf.genHourSuffix x.tvSec }, sh.files)
  else (false, a, files)

def write (x : CutInput) (text : Str) (files : FileSystem) :
    Option Appender → Option Appender × FileSystem × List Event
  | none => (none, files, [])
  | some a =>
    let (sh, es) := (a.shared files).write a.conf x text
    (some (a.update sh), sh.files, es)

end Appender

-- ---------------------------------------------------------------------------
-- Levels and configurations
-- ---------------------------------------------------------------------------

inductive Level
  | debug
  | info
  | warn
  | error
  | fatal
  deriving DecidableEq

namespace Level

def toInt : Level → Int
  | .debug => 0
  | .info => 1
  | .warn => 2
  | .error => 3
  | .fatal => 4

instance : LE Level := ⟨fun l l' => l.toInt ≤ l'.toInt⟩
instance : LT Level := ⟨fun l l' => l.toInt < l'.toInt⟩
instance (l l' : Level) : Decidable (l ≤ l') := inferInstanceAs (Decidable (l.toInt ≤ l'.toInt))
instance (l l' : Level) : Decidable (l < l') := inferInstanceAs (Decidable (l.toInt < l'.toInt))

def description : Level → Str
  | .debug => "[DEBUG]".toList
  | .info => "[INFO]".toList
  | .warn => "[WARN]".toList
  | .error => "[ERROR]".toList
  | .fatal => "[FATAL]".toList

def ofInt? (n : Int) : Option Level :=
  if n = 0 then some .debug
  else if n = 1 then some .info
  else if n = 2 then some .warn
  else if n = 3 then some .error
  else none

end Level

inductive TomlValue
  | integer (n : Int)
  | string (s : Str)
  | other

def TomlTable := Str → Option TomlValue

/-- `get_qualified_as<int>`, which throws where the number does not fit. -/
def TomlTable.getInt (g : TomlTable) (key : Str) : Except Unit (Option Int) :=
  match g key with
  | some (.integer n) =>
    if n < -2 ^ 31 ∨ 2 ^ 31 - 1 < n then .error () else .ok (some n)
  | _ => .ok none

def TomlTable.getString (g : TomlTable) (key : Str) : Option Str :=
  match g key with
  | some (.string s) => some s
  | _ => none

-- ---------------------------------------------------------------------------
-- The logger
-- ---------------------------------------------------------------------------

/-- The fields of `Logger`, and the files. -/
structure LoggerState where
  files : FileSystem
  isConsoleOutput_ : Bool
  fileAppender_ : Option Appender
  crashFileAppender_ : Option Appender
  priority_ : Level
  receiveFatal_ : Bool

inductive Output
  | console (text : Str)
  | file (e : Event)
  | crashFile (e : Event)
  /-- What `Init` has returned, or nothing where it has thrown. -/
  | inited (ok : Option Bool)
  deriving DecidableEq

structure LogInput where
  /-- What `GenLogPrefix` makes of the time and the ids. -/
  stamp : Str
  /-- What the format and the arguments give. -/
  msg : Str
  cut : CutInput
  /-- The call stack, if it can be dumped. -/
  stackFrames : Option (List Str)
  /-- For the second `Write` of a FATAL log. -/
  backtraceCut : CutInput
  /-- What a conversion in the call stack prints, as it finds no argument. -/
  unpassed : Str → Str := fun _ => []

structure InitInput where
  confPath : Str
  /-- The table at `conf_path`, or the text of the `parse_exception`. -/
  parseFile : Except Str TomlTable
  file : Appender.Input
  crashFile : Appender.Input
  /-- What the log macros put before a message: the file, the line and the function. -/
  site : Str
  report : LogInput

namespace LoggerState

def new (files : FileSystem) : LoggerState where
  files := files
  isConsoleOutput_ := true
  fileAppender_ := none
  crashFileAppender_ := none
  priority_ := .debug
  receiveFatal_ := false

def writeFile (x : CutInput) (text : Str) (l : LoggerState) : LoggerState × List Output :=
  let (fileAppender_, files, es) := Appender.write x text l.files l.fileAppender_
  ({ l with fileAppender_, files }, es.map .file)

def writeCrashFile (x : CutInput) (text : Str) (l : LoggerState) : LoggerState × List Output :=
  let (crashFileAppender_, files, es) := Appender.write x text l.files l.crashFileAppender_
  ({ l with crashFileAppender_, files }, es.map .crashFile)

def listing (stackFrames : List Str) : Str :=
  stackFrames.flatMap fun sf => "\t\t".toList ++ sf ++ "\n".toList

/-- `Backtrace`. To the files the call stack is passed as a format. -/
def backtrace (x : LogInput) (l : LoggerState) : LoggerState × List Output :=
  match x.stackFrames with
  | none => (l, [.console "\t\tdump backtrace fail".toList])
  | some stackFrames =>
    let output := cString (listing stackFrames)
    let (l, es) := l.writeFile x.backtraceCut (formatNoArgs x.unpassed output)
    let (l, es') := l.writeCrashFile x.backtraceCut (formatNoArgs x.unpassed output)
    (l, .console output :: es ++ es')

def text (level : Level) (x : LogInput) : Str :=
  x.stamp ++ level.description ++ x.msg ++
    if level = .fatal then "\n\tExiting due to FATAL log\n\tCall Stack:".toList else []

/-- The end of a FATAL log. With `ndebug` the first one ends the process, and
`receive_fatal_` is left set. -/
def exitOnFatal (ndebug : Bool) (x : LogInput) (l : LoggerState) : LoggerState × List Output :=
  if ndebug then
    if l.receiveFatal_ then (l, []) else backtrace x { l with receiveFatal_ := true }
  else backtrace x l

def log (ndebug : Bool) (level : Level) (x : LogInput) (l : LoggerState) : LoggerState × List Output :=
  if level < l.priority_ then (l, [])
  else
    let printed :=
      if l.isConsoleOutput_ ∨ level ≥ .error then [.console (text level x ++ "\n".toList)] else []
    let (l, es₁) := l.writeFile x.cut (text level x)
    let (l, es₂) := if level ≥ .fatal then l.writeCrashFile x.cut (text level x) else (l, [])
    let (l, es₃) := if level = .fatal then l.exitOnFatal ndebug x else (l, [])
    (l, printed ++ es₁ ++ es₂ ++ es₃)

def init (ndebug : Bool) (localtime : Int → Tm) (x : InitInput) (l : LoggerState) :
    Option Bool × LoggerState × List Output :=
  match x.parseFile with
  | .error what =>
    let msg := x.site ++ "parse logger conf fail, path:".toList ++ x.confPath ++
      " err:".toList ++ what
    (some false, l.log ndebug .error { x.report with msg })
  | .ok g =>
    match g.getInt "Level".toList with
    | .error _ => (none, l, [])
    | .ok level =>
      let l := { l with priority_ := (level.bind Level.ofInt?).getD l.priority_ }
      let dir := (g.getString "Directory".toList).getD "./log".toList
      match g.getString "FileName".toList with
      | none =>
        let msg := x.site ++ "parse FileName config fail, print to console".toList
        (some false, l.log ndebug .warn { x.report with msg })
      | some fileName =>
        match g.getInt "RetainHours".toList with
        | .error _ => (none, l, [])
        | .ok retainHours =>
          let conf := FileAppender.new dir fileName (retainHours.getD 0) true localtime
          let (ok, a, files) := Appender.init x.file (.new conf) l.files
          let l := { l with fileAppender_ := some a, files }
          if ok then
            let conf := FileAppender.new dir (fileName ++ ".fatal".toList) 0 false localtime
            let (ok, a, files) := Appender.init x.crashFile (.new conf) l.files
            let l := { l with crashFileAppender_ := some a, files }
            if ok then (some true, { l with isConsoleOutput_ := false }, []) else (some false, l, [])
          else (some false, l, [])

inductive Call
  | init (x : InitInput)
  | log (level : Level) (x : LogInput)

/-- One call after the other, until the process has ended. -/
def calls (ndebug : Bool) (localtime : Int → Tm) : Machine LoggerState Call Output where
  step l := fun
    | .init x =>
      if ndebug && l.receiveFatal_ then none
      else
        let (ok, l, es) := l.init ndebug localtime x
        some (l, es ++ [.inited ok])
    | .log level x => if ndebug && l.receiveFatal_ then none else some (l.log ndebug level x)

end LoggerState

end CppUtil.Logger

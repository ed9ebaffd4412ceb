import CppUtil.Lang.CString
import CppUtil.Lang.FileSystem
import CppUtil.Lib.Calendar
import CppUtil.Lib.Machine
import Mathlib.Data.List.Sort

/-!
# `FileAppender`

A log file that is cut every hour. `Write` reads the clock, compares the hour
with `last_hour_suffix_` without a lock, and again under the lock, where it
renames the file and opens a new one; then it takes the lock once more to
append its line. A critical section under `write_mutex_` is one step: only the
unlocked comparison could come in between, and `last_hour_suffix_` is the last
thing a section writes.

The clock, and whether `rename` and `open` succeed, are inputs.
-/

namespace CppUtil.Logger

open Lang Lib

structure Tm where
  tmHour : Int
  tmMday : Int
  tmMon : Int
  tmYear : Int
  deriving DecidableEq

structure FileAppender where
  filePath_ : Str
  retainHours_ : Int
  isCut_ : Bool
  /-- `localtime_r`, from the seconds since the epoch. -/
  localtime : Int → Tm

def Tm.hourSuffix (tm : Tm) : Int :=
  tm.tmHour + tm.tmMday * 100 + (tm.tmMon + 1) * 10000 + (tm.tmYear + 1900) * 1000000

def localtimeAt (offset tvSec : Int) : Tm :=
  let date := Date.ofDays ((tvSec + offset) / 86400)
  { tmHour := (tvSec + offset) % 86400 / 3600
    tmMday := date.day
    tmMon := date.month - 1
    tmYear := date.year - 1900 }

namespace FileAppender

def new (dir fileName : Str) (retainHours : Int) (isCut : Bool) (localtime : Int → Tm) :
    FileAppender where
  filePath_ := (if dir = [] then ".".toList else dir) ++ "/".toList ++ fileName
  retainHours_ := retainHours
  isCut_ := isCut
  localtime := localtime

def genHourSuffix (a : FileAppender) (tvSec : Int) : Int := (a.localtime tvSec).hourSuffix

/-- Where the lines of an hour go when the file is cut. -/
def rotatedPath (a : FileAppender) (hour : Int) : Str :=
  a.filePath_ ++ ".".toList ++ stdToString hour

def buffSize : Nat := 4096

end FileAppender

/-- `isOpen` is about `file_stream_`, which is never open on another file than
the one at `filePath_`. -/
structure Shared where
  files : FileSystem
  isOpen : Bool
  lastHourSuffix_ : Int
  historyFiles_ : List Int

inductive Event
  /-- `replaced` is the file that the `rename` overwrote. -/
  | rotated (lastHour nowHour : Int) (replaced : Option (List Str))
  | removed (hour nowHour : Int)
  | wrote (line : Str)
  | dropped (line : Str)
  deriving DecidableEq

namespace Shared

variable (a : FileAppender)

def openStream (opened : Bool) (sh : Shared) : Shared :=
  if opened then { sh with files := sh.files.openAppend a.filePath_, isOpen := true }
  else { sh with isOpen := false }

/-- The loop of `DeleteOverdueFile` over the hours that are left of
`history_files_`: the hours it keeps and the files after it. -/
def deleteLoop (nowHour : Int) : List Int → FileSystem → List Int × FileSystem × List Event
  | [], files => ([], files, [])
  | hour :: hours, files =>
    if nowHour > hour + a.retainHours_ then
      let (kept, files, es) := deleteLoop nowHour hours (files.remove (a.rotatedPath hour))
      (kept, files, .removed hour nowHour :: es)
    else
      let (kept, files, es) := deleteLoop nowHour hours files
      (hour :: kept, files, es)

def deleteOverdueFile (nowHour : Int) (sh : Shared) : Shared × List Event :=
  if a.retainHours_ ≤ 0 then (sh, [])
  else
    let (kept, files, es) := deleteLoop a nowHour sh.historyFiles_ sh.files
    ({ sh with files, historyFiles_ := kept }, es)

def insertHour (hour : Int) (hours : List Int) : List Int :=
  if hour ∈ hours then hours else hours.orderedInsert (· ≤ ·) hour

def cut (nowHour : Int) (renamed opened : Bool) (sh : Shared) : Shared × List Event :=
  -- the critical section of `CutIfNeed`
  if nowHour > sh.lastHourSuffix_ then
    let newFilePath := a.rotatedPath sh.lastHourSuffix_
    let replaced := if renamed then sh.files newFilePath else none
    let files := if renamed then (sh.files.rename a.filePath_ newFilePath).getD sh.files else sh.files
    let sh₁ := openStream a opened { sh with files }
    let (sh₂, es) :=
      if a.retainHours_ > 0 then
        deleteOverdueFile a nowHour
          { sh₁ with historyFiles_ := insertHour sh.lastHourSuffix_ sh₁.historyFiles_ }
      else (sh₁, [])
    ({ sh₂ with lastHourSuffix_ := nowHour },
      .rotated sh.lastHourSuffix_ nowHour replaced :: es)
  else (sh, [])

/-- The critical section of `Write`, where `text` is what the format and the
arguments give. -/
def append (text : Str) (sh : Shared) : Shared × List Event :=
  let line := cString (snprintf FileAppender.buffSize text)
  if sh.isOpen then ({ sh with files := sh.files.append a.filePath_ line }, [.wrote line])
  else (sh, [.dropped line])

end Shared

inductive Frame
  | idle
  | cutting (text : Str)
  | comparing (text : Str) (nowHour : Int)
  | locking (text : Str) (nowHour : Int)
  | appending (text : Str)

inductive Act
  | write (text : Str)
  | clock (tvSec : Int)
  | cut (renamed opened : Bool)
  | next

def step (a : FileAppender) (sh : Shared) (fr : Frame) :
    Act → Option (Shared × Frame × List Event)
  | .write text =>
    match fr with
    | .idle => some (sh, if a.isCut_ then .cutting text else .appending text, [])
    | _ => none
  | .clock tvSec =>
    match fr with
    | .cutting text => some (sh, .comparing text (a.genHourSuffix tvSec), [])
    | _ => none
  | .cut renamed opened =>
    match fr with
    | .locking text nowHour =>
      let (sh, es) := sh.cut a nowHour renamed opened
      some (sh, .appending text, es)
    | _ => none
  | .next =>
    match fr with
    | .comparing text nowHour =>
      if nowHour > sh.lastHourSuffix_ then some (sh, .locking text nowHour, [])
      else some (sh, .appending text, [])
    | .appending text =>
      let (sh, es) := sh.append a text
      some (sh, .idle, es)
    | .idle | .cutting _ | .locking _ _ => none

inductive Moves (a : FileAppender) (sh : Shared) :
    Frame → Act → Shared → Frame → List Event → Prop
  | write : Moves a sh .idle (.write text) sh
      (if a.isCut_ then .cutting text else .appending text) []
  | clock : Moves a sh (.cutting text) (.clock tvSec) sh (.comparing text (a.genHourSuffix tvSec)) []
  | later (h : nowHour > sh.lastHourSuffix_) :
      Moves a sh (.comparing text nowHour) .next sh (.locking text nowHour) []
  | same (h : ¬ nowHour > sh.lastHourSuffix_) :
      Moves a sh (.comparing text nowHour) .next sh (.appending text) []
  | cut : Moves a sh (.locking text nowHour) (.cut renamed opened)
      (sh.cut a nowHour renamed opened).1 (.appending text) (sh.cut a nowHour renamed opened).2
  | append : Moves a sh (.appending text) .next (sh.append a text).1 .idle (sh.append a text).2

theorem step_moves (h : step a sh fr act = some (sh', fr', es)) : Moves a sh fr act sh' fr' es := by
  cases act with
  | write text => cases fr <;> cases h; exact .write
  | clock tvSec => cases fr <;> cases h; exact .clock
  | cut renamed opened => cases fr <;> cases h; exact .cut
  | next =>
    cases fr with
    | comparing text nowHour =>
      by_cases hnow : nowHour > sh.lastHourSuffix_
      · rw [step, if_pos hnow] at h
        cases h
        exact .later hnow
      · rw [step, if_neg hnow] at h
        cases h
        exact .same hnow
    | appending text => cases h; exact .append
    | _ => cases h

variable {Tid : Type}

abbrev State (Tid : Type) := Config Tid Shared Frame

def machine (a : FileAppender) (Tid : Type) [DecidableEq Tid] :
    Machine (State Tid) (Tid × Act) (Tid × Event) :=
  .interleave fun _ sh fr => step a sh fr

def State.init (a : FileAppender) (files : FileSystem) (opened : Bool) (tvSec : Int) :
    State Tid where
  shared := Shared.openStream a opened
    { files, isOpen := false, lastHourSuffix_ := a.genHourSuffix tvSec, historyFiles_ := [] }
  threads _ := .idle

end CppUtil.Logger

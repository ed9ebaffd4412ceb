import CppUtil.Logger.Rotation
import CppUtil.Logger.Sinks

/-!
# `Log` from many threads

After an `Init` that succeeded, threads call `Log`, whose writes to the two
files are the steps of `FileAppender`. A FATAL log goes to both files; then
`receive_fatal_` is exchanged, and the thread that finds it unset dumps its call
stack, writes that to both files and ends the process. A thread that finds it
set returns from its FATAL log. Without `ndebug` every FATAL log dumps the stack
and returns.

A thread that no other one comes in between of does what `Log` does in the logger
of one thread (`does_log`).
-/

namespace CppUtil.Logger

open Lang Lib

inductive Sink
  | file
  | crash
  deriving DecidableEq

def Sink.output : Sink → Event → Output
  | .file => .file
  | .crash => .crashFile

structure LogShared where
  files : FileSystem
  appenders : Sink → Appender
  receiveFatal_ : Bool
  exited : Bool

/-- What is left of `Log` after a `Write`. -/
inductive Rest
  | done
  /-- The text of a FATAL log goes to the other file as well. -/
  | crash (text : Str)
  | fatal
  /-- And so does the call stack. -/
  | crashStack (text : Str)
  | exit

inductive LogFrame
  | idle
  | writing (sink : Sink) (fr : Frame) (rest : Rest)
  | exchanging
  | dumping
  | exiting

inductive LogAct
  | log (level : Level) (x : LogInput)
  | write (act : Act)
  | exchange
  | dump (x : LogInput)
  | exit

section

variable (ndebug : Bool) (priority_ : Level)

namespace LogShared

def call (sh : LogShared) (sink : Sink) (text : Str) (rest : Rest) : LogFrame :=
  .writing sink (if (sh.appenders sink).conf.isCut_ then .cutting text else .appending text) rest

def proceed (sh : LogShared) : Rest → LogFrame
  | .done => .idle
  | .crash text => sh.call .crash text .fatal
  | .fatal => if ndebug then .exchanging else .dumping
  | .crashStack text => sh.call .crash text .exit
  | .exit => if ndebug then .exiting else .idle

def resume (sh : LogShared) (sink : Sink) (rest : Rest) : Frame → LogFrame
  | .idle => sh.proceed ndebug rest
  | fr => .writing sink fr rest

def shared (sh : LogShared) (sink : Sink) : Shared := (sh.appenders sink).shared sh.files

def update (sh : LogShared) (sink : Sink) (s : Shared) : LogShared :=
  { sh with
    files := s.files
    appenders := Function.update sh.appenders sink ((sh.appenders sink).update s) }

end LogShared

def stackText (x : LogInput) (stackFrames : List Str) : Str :=
  formatNoArgs x.unpassed (cString (LoggerState.listing stackFrames))

/-- A step of a thread. Once the process has ended there are none. -/
def logStep (sh : LogShared) (fr : LogFrame) (act : LogAct) :
    Option (LogShared × LogFrame × List Output) :=
  if sh.exited then none
  else
    match act, fr with
    | .log level x, .idle =>
      let text := LoggerState.text level x
      if level < priority_ then some (sh, .idle, [])
      else some (sh, sh.call .file text (if level = .fatal then .crash text else .done),
        if level ≥ .error then [.console (text ++ "\n".toList)] else [])
    | .write act, .writing sink fr rest =>
      (step (sh.appenders sink).conf (sh.shared sink) fr act).map fun (s, fr, es) =>
        (sh.update sink s, sh.resume ndebug sink rest fr, es.map sink.output)
    | .exchange, .exchanging =>
      if sh.receiveFatal_ then some (sh, .idle, [])
      else some ({ sh with receiveFatal_ := true }, .dumping, [])
    | .dump x, .dumping =>
      match x.stackFrames with
      | none => some (sh, sh.proceed ndebug .exit, [.console "\t\tdump backtrace fail".toList])
      | some stackFrames =>
        let text := stackText x stackFrames
        some (sh, sh.call .file text (.crashStack text),
          [.console (cString (LoggerState.listing stackFrames))])
    | .exit, .exiting => some ({ sh with exited := true }, .idle, [])
    | _, _ => none

abbrev LogState (Tid : Type) := Config Tid LogShared LogFrame

def logMachine (Tid : Type) [DecidableEq Tid] :
    Machine (LogState Tid) (Tid × LogAct) (Tid × Output) :=
  .interleave fun _ sh fr => logStep ndebug priority_ sh fr

end

def sinkConf (dir fileName : Str) (retainHours : Int) (localtime : Int → Tm) : Sink → FileAppender
  | .file => .new dir fileName retainHours true localtime
  | .crash => .new dir (fileName ++ ".fatal".toList) 0 false localtime

def Appender.opened (conf : FileAppender) (tvSec : Int) : Appender where
  conf := conf
  isOpen := true
  lastHourSuffix_ := conf.genHourSuffix tvSec
  historyFiles_ := []

def LogState.init (conf : Sink → FileAppender) (files : FileSystem) (tvSec : Sink → Int) :
    LogState Tid where
  shared :=
    { files := (files.openAppend (conf .file).filePath_).openAppend (conf .crash).filePath_
      appenders := fun sink => .opened (conf sink) (tvSec sink)
      receiveFatal_ := false
      exited := false }
  threads _ := .idle

-- ---------------------------------------------------------------------------
-- What a step does
-- ---------------------------------------------------------------------------

inductive LogMoves (ndebug : Bool) (priority_ : Level) (sh : LogShared) :
    LogFrame → LogAct → LogShared → LogFrame → List Output → Prop
  | below (h : level < priority_) : LogMoves ndebug priority_ sh .idle (.log level x) sh .idle []
  | log (h : ¬ level < priority_) : LogMoves ndebug priority_ sh .idle (.log level x) sh
      (sh.call .file (LoggerState.text level x)
        (if level = .fatal then .crash (LoggerState.text level x) else .done))
      (if level ≥ .error then [.console (LoggerState.text level x ++ "\n".toList)] else [])
  | write (h : Moves (sh.appenders sink).conf (sh.shared sink) fr act s fr' es) :
      LogMoves ndebug priority_ sh (.writing sink fr rest) (.write act) (sh.update sink s)
        (sh.resume ndebug sink rest fr') (es.map sink.output)
  | later (h : sh.receiveFatal_ = true) :
      LogMoves ndebug priority_ sh .exchanging .exchange sh .idle []
  | first (h : sh.receiveFatal_ = false) :
      LogMoves ndebug priority_ sh .exchanging .exchange { sh with receiveFatal_ := true }
        .dumping []
  | undumped (h : x.stackFrames = none) : LogMoves ndebug priority_ sh .dumping (.dump x) sh
      (sh.proceed ndebug .exit) [.console "\t\tdump backtrace fail".toList]
  | dump (h : x.stackFrames = some stackFrames) :
      LogMoves ndebug priority_ sh .dumping (.dump x) sh
        (sh.call .file (stackText x stackFrames) (.crashStack (stackText x stackFrames)))
        [.console (cString (LoggerState.listing stackFrames))]
  | exit : LogMoves ndebug priority_ sh .exiting .exit { sh with exited := true } .idle []

theorem logStep_moves (h : logStep ndebug priority_ sh fr act = some (sh', fr', os)) :
    sh.exited = false ∧ LogMoves ndebug priority_ sh fr act sh' fr' os := by
  cases hexited : sh.exited with
  | true => simp [logStep, hexited] at h
  | false =>
    refine ⟨rfl, ?_⟩
    rw [logStep.eq_def, if_neg (by simp [hexited])] at h
    split at h
    · split at h
      · next hlevel =>
        cases h
        exact .below hlevel
      · next hlevel =>
        cases h
        exact .log hlevel
    · obtain ⟨⟨s, fr', es⟩, hstep, heq⟩ := Option.map_eq_some_iff.mp h
      cases heq
      exact .write (step_moves hstep)
    · split at h
      · next hset =>
        cases h
        exact .later hset
      · next hset =>
        cases h
        exact .first (Bool.not_eq_true _ ▸ hset)
    · split at h
      · next hnone =>
        cases h
        exact .undumped hnone
      · next hsome =>
        cases h
        exact .dump hsome
    · cases h
      exact .exit
    · cases h

-- ---------------------------------------------------------------------------
-- One thread
-- ---------------------------------------------------------------------------

def sinkActs (sh : LogShared) (sink : Sink) (x : CutInput) : List LogAct :=
  (if (sh.appenders sink).conf.isCut_ then
    [.write (.clock x.tvSec), .write .next] ++
      if (sh.appenders sink).conf.genHourSuffix x.tvSec > (sh.appenders sink).lastHourSuffix_ then
        [.write (.cut x.renamed x.opened)]
      else []
  else []) ++ [.write .next]

def logSolo (ndebug : Bool) (priority_ : Level) : Machine (LogShared × LogFrame) LogAct Output :=
  Machine.solo (fun (_ : Unit) sh fr => logStep ndebug priority_ sh fr) ()

section

variable {priority_ : Level} (sh : LogShared) (sink : Sink)

@[simp] theorem shared_update_self (s : Shared) : (sh.update sink s).shared sink = s := by
  simp [LogShared.shared, LogShared.update, Appender.update, Appender.shared]

@[simp] theorem conf_update (s : Shared) (sink' : Sink) :
    ((sh.update sink s).appenders sink').conf = (sh.appenders sink').conf := by
  by_cases h : sink' = sink
  · subst h
    simp [LogShared.update, Appender.update]
  · simp [LogShared.update, h]

@[simp] theorem update_update (s s' : Shared) :
    (sh.update sink s).update sink s' = sh.update sink s' := by
  simp [LogShared.update, Appender.update]

@[simp] theorem update_shared : sh.update sink (sh.shared sink) = sh := by
  simp [LogShared.update, LogShared.shared, Appender.update, Appender.shared]

@[simp] theorem exited_update (s : Shared) : (sh.update sink s).exited = sh.exited := rfl

@[simp] theorem proceed_update (s : Shared) (rest : Rest) :
    (sh.update sink s).proceed ndebug rest = sh.proceed ndebug rest := by
  cases rest <;> simp [LogShared.proceed, LogShared.call]

variable {sh sink}

theorem solo_cons (hlive : sh.exited = false)
    (hstep : step (sh.appenders sink).conf (sh.shared sink) fr act = some (s, fr', es'))
    (hrest : (logSolo ndebug priority_).run (sh.update sink s, sh.resume ndebug sink rest fr')
      acts = some (r, os)) :
    (logSolo ndebug priority_).run (sh, .writing sink fr rest) (.write act :: acts) =
      some (r, es'.map sink.output ++ os) := by
  refine Machine.run_cons_iff.mpr ⟨_, _, _, ?_, hrest, rfl⟩
  simp only [logSolo, Machine.solo, logStep, hlive, Bool.false_eq_true, if_false, hstep,
    Option.map_some]

theorem solo_silent (hlive : sh.exited = false)
    (hstep : step (sh.appenders sink).conf (sh.shared sink) fr act =
      some (sh.shared sink, fr', [])) (acts : List LogAct) :
    (logSolo ndebug priority_).run (sh, .writing sink fr rest) (.write act :: acts) =
      (logSolo ndebug priority_).run (sh, sh.resume ndebug sink rest fr') acts := by
  simp [Machine.run, logSolo, Machine.solo, logStep, hlive, hstep]

variable (sh sink)

theorem run_sinkActs (hlive : sh.exited = false) (x : CutInput) (text : Str) (rest : Rest) :
    (logSolo ndebug priority_).run (sh, sh.call sink text rest) (sinkActs sh sink x) =
      some ((sh.update sink ((sh.shared sink).write (sh.appenders sink).conf x text).1,
        sh.proceed ndebug rest),
          ((sh.shared sink).write (sh.appenders sink).conf x text).2.map sink.output) := by
  have happend (sh : LogShared) (hlive : sh.exited = false) :
      (logSolo ndebug priority_).run (sh, .writing sink (.appending text) rest) [.write .next] =
        some ((sh.update sink ((sh.shared sink).append (sh.appenders sink).conf text).1,
          sh.proceed ndebug rest),
            ((sh.shared sink).append (sh.appenders sink).conf text).2.map sink.output ++ []) :=
    solo_cons hlive rfl rfl
  simp only [List.append_nil] at happend
  simp only [sinkActs, LogShared.call, Shared.write, Shared.cutIfNeed]
  by_cases hcut : (sh.appenders sink).conf.isCut_ = true
  · simp only [if_pos hcut]
    generalize hnow : (sh.appenders sink).conf.genHourSuffix x.tvSec = nowHour
    have hclock : step (sh.appenders sink).conf (sh.shared sink) (.cutting text) (.clock x.tvSec) =
        some (sh.shared sink, .comparing text nowHour, []) := by rw [← hnow]; rfl
    by_cases hlate : nowHour > (sh.appenders sink).lastHourSuffix_
    · have hnext : step (sh.appenders sink).conf (sh.shared sink) (.comparing text nowHour) .next =
          some (sh.shared sink, .locking text nowHour, []) := if_pos hlate
      have hcutting : step (sh.appenders sink).conf (sh.shared sink) (.locking text nowHour)
          (.cut x.renamed x.opened) =
            some (((sh.shared sink).cut (sh.appenders sink).conf nowHour x.renamed x.opened).1,
              .appending text,
              ((sh.shared sink).cut (sh.appenders sink).conf nowHour x.renamed x.opened).2) := rfl
      have hmore : nowHour > (sh.shared sink).lastHourSuffix_ := hlate
      simp only [if_pos hlate, if_pos hmore, List.cons_append, List.nil_append, List.map_append]
      rw [solo_silent hlive hclock]
      dsimp only [LogShared.resume]
      rw [solo_silent hlive hnext]
      refine solo_cons hlive hcutting ?_
      have hlast := happend (sh.update sink ((sh.shared sink).cut (sh.appenders sink).conf nowHour
        x.renamed x.opened).1) hlive
      simp only [shared_update_self, conf_update, update_update, proceed_update] at hlast
      exact hlast
    · have hnext : step (sh.appenders sink).conf (sh.shared sink) (.comparing text nowHour) .next =
          some (sh.shared sink, .appending text, []) := if_neg hlate
      have hsame : ¬ nowHour > (sh.shared sink).lastHourSuffix_ := hlate
      simp only [if_neg hlate, if_neg hsame, List.append_nil, List.cons_append, List.nil_append]
      rw [solo_silent hlive hclock]
      dsimp only [LogShared.resume]
      rw [solo_silent hlive hnext]
      exact happend sh hlive
  · simp only [if_neg hcut, List.nil_append]
    exact happend sh hlive

variable (priority_) in
/-- The logger as `LoggerState` has it. -/
def LogShared.logger : LoggerState where
  files := sh.files
  isConsoleOutput_ := false
  fileAppender_ := some (sh.appenders .file)
  crashFileAppender_ := some (sh.appenders .crash)
  priority_ := priority_
  receiveFatal_ := sh.receiveFatal_

/-- The steps of a thread on its own from `fr` to `fr'` that lead to the logger
`l` with the outputs `os`. -/
def Does (ndebug : Bool) (priority_ : Level) (sh : LogShared) (fr fr' : LogFrame) (l : LoggerState)
    (os : List Output) : Prop :=
  ∃ acts sh', (logSolo ndebug priority_).run (sh, fr) acts = some ((sh', fr'), os) ∧
    sh'.logger priority_ = l ∧ sh'.exited = false ∧
      ∀ rest, sh'.proceed ndebug rest = sh.proceed ndebug rest

variable {sh}

theorem Does.cons (hstep : logStep ndebug priority_ sh fr act = some (sh₁, fr₁, os))
    (hproceed : ∀ rest, sh₁.proceed ndebug rest = sh.proceed ndebug rest)
    (h : Does ndebug priority_ sh₁ fr₁ fr' l os') :
    Does ndebug priority_ sh fr fr' l (os ++ os') := by
  obtain ⟨acts, sh', hrun, hlogger, hlive, hproceed'⟩ := h
  refine ⟨act :: acts, sh', Machine.run_cons_iff.mpr ⟨(sh₁, fr₁), os, os', ?_, hrun, rfl⟩, hlogger,
    hlive, fun rest => (hproceed' rest).trans (hproceed rest)⟩
  simp [logSolo, Machine.solo, hstep]

theorem Does.append (h : Does ndebug priority_ sh fr fr₁ l₁ os)
    (h' : ∀ sh₁, sh₁.logger priority_ = l₁ → sh₁.exited = false →
      (∀ rest, sh₁.proceed ndebug rest = sh.proceed ndebug rest) →
        Does ndebug priority_ sh₁ fr₁ fr' l os') :
    Does ndebug priority_ sh fr fr' l (os ++ os') := by
  obtain ⟨acts, sh₁, hrun, hlogger, hlive, hproceed⟩ := h
  obtain ⟨acts', sh', hrun', hlogger', hlive', hproceed'⟩ := h' sh₁ hlogger hlive hproceed
  exact ⟨acts ++ acts', sh', Machine.run_append_iff.mpr ⟨_, _, _, hrun, hrun', rfl⟩, hlogger',
    hlive', fun rest => (hproceed' rest).trans (hproceed rest)⟩

theorem Does.nil (hlive : sh.exited = false) :
    Does ndebug priority_ sh fr fr (sh.logger priority_) [] :=
  ⟨[], sh, rfl, rfl, hlive, fun _ => rfl⟩

theorem does_writeFile (hlive : sh.exited = false) (x : CutInput) (text : Str) (rest : Rest) :
    Does ndebug priority_ sh (sh.call .file text rest) (sh.proceed ndebug rest)
      ((sh.logger priority_).writeFile x text).1 ((sh.logger priority_).writeFile x text).2 :=
  ⟨_, _, run_sinkActs sh .file hlive x text rest, rfl, hlive, fun _ => proceed_update ..⟩

theorem does_writeCrashFile (hlive : sh.exited = false) (x : CutInput) (text : Str) (rest : Rest) :
    Does ndebug priority_ sh (sh.call .crash text rest) (sh.proceed ndebug rest)
      ((sh.logger priority_).writeCrashFile x text).1
      ((sh.logger priority_).writeCrashFile x text).2 :=
  ⟨_, _, run_sinkActs sh .crash hlive x text rest, rfl, hlive, fun _ => proceed_update ..⟩

theorem does_backtrace (hlive : sh.exited = false) (x : LogInput) :
    Does ndebug priority_ sh .dumping (sh.proceed ndebug .exit)
      ((sh.logger priority_).backtrace x).1 ((sh.logger priority_).backtrace x).2 := by
  cases hframes : x.stackFrames with
  | none =>
    have hstep : logStep ndebug priority_ sh .dumping (.dump x) =
        some (sh, sh.proceed ndebug .exit, [.console "\t\tdump backtrace fail".toList]) := by
      simp [logStep, hlive, hframes]
    rw [LoggerState.backtrace, hframes]
    exact .cons hstep (fun _ => rfl) (.nil hlive)
  | some stackFrames =>
    have hstep : logStep ndebug priority_ sh .dumping (.dump x) =
        some (sh, sh.call .file (stackText x stackFrames) (.crashStack (stackText x stackFrames)),
          [.console (cString (LoggerState.listing stackFrames))]) := by
      simp [logStep, hlive, hframes]
    rw [LoggerState.backtrace, hframes]
    dsimp only
    rw [List.cons_append, ← List.singleton_append]
    refine .cons hstep (fun _ => rfl) ((does_writeFile hlive x.backtraceCut _ _).append ?_)
    intro sh₁ hlogger hlive₁ hproceed
    rw [← hproceed, ← hproceed, ← stackText, ← hlogger]
    exact does_writeCrashFile hlive₁ ..

def lastFrame (ndebug : Bool) (l : LoggerState) : LogFrame :=
  if ndebug && !l.receiveFatal_ then .exiting else .idle

theorem lastFrame_or (ndebug : Bool) (l : LoggerState) :
    lastFrame ndebug l = .idle ∨ lastFrame ndebug l = .exiting := by
  rw [lastFrame]
  split
  · exact .inr rfl
  · exact .inl rfl

theorem does_exitOnFatal (hlive : sh.exited = false) (x : LogInput) :
    Does ndebug priority_ sh (sh.proceed ndebug .fatal) (lastFrame ndebug (sh.logger priority_))
      ((sh.logger priority_).exitOnFatal ndebug x).1
      ((sh.logger priority_).exitOnFatal ndebug x).2 := by
  cases ndebug with
  | false => exact does_backtrace hlive x
  | true =>
    cases hset : sh.receiveFatal_ with
    | true =>
      have hstep : logStep true priority_ sh .exchanging .exchange = some (sh, .idle, []) := by
        simp [logStep, hlive, hset]
      have heq : (sh.logger priority_).exitOnFatal true x = (sh.logger priority_, []) := by
        simp [LoggerState.exitOnFatal, LogShared.logger, hset]
      have hlast : lastFrame true (sh.logger priority_) = .idle := by
        simp [lastFrame, LogShared.logger, hset]
      rw [heq, hlast]
      exact .cons hstep (fun _ => rfl) (.nil hlive)
    | false =>
      have hstep : logStep true priority_ sh .exchanging .exchange =
          some ({ sh with receiveFatal_ := true }, .dumping, []) := by
        simp [logStep, hlive, hset]
      have heq : (sh.logger priority_).exitOnFatal true x =
          (LogShared.logger priority_ { sh with receiveFatal_ := true }).backtrace x := by
        simp [LoggerState.exitOnFatal, LogShared.logger, hset]
      have hlast : lastFrame true (sh.logger priority_) = .exiting := by
        simp [lastFrame, LogShared.logger, hset]
      have hlive' : { sh with receiveFatal_ := true }.exited = false := hlive
      rw [heq, hlast]
      exact .cons hstep (fun rest => by cases rest <;> rfl) (does_backtrace hlive' x)

theorem does_log (hlive : sh.exited = false) (level : Level) (x : LogInput) :
    ∃ fr, (fr = .idle ∨ fr = .exiting) ∧
      Does ndebug priority_ sh .idle fr ((sh.logger priority_).log ndebug level x).1
        ((sh.logger priority_).log ndebug level x).2 := by
  by_cases hlevel : level < priority_
  · have hstep : logStep ndebug priority_ sh .idle (.log level x) = some (sh, .idle, []) := by
      simp [logStep, hlive, hlevel]
    have heq : (sh.logger priority_).log ndebug level x = (sh.logger priority_, []) := if_pos hlevel
    rw [heq]
    exact ⟨.idle, .inl rfl, .cons hstep (fun _ => rfl) (.nil hlive)⟩
  · have hprinted : (if (sh.logger priority_).isConsoleOutput_ = true ∨ level ≥ .error then
        [Output.console (LoggerState.text level x ++ "\n".toList)] else []) =
          if level ≥ .error then [.console (LoggerState.text level x ++ "\n".toList)] else [] := by
      simp [LogShared.logger]
    have hpriority : ¬ level < (sh.logger priority_).priority_ := hlevel
    by_cases hfatal : level = .fatal
    · subst hfatal
      have hstep : logStep ndebug priority_ sh .idle (.log .fatal x) =
          some (sh, sh.call .file (LoggerState.text .fatal x) (.crash (LoggerState.text .fatal x)),
            if Level.fatal ≥ .error then
              [.console (LoggerState.text .fatal x ++ "\n".toList)] else []) := by
        simp [logStep, hlive, hlevel]
      have hself : Level.fatal ≥ .fatal := by decide
      rw [LoggerState.log, if_neg hpriority, hprinted]
      simp only [if_pos hself, if_true, List.append_assoc]
      generalize LoggerState.text .fatal x = text at hstep ⊢
      let l := (((sh.logger priority_).writeFile x.cut text).1.writeCrashFile x.cut text).1
      refine ⟨lastFrame ndebug l, lastFrame_or ndebug l,
        .cons hstep (fun _ => rfl) ((does_writeFile hlive ..).append ?_)⟩
      intro sh₁ hlogger₁ hlive₁ hproceed₁
      rw [← hproceed₁, ← hlogger₁]
      refine (does_writeCrashFile hlive₁ x.cut _ .fatal).append ?_
      intro sh₂ hlogger₂ hlive₂ hproceed₂
      have hl : l = sh₂.logger priority_ := by rw [hlogger₂, hlogger₁]
      rw [← hproceed₂, ← hlogger₂, hl]
      exact does_exitOnFatal hlive₂ x
    · have hstep : logStep ndebug priority_ sh .idle (.log level x) =
          some (sh, sh.call .file (LoggerState.text level x) .done,
            if level ≥ .error then
              [.console (LoggerState.text level x ++ "\n".toList)] else []) := by
        simp [logStep, hlive, hlevel, hfatal]
      have hbelow : ¬ level ≥ .fatal := by
        cases level with
        | fatal => exact absurd rfl hfatal
        | debug | info | warn | error => decide
      rw [LoggerState.log, if_neg hpriority, hprinted]
      simp only [if_neg hfatal, if_neg hbelow, List.append_nil]
      exact ⟨.idle, .inl rfl, .cons hstep (fun _ => rfl) (does_writeFile hlive ..)⟩

end

/-- The threads start with the logger that `Init` leaves. -/
theorem init_logger (hparse : x.parseFile = .ok g) (hlevel : g.getInt "Level".toList = .ok level)
    (hname : g.getString "FileName".toList = some fileName)
    (hretain : g.getInt "RetainHours".toList = .ok retainHours)
    (hfile : x.file = ⟨true, true, tvSec .file⟩)
    (hcrash : x.crashFile = ⟨true, true, tvSec .crash⟩) :
    ((LoggerState.new files).init ndebug localtime x).2.1 =
      (LogState.init (sinkConf ((g.getString "Directory".toList).getD "./log".toList) fileName
        (retainHours.getD 0) localtime) files tvSec : LogState Tid).shared.logger
          ((level.bind Level.ofInt?).getD .debug) := by
  simp only [LoggerState.init, hparse, hlevel, hname, hretain, hfile, hcrash]
  rfl

end CppUtil.Logger

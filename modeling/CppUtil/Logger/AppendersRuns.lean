import CppUtil.Logger.Appenders

/-!
# Calls of `Init` and `Log`

`defined_iff_usable`: calls of `Init` and `Log` are defined exactly as long as no
log goes to an appender whose directory could not be made, and no call stack with
a conversion to an open file. Then the outputs are those of `LoggerState.calls`,
and the memory has all appenders that were ever made, of which `Logger` has the
last one of each kind.
-/

namespace CppUtil.Logger

open Lang Lib

variable {m₀ : Memory AppenderObject} {h : LoggerHeap} {w : Watch}
  {leaked : List (Ptr × AppenderObject)} {alloc : Nat → Ptr}

-- ---------------------------------------------------------------------------
-- `Init`
-- ---------------------------------------------------------------------------

theorem Appender.init_fst : (Appender.init x app files).1 = x.mkdir := by
  rw [Appender.init]
  cases x.mkdir <;> rfl

namespace LoggerHeap

theorem gives_newAppender (hcells : Cells m₀ h.memory cells) :
    Gives (h.newAppender alloc conf) fun r => r.1 ≠ nullptr ∧
      Cells m₀ r.2.memory ((r.1, ⟨.new conf, false⟩) :: cells) ∧
        r.2 = { h with memory := r.2.memory, news := h.news + 1 } := by
  refine hcells.gives_new.bind ?_
  rintro m ⟨hset, hm⟩
  exact ⟨hset, hm, rfl⟩

theorem gives_initAppender (hcells : Cells m₀ h.memory ((p, ⟨app, false⟩) :: cells)) :
    Gives (h.initAppender p x) fun r => r.1 = x.mkdir ∧
      Cells m₀ r.2.memory ((p, ⟨(Appender.init x app h.files).2.1, x.mkdir⟩) :: cells) ∧
        r.2 = { h with memory := r.2.memory, files := (Appender.init x app h.files).2.2 } := by
  refine (Gives.load (hcells.holds _ List.mem_cons_self)).bind ?_
  rintro _ rfl
  simp only [Bool.false_or, Appender.init_fst]
  refine (Cells.gives_store (a := []) hcells).bind ?_
  rintro m hm
  exact ⟨rfl, hm, rfl⟩

end LoggerHeap

theorem length_appenderCells (happ : p = nullptr ↔ app = none) (ready : Bool) :
    (appenderCells p ready app).length = if p = nullptr then 0 else 1 := by
  cases app with
  | none => simp [appenderCells, happ]
  | some app => simp [appenderCells, happ]

def Watch.madeFile (w : Watch) (conf : FileAppender) (x : Appender.Input) : Watch where
  logger := { w.logger with
    fileAppender_ := some (Appender.init x (.new conf) w.logger.files).2.1
    files := (Appender.init x (.new conf) w.logger.files).2.2 }
  fileReady := x.mkdir
  crashReady := w.crashReady
  made := w.made + 1

def Watch.madeCrashFile (w : Watch) (conf : FileAppender) (x : Appender.Input) : Watch where
  logger := { w.logger with
    crashFileAppender_ := some (Appender.init x (.new conf) w.logger.files).2.1
    files := (Appender.init x (.new conf) w.logger.files).2.2 }
  fileReady := w.fileReady
  crashReady := x.mkdir
  made := w.made + 1

def Watch.madeFiles (w : Watch) (localtime : Int → Tm) (dir fileName : Str) (retainHours : Int)
    (x : InitInput) : Option Bool × Watch :=
  let w := w.madeFile (.new dir fileName retainHours true localtime) x.file
  if x.file.mkdir then
    let w := w.madeCrashFile (.new dir (fileName ++ ".fatal".toList) 0 false localtime) x.crashFile
    if x.crashFile.mkdir then
      (some true, { w with logger := { w.logger with isConsoleOutput_ := false } })
    else (some false, w)
  else (some false, w)

theorem Watch.madeFiles_eq (ndebug : Bool) (localtime : Int → Tm) (w : Watch)
    (hparse : x.parseFile = .ok g) (hlevel : g.getInt "Level".toList = .ok level)
    (hname : g.getString "FileName".toList = some fileName)
    (hretain : g.getInt "RetainHours".toList = .ok retainHours) :
    let made := madeFiles { w with logger := { w.logger with
        priority_ := (level.bind Level.ofInt?).getD w.logger.priority_ } }
      localtime ((g.getString "Directory".toList).getD "./log".toList) fileName
      (retainHours.getD 0) x
    w.logger.init ndebug localtime x = (made.1, made.2.logger, []) ∧
      w.after made.2.logger (.init x) = made.2 := by
  have hmakes : makes x = true := by simp only [makes, hparse, hlevel, hname, hretain]
  simp only [LoggerState.init, hparse, hlevel, hname, hretain, Appender.init_fst, madeFiles, after,
    hmakes]
  split
  · split <;> simp_all [madeFile, madeCrashFile]
  · simp_all [madeFile]

namespace Shows

theorem gives_makeFile (hs : Shows m₀ h w leaked) :
    Gives (h.makeFile alloc conf x) fun r => r.1 = x.mkdir ∧
      ∃ leaked', Shows m₀ r.2 (w.madeFile conf x) leaked' := by
  refine (LoggerHeap.gives_newAppender hs.cells).bind ?_
  rintro ⟨p, h₁⟩ ⟨hset, hcells, hh₁⟩
  dsimp only at hcells hh₁
  rw [hh₁] at hcells ⊢
  have hcells' : Cells m₀ ({ h with memory := h₁.memory, news := h.news + 1, fileAppender_ := p }
    : LoggerHeap).memory _ := hcells
  refine (LoggerHeap.gives_initAppender hcells').mono ?_
  rintro ⟨ok, h₂⟩ ⟨hok, hcells₂, hh₂⟩
  dsimp only at hcells₂ hh₂
  rw [hs.files] at hcells₂ hh₂
  rw [hh₂] at hcells₂ ⊢
  refine ⟨hok, appenderCells h.fileAppender_ w.fileReady w.logger.fileAppender_ ++ leaked, rfl,
    hs.console, hs.priority, hs.fatal, ?_, hs.crash, by simp [Watch.madeFile], hs.crashSet, ?_, ?_⟩
  · simp [Watch.madeFile, hset]
  · refine hcells₂.perm (.cons _ ?_)
    exact List.perm_append_comm_assoc ..
  · simp [Watch.madeFile, hs.made, pointers, hset, length_appenderCells hs.file]
    omega

theorem gives_makeCrashFile (hs : Shows m₀ h w leaked) :
    Gives (h.makeCrashFile alloc conf x) fun r => r.1 = x.mkdir ∧
      ∃ leaked', Shows m₀ r.2 (w.madeCrashFile conf x) leaked' := by
  refine (LoggerHeap.gives_newAppender hs.cells).bind ?_
  rintro ⟨p, h₁⟩ ⟨hset, hcells, hh₁⟩
  dsimp only at hcells hh₁
  rw [hh₁] at hcells ⊢
  have hcells' : Cells m₀ ({ h with memory := h₁.memory, news := h.news + 1, crashFileAppender_ := p }
    : LoggerHeap).memory _ := hcells
  refine (LoggerHeap.gives_initAppender hcells').mono ?_
  rintro ⟨ok, h₂⟩ ⟨hok, hcells₂, hh₂⟩
  dsimp only at hcells₂ hh₂
  rw [hs.files] at hcells₂ hh₂
  rw [hh₂] at hcells₂ ⊢
  refine ⟨hok, appenderCells h.crashFileAppender_ w.crashReady w.logger.crashFileAppender_ ++ leaked,
    rfl, hs.console, hs.priority, hs.fatal, hs.file, ?_, hs.fileSet, by simp [Watch.madeCrashFile], ?_, ?_⟩
  · simp [Watch.madeCrashFile, hset]
  · exact hcells₂.perm List.perm_middle.symm
  · simp [Watch.madeCrashFile, hs.made, pointers, hset, length_appenderCells hs.crash]
    omega

theorem gives_makeFiles (hs : Shows m₀ h w leaked) :
    Gives (h.makeFiles alloc localtime dir fileName retainHours x) fun r =>
      r.1 = (w.madeFiles localtime dir fileName retainHours x).1 ∧ r.2.2 = [] ∧
        ∃ leaked', Shows m₀ r.2.1 (w.madeFiles localtime dir fileName retainHours x).2 leaked' := by
  rw [Watch.madeFiles]
  refine hs.gives_makeFile.bind ?_
  rintro ⟨ok, h₁⟩ ⟨rfl, leaked₁, hs₁⟩
  dsimp only
  split
  · refine hs₁.gives_makeCrashFile.bind ?_
    rintro ⟨ok, h₂⟩ ⟨rfl, leaked₂, hs₂⟩
    dsimp only
    split
    · exact ⟨rfl, rfl, leaked₂, hs₂.files, rfl, hs₂.priority, hs₂.fatal, hs₂.file, hs₂.crash,
        hs₂.fileSet, hs₂.crashSet, hs₂.cells, hs₂.made⟩
    · exact ⟨rfl, rfl, leaked₂, hs₂⟩
  · exact ⟨rfl, rfl, leaked₁, hs₁⟩

theorem withPriority (hs : Shows m₀ h w leaked) (level : Option Int) :
    Shows m₀ { h with priority_ := (level.bind Level.ofInt?).getD h.priority_ }
      { w with logger := { w.logger with
          priority_ := (level.bind Level.ofInt?).getD w.logger.priority_ } } leaked :=
  ⟨hs.files, hs.console, by rw [hs.priority], hs.fatal, hs.file, hs.crash, hs.fileSet, hs.crashSet,
    hs.cells, hs.made⟩

theorem gives_init (hs : Shows m₀ h w leaked) (husable : w.Usable (.init x)) :
    Gives (h.init alloc ndebug localtime x) fun r =>
      r.1 = (w.logger.init ndebug localtime x).1 ∧ r.2.2 = (w.logger.init ndebug localtime x).2.2 ∧
        ∃ leaked', Shows m₀ r.2.1
          (w.after (w.logger.init ndebug localtime x).2.1 (.init x)) leaked' := by
  cases hparse : x.parseFile with
  | error what =>
    simp only [LoggerHeap.init, LoggerState.init, Watch.after, Watch.makes, Watch.Usable,
      hparse] at husable ⊢
    refine (hs.gives_log ((Watch.canLog_congr (by simp)).mp husable)).bind ?_
    rintro ⟨h₁, os⟩ ⟨rfl, hs₁⟩
    exact ⟨rfl, rfl, leaked, hs₁⟩
  | ok g =>
    cases hlevel : g.getInt "Level".toList with
    | error e =>
      simp only [LoggerHeap.init, LoggerState.init, Watch.after, Watch.makes, hparse, hlevel]
      exact ⟨rfl, rfl, leaked, hs⟩
    | ok level =>
      have hs' := hs.withPriority level
      cases hname : g.getString "FileName".toList with
      | none =>
        simp only [LoggerHeap.init, LoggerState.init, Watch.after, Watch.makes, Watch.Usable, hparse,
          hlevel, hname] at husable ⊢
        refine (hs'.gives_log ((Watch.canLog_congr (by simp)).mp husable)).bind ?_
        rintro ⟨h₁, os⟩ ⟨rfl, hs₁⟩
        exact ⟨rfl, rfl, leaked, hs₁⟩
      | some fileName =>
        cases hretain : g.getInt "RetainHours".toList with
        | error e =>
          simp only [LoggerHeap.init, LoggerState.init, Watch.after, Watch.makes, hparse, hlevel,
            hname, hretain]
          exact ⟨rfl, rfl, leaked, hs'⟩
        | ok retainHours =>
          obtain ⟨hinit, hafter⟩ :=
            Watch.madeFiles_eq ndebug localtime w hparse hlevel hname hretain
          simp only [LoggerHeap.init, hparse, hlevel, hname, hretain]
          refine hs'.gives_makeFiles.mono ?_
          rintro ⟨ok, h₁, os⟩ ⟨rfl, rfl, leaked₁, hs₁⟩
          exact ⟨by rw [hinit], by rw [hinit], leaked₁, by rw [hinit, hafter]; exact hs₁⟩

theorem init_usable (hs : Shows m₀ h w leaked)
    (hrunning : (ndebug && w.logger.receiveFatal_) = false)
    (hok : h.init alloc ndebug localtime x = .ok r) : w.Usable (.init x) := by
  cases hparse : x.parseFile with
  | error what =>
    simp only [LoggerHeap.init, Watch.Usable, hparse] at hok ⊢
    obtain ⟨r', hr', -⟩ := Gives.bind_eq_ok hok
    exact (Watch.canLog_congr (by simp)).mp (hs.canLog hrunning hr')
  | ok g =>
    cases hlevel : g.getInt "Level".toList with
    | error e => simp only [Watch.Usable, hparse, hlevel]
    | ok level =>
      cases hname : g.getString "FileName".toList with
      | some fileName => simp only [Watch.Usable, hparse, hlevel, hname]
      | none =>
        simp only [LoggerHeap.init, Watch.Usable, hparse, hlevel, hname] at hok ⊢
        obtain ⟨r', hr', -⟩ := Gives.bind_eq_ok hok
        exact (Watch.canLog_congr (by simp)).mp ((hs.withPriority level).canLog hrunning hr')

-- ---------------------------------------------------------------------------
-- Calls
-- ---------------------------------------------------------------------------

theorem gives_call (hs : Shows m₀ h w leaked) (husable : w.Usable c) :
    Gives (h.call alloc ndebug localtime c) fun r => ∃ w' leaked',
      (Watch.calls ndebug localtime).step w c = some (w', r.2) ∧ Shows m₀ r.1 w' leaked' := by
  cases hended : (ndebug && w.logger.receiveFatal_) with
  | true =>
    rw [LoggerHeap.call.eq_def, hs.fatal, hended]
    exact Gives.refused
  | false =>
    rw [LoggerHeap.call.eq_def, hs.fatal, hended]
    cases c with
    | init x =>
      refine (hs.gives_init husable).bind ?_
      rintro ⟨ok, h₁, os⟩ ⟨rfl, rfl, leaked₁, hs₁⟩
      exact ⟨_, leaked₁, by simp only [Watch.calls, LoggerState.calls, hended]; rfl, hs₁⟩
    | log level x =>
      refine (hs.gives_log husable).mono ?_
      rintro ⟨h₁, os⟩ ⟨rfl, hs₁⟩
      exact ⟨_, leaked, by simp only [Watch.calls, LoggerState.calls, hended]; rfl, hs₁⟩

theorem call_usable (hs : Shows m₀ h w leaked) (hok : h.call alloc ndebug localtime c = .ok r) :
    w.Usable c := by
  rw [LoggerHeap.call.eq_def, hs.fatal] at hok
  split at hok
  · cases hok
  · next hended =>
    have hrunning : (ndebug && w.logger.receiveFatal_) = false := Bool.eq_false_iff.mpr hended
    cases c with
    | init x =>
      obtain ⟨r', hr', -⟩ := Gives.bind_eq_ok hok
      exact hs.init_usable hrunning hr'
    | log level x => exact hs.canLog hrunning hok

theorem gives_callAll (hs : Shows m₀ h w leaked)
    (hmeets : (Watch.calls ndebug localtime).Meets Watch.Usable w cs) :
    Gives (h.callAll alloc ndebug localtime cs) fun r => ∃ w' leaked',
      (Watch.calls ndebug localtime).run w cs = some (w', r.2) ∧ Shows m₀ r.1 w' leaked' := by
  induction cs generalizing h w leaked with
  | nil => exact ⟨w, leaked, rfl, hs⟩
  | cons c cs ih =>
    refine (hs.gives_call hmeets.1).bind ?_
    rintro ⟨h₁, os⟩ ⟨w₁, leaked₁, hstep, hs₁⟩
    refine (ih hs₁ (hmeets.2 w₁ os hstep)).bind ?_
    rintro ⟨h₂, os'⟩ ⟨w₂, leaked₂, hrun, hs₂⟩
    exact ⟨w₂, leaked₂, Machine.run_cons_iff.mpr ⟨w₁, os, os', hstep, hrun, rfl⟩, hs₂⟩

theorem callAll_usable (hs : Shows m₀ h w leaked)
    (hok : h.callAll alloc ndebug localtime cs = .ok r) :
    (Watch.calls ndebug localtime).Meets Watch.Usable w cs := by
  induction cs generalizing h w leaked r with
  | nil => trivial
  | cons c cs ih =>
    obtain ⟨⟨h₁, os⟩, hcall, hok⟩ := Gives.bind_eq_ok hok
    obtain ⟨r', hrest, -⟩ := Gives.bind_eq_ok hok
    have husable := hs.call_usable hcall
    obtain ⟨w₁, leaked₁, hstep, hs₁⟩ := (hs.gives_call husable).of_eq_ok hcall
    refine ⟨husable, fun w₂ os₂ hstep₂ => ?_⟩
    rw [hstep] at hstep₂
    cases hstep₂
    exact ih hs₁ hrest

theorem new (m : Memory AppenderObject) (files : FileSystem) :
    Shows m (LoggerHeap.new m files) (Watch.new files) [] where
  files := rfl
  console := rfl
  priority := rfl
  fatal := rfl
  file := by simp [LoggerHeap.new, Watch.new, LoggerState.new]
  crash := by simp [LoggerHeap.new, Watch.new, LoggerState.new]
  fileSet := by simp [Watch.new]
  crashSet := by simp [Watch.new]
  cells := .nil m
  made := by simp [Watch.new, LoggerHeap.new, pointers]

end Shows

theorem defined_iff_usable (alloc : Nat → Ptr) (ndebug : Bool) (localtime : Int → Tm)
    (m : Memory AppenderObject) (files : FileSystem) (cs : List LoggerState.Call) :
    ((Watch.calls ndebug localtime).Meets Watch.Usable (.new files) cs →
      (LoggerHeap.new m files).callAll alloc ndebug localtime cs ≠ .error .undefined) ∧
    ∀ h os, (LoggerHeap.new m files).callAll alloc ndebug localtime cs = .ok (h, os) →
      (Watch.calls ndebug localtime).Meets Watch.Usable (.new files) cs ∧
        ∃ w leaked, (Watch.calls ndebug localtime).run (.new files) cs = some (w, os) ∧
          Shows m h w leaked := by
  refine ⟨fun hmeets => ((Shows.new m files).gives_callAll hmeets).not_undefined, ?_⟩
  intro h os hok
  have hmeets := (Shows.new m files).callAll_usable hok
  exact ⟨hmeets, ((Shows.new m files).gives_callAll hmeets).of_eq_ok hok⟩

def noDirectory : InitInput :=
  { LoggerState.plainInit (some "a".toList) true with file := ⟨false, false, 0⟩ }

/-- The second `Init` makes up for the first one, whose appender stays in
memory. -/
def initTwice : List LoggerState.Call :=
  [.init noDirectory, .init (LoggerState.plainInit (some "a".toList) true),
    .log .info LoggerState.plainLog]

theorem defined_iff_usable_initTwice :
    ∃ h os w leaked, (LoggerHeap.new (fun _ => none) fun _ => none).callAll
        (fun n => BitVec.ofNat 64 (n + 1)) true (fun _ => ⟨0, 1, 0, 70⟩) initTwice = .ok (h, os) ∧
      os = [.inited (some false), .inited (some true), .file (.wrote "[INFO]m".toList)] ∧
      (Watch.calls true fun _ => ⟨0, 1, 0, 70⟩).run (.new fun _ => none) initTwice = some (w, os) ∧
      w.made = 3 ∧ Shows (fun _ => none) h w leaked := by
  have hos : ((LoggerHeap.new (fun _ => none) fun _ => none).callAll
      (fun n => BitVec.ofNat 64 (n + 1)) true (fun _ => ⟨0, 1, 0, 70⟩) initTwice).map Prod.snd =
      .ok [.inited (some false), .inited (some true), .file (.wrote "[INFO]m".toList)] := by
    decide +kernel
  have hmade : ((Watch.calls true fun _ => ⟨0, 1, 0, 70⟩).run (.new fun _ => none) initTwice).map
      (fun r => r.1.made) = some 3 := by decide +kernel
  cases hcalls : (LoggerHeap.new (fun _ => none) fun _ => none).callAll
      (fun n => BitVec.ofNat 64 (n + 1)) true (fun _ => ⟨0, 1, 0, 70⟩) initTwice with
  | error e =>
    rw [hcalls] at hos
    cases hos
  | ok r =>
    rw [hcalls] at hos
    obtain ⟨-, w, leaked, hrun, hs⟩ := (defined_iff_usable _ true _ _ _ initTwice).2 _ _ hcalls
    rw [hrun] at hmade
    exact ⟨r.1, r.2, w, leaked, rfl, Except.ok.inj hos, hrun, Option.some.inj hmade, hs⟩

-- without the second `Init` the log is undefined
example : ((LoggerHeap.new (fun _ => none) fun _ => none).callAll (fun n => BitVec.ofNat 64 (n + 1))
    true (fun _ => ⟨0, 1, 0, 70⟩) [.init noDirectory, .log .info LoggerState.plainLog]).map Prod.snd =
      .error .undefined := by
  decide +kernel

end CppUtil.Logger

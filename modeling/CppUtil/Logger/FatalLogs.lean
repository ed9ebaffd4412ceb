import CppUtil.Logger.Threads

/-!
# The logs of a process that ends

The appenders take turns in no particular way, as each has a mutex of its own,
and one file system has the files of both. `fatal_logs_kept`: nothing that was
logged is lost, in either file, and the process does not end before the stack of
the one thread that ends it is in both.
-/

namespace CppUtil.Logger

open Lang Lib

-- ---------------------------------------------------------------------------
-- The files of one appender, while the other one writes
-- ---------------------------------------------------------------------------

def FileAppender.Uses (a : FileAppender) (path : Str) : Prop :=
  path = a.filePath_ ∨ ∃ hour, path = a.rotatedPath hour

theorem found_congr (hfiles : ∀ path, a.Uses path → files' path = files path) :
    found a hours files' = found a hours files := by
  simp only [found]
  rw [hfiles _ (.inl rfl)]
  congr 1
  exact List.flatMap_congr fun hour _ => by rw [hfiles _ (.inr ⟨hour, rfl⟩)]

theorem Kept.congr {sh sh' : Shared} (h : Kept a old es sh) (hopen : sh'.isOpen = sh.isOpen)
    (hlast : sh'.lastHourSuffix_ = sh.lastHourSuffix_)
    (hfiles : ∀ path, a.Uses path → sh'.files path = sh.files path) : Kept a old es sh' where
  isOpen := hopen.trans h.isOpen
  current := by
    rw [hfiles _ (.inl rfl)]
    exact h.current
  rising := by
    rw [hlast]
    exact h.rising
  unused hour hhour := (hfiles _ (.inr ⟨hour, rfl⟩)).trans (h.unused hour hhour)
  intact := h.intact
  found := (found_congr hfiles).trans h.found

theorem cut_elsewhere (ha : a.retainHours_ = 0) (hpath : ¬ a.Uses path) :
    (Shared.cut a nowHour renamed opened sh).1.files path = sh.files path := by
  simp only [FileAppender.Uses, not_or, not_exists] at hpath
  have hopen (sh : Shared) : (sh.openStream a opened).files path = sh.files path := by
    rw [Shared.openStream]
    split
    · exact FileSystem.openAppend_of_ne hpath.1
    · rfl
  simp only [Shared.cut, ha, gt_iff_lt, lt_irrefl, if_false]
  split
  · rw [hopen]
    dsimp only
    split
    · cases hold : sh.files a.filePath_ with
      | none =>
        rw [FileSystem.rename, hold]
        rfl
      | some lines =>
        obtain ⟨fs', hrename, -, -, hother⟩ :=
          FileSystem.rename_spec hold (FileAppender.rotatedPath_ne (i := sh.lastHourSuffix_))
        rw [hrename]
        exact hother path (hpath.2 _) hpath.1
    · rfl
  · rfl

theorem Moves.elsewhere (hm : Moves a sh fr act sh' fr' es) (ha : a.retainHours_ = 0)
    (hpath : ¬ a.Uses path) : sh'.files path = sh.files path := by
  cases hm with
  | cut => exact cut_elsewhere ha hpath
  | append =>
    rw [Shared.append]
    split
    · exact FileSystem.append_of_ne fun hp => hpath (.inl hp)
    · rfl
  | write | clock | later | same => rfl

-- ---------------------------------------------------------------------------
-- What was logged
-- ---------------------------------------------------------------------------

/-- The line that a step asks for in a file. -/
def LogAct.lines (priority_ : Level) (sink : Sink) : LogAct → List Str
  | .log level x =>
    if level < priority_ then []
    else
      match sink with
      | .file => [line (LoggerState.text level x)]
      | .crash => if level = .fatal then [line (LoggerState.text level x)] else []
  | .dump x =>
    match x.stackFrames with
    | none => []
    | some stackFrames => [line (stackText x stackFrames)]
  | .write _ | .exchange | .exit => []

def Rest.pending (sink : Sink) : Rest → List Str
  | .crash text | .crashStack text => if sink = .crash then [line text] else []
  | .done | .fatal | .exit => []

def LogFrame.pending (sink : Sink) : LogFrame → List Str
  | .writing sink' fr rest => (if sink' = sink then fr.pending else []) ++ rest.pending sink
  | .idle | .exchanging | .dumping | .exiting => []

def Output.eventOf (sink : Sink) : Output → Option Event
  | .file e => if sink = .file then some e else none
  | .crashFile e => if sink = .crash then some e else none
  | .console _ | .inited _ => none

def sinkEvents (sink : Sink) (os : List Output) : List Event := os.filterMap (Output.eventOf sink)

def LogAct.Succeeds : LogAct → Prop
  | .write act => act.Succeeds
  | _ => True

instance : (act : LogAct) → Decidable act.Succeeds
  | .write act => inferInstanceAs (Decidable act.Succeeds)
  | .log _ _ | .exchange | .dump _ | .exit => isTrue trivial

theorem eventOf_output (e : Event) :
    (Sink.output sink' e).eventOf sink = if sink' = sink then some e else none := by
  cases sink <;> cases sink' <;> rfl

theorem sinkEvents_output (sink sink' : Sink) (es : List Event) :
    sinkEvents sink (es.map sink'.output) = if sink' = sink then es else [] := by
  by_cases hsink : sink' = sink
  · simp [sinkEvents, List.filterMap_map, eventOf_output, hsink]
  · simp [sinkEvents, List.filterMap_map, eventOf_output, hsink]

theorem sinkEvents_console (sink : Sink) {c : Prop} [Decidable c] :
    sinkEvents sink (if c then [.console text] else []) = [] := by
  split <;> rfl

theorem pending_call (sh : LogShared) :
    (sh.call sink' text rest).pending sink =
      (if sink' = sink then [line text] else []) ++ rest.pending sink := by
  cases hcut : (sh.appenders sink').conf.isCut_ <;>
    simp [LogShared.call, LogFrame.pending, hcut, Frame.pending]

theorem pending_proceed (sh : LogShared) (rest : Rest) :
    (sh.proceed ndebug rest).pending sink = rest.pending sink := by
  cases rest with
  | crash | crashStack =>
    simp [LogShared.proceed, pending_call, Rest.pending, eq_comm]
  | fatal | exit => cases ndebug <;> rfl
  | done => rfl

theorem pending_resume (sh : LogShared) (fr : Frame) :
    (sh.resume ndebug sink' rest fr).pending sink =
      (if sink' = sink then fr.pending else []) ++ rest.pending sink := by
  cases fr with
  | idle => simp [LogShared.resume, pending_proceed, Frame.pending]
  | cutting | comparing | locking | appending => rfl

def LogFrame.Busy : LogFrame → Prop
  | .writing _ fr _ => fr ≠ .idle
  | _ => True

theorem busy_call (sh : LogShared) : (sh.call sink text rest).Busy := by
  cases hcut : (sh.appenders sink).conf.isCut_ <;> simp [LogShared.call, LogFrame.Busy, hcut]

theorem busy_proceed (sh : LogShared) (rest : Rest) : (sh.proceed ndebug rest).Busy := by
  cases rest with
  | crash | crashStack => exact busy_call sh
  | fatal | exit => cases ndebug <;> trivial
  | done => trivial

theorem LogMoves.busy (hm : LogMoves ndebug priority_ sh fr act sh' fr' os) : fr'.Busy := by
  cases hm with
  | log | dump => exact busy_call sh
  | undumped => exact busy_proceed sh _
  | @write sink fr act s fr' es rest h =>
    cases fr' with
    | idle => exact busy_proceed sh rest
    | cutting | comparing | locking | appending => simp [LogShared.resume, LogFrame.Busy]
  | below | later | first | exit => trivial

theorem Moves.lines_eq_nil (hm : Moves a sh fr act sh' fr' es) (hbusy : fr ≠ .idle) :
    act.lines = [] := by
  cases hm with
  | write => exact absurd rfl hbusy
  | clock | later | same | cut | append => rfl

variable {conf : Sink → FileAppender} {old : Sink → List Str} {es : Sink → List Event}
  {priority_ : Level}

theorem LogMoves.lines (hm : LogMoves ndebug priority_ sh fr act sh' fr' os) (hbusy : fr.Busy)
    (hretain : ∀ sink, (sh.appenders sink).conf.retainHours_ = 0)
    (hkept : ∀ sink, Kept (sh.appenders sink).conf (old sink) (es sink) (sh.shared sink))
    (sink : Sink) :
    fr.pending sink ++ act.lines priority_ sink =
      (sinkEvents sink os).flatMap Event.lines ++ fr'.pending sink := by
  cases hm with
  | below h => simp [LogFrame.pending, LogAct.lines, h, sinkEvents]
  | @log level x h =>
    rw [sinkEvents_console, pending_call]
    cases sink with
    | file =>
      have hrest : Rest.pending .file
          (if level = .fatal then .crash (LoggerState.text level x) else .done) = [] := by
        split <;> rfl
      simp [LogFrame.pending, LogAct.lines, h, hrest]
    | crash =>
      simp only [LogFrame.pending, LogAct.lines, if_neg h, List.nil_append]
      split <;> rfl
  | @write sink' fr act s fr' es' rest h =>
    have hlines := h.lines (hretain sink') (hkept sink')
    rw [h.lines_eq_nil hbusy, List.append_nil] at hlines
    rw [sinkEvents_output, pending_resume]
    by_cases hsink : sink' = sink
    · simp [LogFrame.pending, LogAct.lines, hsink, hlines]
    · simp [LogFrame.pending, LogAct.lines, hsink]
  | undumped h =>
    rw [pending_proceed]
    simp [LogFrame.pending, LogAct.lines, h, Rest.pending, sinkEvents, Output.eventOf]
  | dump h =>
    rw [pending_call]
    cases sink <;>
      simp [LogFrame.pending, LogAct.lines, h, Rest.pending, sinkEvents, Output.eventOf]
  | later | first | exit => rfl

def Apart (conf : Sink → FileAppender) : Prop :=
  ∀ sink sink', sink ≠ sink' → ∀ path, (conf sink).Uses path → ¬ (conf sink').Uses path

theorem LogMoves.conf_eq (hm : LogMoves ndebug priority_ sh fr act sh' fr' os) (sink : Sink) :
    (sh'.appenders sink).conf = (sh.appenders sink).conf := by
  cases hm with
  | @write sink' fr act s fr' es rest h =>
    by_cases hsink : sink = sink'
    · simp [LogShared.update, hsink, Appender.update]
    · simp [LogShared.update, hsink]
  | below | log | later | first | undumped | dump | exit => rfl

theorem LogMoves.kept (hm : LogMoves ndebug priority_ sh fr act sh' fr' os)
    (hok : act.Succeeds) (hconf : ∀ sink, (sh.appenders sink).conf = conf sink)
    (hretain : ∀ sink, (conf sink).retainHours_ = 0) (hapart : Apart conf)
    (hkept : ∀ sink, Kept (conf sink) (old sink) (es sink) (sh.shared sink)) (sink : Sink) :
    Kept (conf sink) (old sink) (es sink ++ sinkEvents sink os) (sh'.shared sink) := by
  cases hm with
  | @write sink' fr act s fr' es' rest h =>
    rw [hconf sink'] at h
    rw [sinkEvents_output]
    by_cases hsink : sink' = sink
    · subst hsink
      have hshared : (sh.update sink' s).shared sink' = s := by
        simp [LogShared.shared, LogShared.update, Appender.update, Appender.shared]
      rw [if_pos rfl, hshared]
      exact h.kept (hretain sink') hok (hkept sink')
    · rw [if_neg hsink, List.append_nil]
      have hsame : (sh.update sink' s).appenders sink = sh.appenders sink :=
        Function.update_of_ne (Ne.symm hsink) ..
      refine (hkept sink).congr ?_ ?_ ?_
      · simp [LogShared.shared, hsame, Appender.shared]
      · simp [LogShared.shared, hsame, Appender.shared]
      · intro path hpath
        exact h.elsewhere (hretain sink') (hapart sink sink' (Ne.symm hsink) path hpath)
  | log h =>
    rw [sinkEvents_console, List.append_nil]
    exact hkept sink
  | below | later | first | undumped | dump | exit =>
    show Kept (conf sink) (old sink) (es sink ++ []) (sh.shared sink)
    rw [List.append_nil]
    exact hkept sink

-- ---------------------------------------------------------------------------
-- The thread that ends the process
-- ---------------------------------------------------------------------------

inductive Phase
  | away
  | dumping
  | dumped

def LogFrame.phase : LogFrame → Phase
  | .dumping => .dumping
  | .writing _ _ (.crashStack _) | .writing _ _ .exit | .exiting => .dumped
  | .idle | .exchanging => .away
  | .writing _ _ .done | .writing _ _ (.crash _) | .writing _ _ .fatal => .away

def LogAct.isDump : LogAct → Bool
  | .dump _ => true
  | _ => false

/-- The threads that have dumped their call stacks. -/
def dumpers (as : List (Tid × LogAct)) : List Tid := (as.filter fun x => x.2.isDump).map Prod.fst

theorem dumpers_concat (as : List (Tid × LogAct)) (t : Tid) (act : LogAct) :
    dumpers (as ++ [(t, act)]) = dumpers as ++ if act.isDump then [t] else [] := by
  cases hact : act.isDump <;> simp [dumpers, hact]

theorem phase_resume (sh : LogShared) (fr : Frame) :
    (sh.resume true sink rest fr).phase = (LogFrame.writing sink fr' rest).phase := by
  cases fr <;> cases rest <;> rfl

inductive Leads (sh : LogShared) (fr : LogFrame) (act : LogAct) (sh' : LogShared) (fr' : LogFrame) :
    Prop
  | stays (hphase : fr'.phase = fr.phase) (hact : act.isDump = false)
      (hfatal : sh'.receiveFatal_ = sh.receiveFatal_) (hexited : sh'.exited = sh.exited)
  | first (hphase : fr.phase = .away) (hphase' : fr'.phase = .dumping) (hact : act.isDump = false)
      (hfatal : sh.receiveFatal_ = false) (hfatal' : sh'.receiveFatal_ = true)
      (hexited : sh'.exited = sh.exited)
  | dump (hphase : fr.phase = .dumping) (hphase' : fr'.phase = .dumped) (hact : act.isDump = true)
      (hsh : sh' = sh)
  | exit (hphase : fr.phase = .dumped) (hfr : fr' = .idle) (hact : act.isDump = false)
      (hexited : sh'.exited = true)

theorem LogMoves.leads (hm : LogMoves true priority_ sh fr act sh' fr' os) :
    Leads sh fr act sh' fr' := by
  cases hm with
  | @log level x h =>
    refine .stays ?_ rfl rfl rfl
    by_cases hfatal : level = .fatal <;> simp [hfatal, LogShared.call, LogFrame.phase]
  | write h => exact .stays (phase_resume ..) rfl rfl rfl
  | first h => exact .first rfl rfl rfl h rfl rfl
  | undumped | dump => exact .dump rfl rfl rfl rfl
  | exit => exact .exit rfl rfl rfl rfl
  | below | later => exact .stays rfl rfl rfl rfl

/-- At most one thread ends the process. -/
inductive Ending (as : List (Tid × LogAct)) (s : LogState Tid) : Prop
  | away (hfatal : s.shared.receiveFatal_ = false) (hexited : s.shared.exited = false)
      (hothers : ∀ t, (s.threads t).phase = .away) (hdumpers : dumpers as = [])
  | dumping (t : Tid) (hfatal : s.shared.receiveFatal_ = true) (hexited : s.shared.exited = false)
      (hphase : (s.threads t).phase = .dumping) (hothers : ∀ u, u ≠ t → (s.threads u).phase = .away)
      (hdumpers : dumpers as = [])
  | dumped (t : Tid) (hfatal : s.shared.receiveFatal_ = true) (hexited : s.shared.exited = false)
      (hphase : (s.threads t).phase = .dumped) (hothers : ∀ u, u ≠ t → (s.threads u).phase = .away)
      (hdumpers : dumpers as = [t])
  | exited (t : Tid) (hexited : s.shared.exited = true) (hidle : s.threads t = .idle)
      (hdumpers : dumpers as = [t])

/-- A thread that is not away is the only one. -/
theorem Ending.alone {s : LogState Tid} (h : Ending as s) (hlive : s.shared.exited = false)
    (hphase : (s.threads t).phase ≠ .away) :
    s.shared.receiveFatal_ = true ∧ (∀ u, u ≠ t → (s.threads u).phase = .away) ∧
      ((s.threads t).phase = .dumping → dumpers as = []) ∧
      ((s.threads t).phase = .dumped → dumpers as = [t]) := by
  cases h with
  | away _ _ hothers => exact absurd (hothers t) hphase
  | dumping v hfatal _ hphase' hothers hdumpers =>
    obtain rfl : t = v := by_contra fun hne => hphase (hothers t hne)
    refine ⟨hfatal, hothers, fun _ => hdumpers, fun h => ?_⟩
    cases h.symm.trans hphase'
  | dumped v hfatal _ hphase' hothers hdumpers =>
    obtain rfl : t = v := by_contra fun hne => hphase (hothers t hne)
    refine ⟨hfatal, hothers, fun h => ?_, fun _ => hdumpers⟩
    cases h.symm.trans hphase'
  | exited v hexited => cases hexited.symm.trans hlive

variable {Tid : Type} [DecidableEq Tid]

theorem Ending.step {s : LogState Tid} (h : Ending as s) (hlive : s.shared.exited = false)
    (hl : Leads s.shared (s.threads t) act sh fr) :
    Ending (as ++ [(t, act)]) ⟨sh, Function.update s.threads t fr⟩ := by
  have hself : Function.update s.threads t fr t = fr := Function.update_self ..
  have hother (u : Tid) (hu : u ≠ t) :
      (Function.update s.threads t fr u).phase = (s.threads u).phase := by
    rw [Function.update_of_ne hu]
  cases hl with
  | stays hphase hact hfatal hexited =>
    have hsame (u : Tid) : (Function.update s.threads t fr u).phase = (s.threads u).phase := by
      by_cases hu : u = t
      · rw [hu, hself, hphase]
      · exact hother u hu
    have hdumpers' : dumpers (as ++ [(t, act)]) = dumpers as := by simp [dumpers_concat, hact]
    cases h with
    | away hfatal₀ hexited₀ hothers hdumpers =>
      exact .away (hfatal.trans hfatal₀) (hexited.trans hexited₀)
        (fun u => (hsame u).trans (hothers u)) (hdumpers'.trans hdumpers)
    | dumping v hfatal₀ hexited₀ hphase₀ hothers hdumpers =>
      exact .dumping v (hfatal.trans hfatal₀) (hexited.trans hexited₀) ((hsame v).trans hphase₀)
        (fun u hu => (hsame u).trans (hothers u hu)) (hdumpers'.trans hdumpers)
    | dumped v hfatal₀ hexited₀ hphase₀ hothers hdumpers =>
      exact .dumped v (hfatal.trans hfatal₀) (hexited.trans hexited₀) ((hsame v).trans hphase₀)
        (fun u hu => (hsame u).trans (hothers u hu)) (hdumpers'.trans hdumpers)
    | exited v hexited₀ => cases hexited₀.symm.trans hlive
  | first hphase hphase' hact hfatal hfatal' hexited =>
    cases h with
    | away _ hexited₀ hothers hdumpers =>
      exact .dumping t hfatal' (hexited.trans hexited₀) ((congrArg _ hself).trans hphase')
        (fun u hu => (hother u hu).trans (hothers u)) (by simp [dumpers_concat, hact, hdumpers])
    | dumping v hfatal₀ | dumped v hfatal₀ => cases hfatal₀.symm.trans hfatal
    | exited v hexited₀ => cases hexited₀.symm.trans hlive
  | dump hphase hphase' hact hsh =>
    subst hsh
    obtain ⟨hfatal, hothers, hdumpers, -⟩ := h.alone (t := t) hlive (by simp [hphase])
    exact .dumped t hfatal hlive ((congrArg _ hself).trans hphase')
      (fun u hu => (hother u hu).trans (hothers u hu))
      (by simp [dumpers_concat, hact, hdumpers hphase])
  | exit hphase hfr hact hexited =>
    obtain ⟨-, -, -, hdumpers⟩ := h.alone (t := t) hlive (by simp [hphase])
    exact .exited t hexited (hself.trans hfr) (by simp [dumpers_concat, hact, hdumpers hphase])

theorem Ending.machine_step {s s' : LogState Tid} {x : Tid × LogAct} (h : Ending as s)
    (hstep : (logMachine true priority_ Tid).step s x = some (s', o)) :
    Ending (as ++ [x]) s' := by
  obtain ⟨t, act⟩ := x
  obtain ⟨sh, fr, os, hmove, rfl, rfl⟩ := Machine.interleave_step_iff.mp hstep
  obtain ⟨hlive, hm⟩ := logStep_moves hmove
  exact h.step hlive hm.leads

-- ---------------------------------------------------------------------------
-- Runs
-- ---------------------------------------------------------------------------

/-- The lines in one of the files, with their threads. -/
def logged (sink : Sink) (os : List (Tid × Output)) : List (Tid × Str) :=
  os.flatMap fun x => (sinkEvents sink [x.2]).flatMap fun e => e.lines.map fun l => (x.1, l)

theorem sinkEvents_cons (sink : Sink) (o : Output) (os : List Output) :
    sinkEvents sink (o :: os) = sinkEvents sink [o] ++ sinkEvents sink os :=
  List.filterMap_append (l := [o])

omit [DecidableEq Tid] in
theorem logged_lines (sink : Sink) (os : List (Tid × Output)) :
    (logged sink os).map Prod.snd = (sinkEvents sink (os.map Prod.snd)).flatMap Event.lines := by
  induction os with
  | nil => rfl
  | cons x os ih =>
    rw [List.map_cons, sinkEvents_cons, List.flatMap_append, ← ih, logged, List.flatMap_cons,
      ← logged]
    simp [List.map_flatMap, Function.comp_def]

omit [DecidableEq Tid] in
theorem logged_append (sink : Sink) (os : List (Tid × Output)) (t : Tid) (os' : List Output) :
    logged sink (os ++ os'.map fun o => (t, o)) =
      logged sink os ++ ((sinkEvents sink os').flatMap Event.lines).map fun l => (t, l) := by
  have hmap : logged sink (os'.map fun o => (t, o)) =
      ((sinkEvents sink os').flatMap Event.lines).map fun l => (t, l) := by
    induction os' with
    | nil => rfl
    | cons o os' ih =>
      rw [List.map_cons, logged, List.flatMap_cons, ← logged, ih, sinkEvents_cons sink o os']
      simp [List.map_flatMap]
  rw [← hmap]
  exact List.flatMap_append

structure Logged (conf : Sink → FileAppender) (old : Sink → List Str) (priority_ : Level)
    (as : List (Tid × LogAct)) (os : List (Tid × Output)) (s : LogState Tid) : Prop where
  conf_eq : ∀ sink, (s.shared.appenders sink).conf = conf sink
  kept : ∀ sink, Kept (conf sink) (old sink) (sinkEvents sink (os.map Prod.snd))
    (s.shared.shared sink)
  busy : ∀ t, (s.threads t).Busy
  lines : ∀ sink t, (ofThread t as).flatMap (LogAct.lines priority_ sink) =
    ofThread t (logged sink os) ++ (s.threads t).pending sink

theorem Logged.step {s s' : LogState Tid} {x : Tid × LogAct}
    (hretain : ∀ sink, (conf sink).retainHours_ = 0) (hapart : Apart conf)
    (h : Logged conf old priority_ as os s) (hok : x.2.Succeeds)
    (hstep : (logMachine ndebug priority_ Tid).step s x = some (s', o)) :
    Logged conf old priority_ (as ++ [x]) (os ++ o) s' := by
  obtain ⟨u, act⟩ := x
  obtain ⟨sh, fr, os', hmove, rfl, rfl⟩ := Machine.interleave_step_iff.mp hstep
  obtain ⟨-, hm⟩ := logStep_moves hmove
  refine ⟨fun sink => (hm.conf_eq sink).trans (h.conf_eq sink), fun sink => ?_, ?_, ?_⟩
  · have hevents : sinkEvents sink ((os ++ os'.map fun o => (u, o)).map Prod.snd) =
        sinkEvents sink (os.map Prod.snd) ++ sinkEvents sink os' := by
      simp [sinkEvents, Function.comp_def]
    rw [hevents]
    exact hm.kept hok h.conf_eq hretain hapart h.kept sink
  · exact (Function.forall_update_iff s.threads fun _ fr => fr.Busy).mpr
      ⟨hm.busy, fun t _ => h.busy t⟩
  · intro sink t
    rw [flatMap_ofThread_concat, logged_append, ofThread_append, ofThread_map, h.lines]
    by_cases htu : u = t
    · subst htu
      simp only [if_true, Function.update_self, List.append_assoc]
      have hkept := h.kept
      simp only [← h.conf_eq] at hkept hretain
      rw [hm.lines (h.busy u) hretain hkept]
    · simp [htu, Function.update_of_ne (Ne.symm htu)]

theorem Logged.init (hapart : Apart conf)
    (hnone : ∀ sink hour, files ((conf sink).rotatedPath hour) = none) (tvSec : Sink → Int) :
    Logged conf (fun sink => (files (conf sink).filePath_).getD []) priority_ [] []
      (LogState.init conf files tvSec : LogState Tid) where
  conf_eq _ := rfl
  kept sink := by
    cases sink with
    | file =>
      have hkept : Kept (conf .file) _ []
          (State.init (conf .file) files true (tvSec .file) : State Tid).shared :=
        .init (hnone .file)
      refine hkept.congr rfl rfl ?_
      intro path hpath
      refine FileSystem.openAppend_of_ne fun hp => ?_
      exact hapart .file .crash (by decide) path hpath (.inl hp)
    | crash =>
      have hother {path : Str} (hpath : (conf .crash).Uses path) :
          files.openAppend (conf .file).filePath_ path = files path :=
        FileSystem.openAppend_of_ne fun hp =>
          hapart .crash .file (by decide) path hpath (.inl hp)
      have hkept : Kept (conf .crash) _ []
          (State.init (conf .crash) (files.openAppend (conf .file).filePath_) true (tvSec .crash)
            : State Tid).shared :=
        .init fun hour => (hother (.inr ⟨hour, rfl⟩)).trans (hnone .crash hour)
      rw [hother (.inl rfl)] at hkept
      exact hkept
  busy _ := trivial
  lines _ _ := rfl

theorem stdToString_ne_f (n : Int) (s : Str) : stdToString n ≠ 'f' :: s := by
  intro h
  have hread := readInt_stdToString n
  rw [h] at hread
  simp [readInt, isSpace, readSign] at hread

/-- The crash file has another name, and no rotated file has it. -/
theorem apart_sinkConf (dir fileName : Str) (retainHours : Int) (localtime : Int → Tm) :
    Apart (sinkConf dir fileName retainHours localtime) := by
  have hapart (path : Str) (hfile : (sinkConf dir fileName retainHours localtime .file).Uses path)
      (hcrash : (sinkConf dir fileName retainHours localtime .crash).Uses path) : False := by
    simp only [FileAppender.Uses, sinkConf, FileAppender.rotatedPath,
      FileAppender.new] at hfile hcrash
    generalize (if dir = [] then ".".toList else dir) = d at hfile hcrash
    rcases hfile with rfl | ⟨hour, rfl⟩ <;> rcases hcrash with h | ⟨hour', h⟩
    · simp at h
    · simp at h
    · simp only [List.append_assoc, List.append_cancel_left_eq] at h
      exact stdToString_ne_f hour _ (List.cons.inj h).2
    · simp only [List.append_assoc, List.append_cancel_left_eq] at h
      exact stdToString_ne_f hour _ (List.cons.inj h).2
  intro sink sink' hne path h h'
  cases sink <;> cases sink'
  · exact hne rfl
  · exact hapart path h h'
  · exact hapart path h' h
  · exact hne rfl

-- ---------------------------------------------------------------------------
-- The files
-- ---------------------------------------------------------------------------

def fatalLog (t : Bool) : List (Bool × LogAct) :=
  [(t, .log .fatal LoggerState.plainLog), (t, .write (.clock 0)), (t, .write .next),
    (t, .write .next), (t, .write .next)]

/-- Both threads have FATAL logs. The first one to exchange `receive_fatal_` ends
the process, the other one returns. -/
def twoFatal : List (Bool × LogAct) :=
  fatalLog true ++ fatalLog false ++
    [(false, .exchange), (true, .exchange),
      (false, .dump { LoggerState.plainLog with stackFrames := some ["f".toList] }),
      (false, .write (.clock 0)), (false, .write .next), (false, .write .next),
      (false, .write .next), (false, .exit)]

end CppUtil.Logger

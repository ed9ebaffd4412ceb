import CppUtil.Lib.Machine

/-!
# `ThreadPool`

Workers take tasks from a queue, clients put them in, and the destructor sets
`stop_` and joins the workers. A critical section under `queue_mutex_` is one
step. A worker that finds nothing to do waits on `condition_`; it wakes when it
is notified, or spuriously, and looks again.
-/

namespace CppUtil.Threadpool

open Lib

/-- `tasks_`, `stop_`, the threads blocked on `condition_`, and the workers
that have returned and can be joined. -/
structure Shared (Tid Task : Type) where
  tasks_ : List Task
  stop_ : Bool
  blocked : List Tid
  exited : List Tid

inductive Frame (Tid Task : Type)
  | outside
  | enqueueing (task : Task)
  | notifying
  | stopping
  | notifyingAll
  | joining (workers : List Tid)
  | looping
  | waiting
  | running (task : Task)
  | returned
  deriving DecidableEq

inductive Event (Task : Type)
  | accepted (task : Task)
  | rejected (task : Task)
  | handed (task : Task)
  | executed (task : Task)
  deriving DecidableEq

/-- What a thread does. `notify_one` wakes a blocked thread of the system's
choice, if there is one. -/
inductive Act (Tid Task : Type)
  | enqueue (task : Task)
  | destroy
  | next
  | notifyOne (w : Option Tid)
  | wake

variable {Tid Task : Type} [DecidableEq Tid]

def Shared.ready (sh : Shared Tid Task) : Bool := sh.stop_ || !sh.tasks_.isEmpty

/-- The critical section of a worker: it blocks until the predicate holds,
returns when the pool stops and nothing is left, or takes the front task. -/
def Shared.work (sh : Shared Tid Task) (t : Tid) :
    Option (Shared Tid Task × Frame Tid Task × List (Event Task)) :=
  if !sh.ready then some ({ sh with blocked := t :: sh.blocked }, .waiting, [])
  else if sh.stop_ && sh.tasks_.isEmpty then
    some ({ sh with exited := t :: sh.exited }, .returned, [])
  else match sh.tasks_ with
    | [] => none
    | task :: tasks => some ({ sh with tasks_ := tasks }, .running task, [.handed task])

def Shared.enqueue (sh : Shared Tid Task) (task : Task) :
    Shared Tid Task × Frame Tid Task × List (Event Task) :=
  if sh.stop_ then (sh, .outside, [.rejected task])
  else ({ sh with tasks_ := sh.tasks_ ++ [task] }, .notifying, [.accepted task])

def step (workers : List Tid) (t : Tid) (sh : Shared Tid Task) (fr : Frame Tid Task) :
    Act Tid Task → Option (Shared Tid Task × Frame Tid Task × List (Event Task))
  | .enqueue task =>
    match fr with
    | .outside => some (sh, .enqueueing task, [])
    | _ => none
  | .destroy =>
    match fr with
    | .outside => some (sh, .stopping, [])
    | _ => none
  | .notifyOne w =>
    match fr, w with
    | .notifying, none => if sh.blocked = [] then some (sh, .outside, []) else none
    | .notifying, some w =>
      if w ∈ sh.blocked then some ({ sh with blocked := sh.blocked.erase w }, .outside, [])
      else none
    | _, _ => none
  -- a spurious wakeup
  | .wake =>
    match fr with
    | .waiting => some ({ sh with blocked := sh.blocked.erase t }, .looping, [])
    | _ => none
  | .next =>
    match fr with
    | .outside | .notifying | .returned | .joining [] => none
    | .enqueueing task => some (sh.enqueue task)
    | .stopping => some ({ sh with stop_ := true }, .notifyingAll, [])
    | .notifyingAll => some ({ sh with blocked := [] }, .joining workers, [])
    | .joining (w :: ws) => if w ∈ sh.exited then some (sh, .joining ws, []) else none
    | .looping => sh.work t
    | .waiting => if t ∈ sh.blocked then none else some (sh, .looping, [])
    | .running task => some (sh, .looping, [.executed task])

abbrev State (Tid Task : Type) := Config Tid (Shared Tid Task) (Frame Tid Task)

/-- The pool with these workers; all other threads are clients, and one of them
runs the destructor. -/
def machine (Task : Type) (workers : List Tid) :
    Machine (State Tid Task) (Tid × Act Tid Task) (Tid × Event Task) :=
  .interleave (step workers)

def State.init (workers : List Tid) : State Tid Task where
  shared := ⟨[], false, [], []⟩
  threads t := if t ∈ workers then .looping else .outside

-- ---------------------------------------------------------------------------
-- What happened to the tasks
-- ---------------------------------------------------------------------------

def Event.accepted? : Event Task → Option Task
  | .accepted task => some task
  | _ => none

def Event.handed? : Event Task → Option Task
  | .handed task => some task
  | _ => none

def Event.executed? : Event Task → Option Task
  | .executed task => some task
  | _ => none

def picked (kind : Event Task → Option Task) (os : List (Tid × Event Task)) : List (Tid × Task) :=
  os.filterMap fun x => (kind x.2).map fun task => (x.1, task)

def accepted (os : List (Tid × Event Task)) : List Task :=
  (picked Event.accepted? os).map Prod.snd

def handed (os : List (Tid × Event Task)) : List (Tid × Task) := picked Event.handed? os

def executed (os : List (Tid × Event Task)) : List (Tid × Task) := picked Event.executed? os

def Frame.task : Frame Tid Task → List Task
  | .running task => [task]
  | _ => []

end CppUtil.Threadpool

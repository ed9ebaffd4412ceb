import CppUtil.Lang.SharedPtr
import CppUtil.Lib.Machine

/-!
# `DoubleBuffer`

Two buffers: readers get the one at `read_idx_`, an update is made to the other
one first and then, after a swap, to the one the readers had. Before each of
the two an update waits until nobody but `buffers_` refers to the buffer.

Each step is one access to something shared. `Load` reads the index and then
copies the pointer, `Update` looks at the use count and then takes the buffer,
and an updater writes to its buffer one write at a time.
-/

namespace CppUtil.DoubleBuffer

open Lang Lib

/-- An index into `buffers_`. It names the object behind the pointer as well:
the constructor makes both, and `buffers_` never lets them go. -/
abbrev Idx := Fin 2

/-- The writes an updater makes to the buffer, one after the other. -/
abbrev Updater (T : Type) := List (T → T)

inductive Call (T : Type)
  | load
  | update (updater : Updater T)

def Call.reset (data : T) : Call T := .update [fun _ => data]

/-- `Update` writes one buffer before its swap and the other one after it. -/
inductive Half
  | first
  | second
  deriving DecidableEq

/-- Where a thread stands. `writeBuffer` is the local pointer of `Update`: null
at first, and from the first half on in its hands until the end. -/
inductive Frame (T : Type)
  | idle
  | loading
  | copying (idx : Idx)
  | locking (updater : Updater T)
  | choosing (updater : Updater T) (half : Half) (writeBuffer : SharedPtr Idx)
  | checking (updater : Updater T) (half : Half) (writeBuffer : SharedPtr Idx) (writeIdx : Idx)
  | taking (updater : Updater T) (half : Half) (writeBuffer : SharedPtr Idx) (writeIdx : Idx)
  | updating (updater : Updater T) (half : Half) (writeBuffer : Idx) (rest : Updater T)
  | swapping (updater : Updater T) (writeBuffer : Idx)

structure Thread (T : Type) where
  held : List Idx
  frame : Frame T

structure Shared (Tid T : Type) where
  heap : Heap Idx T
  readIdx_ : Idx
  writeMtx_ : Option Tid

inductive Event (T : Type)
  | loaded (idx : Idx) (v : Option T)
  | swapped (updater : Updater T)
  | updated (updater : Updater T)
  | thrown (updater : Updater T)

/-- A thread enters a call, takes the next step of its call, or has its updater
throw. A pointer that `Load` returned can be passed on anywhere, so it may be
dropped at any time. -/
inductive Act (T : Type)
  | call (c : Call T)
  | drop (idx : Idx)
  | next
  | throw

variable {Tid T : Type} [DecidableEq Tid]

def Call.entry : Call T → Frame T
  | .load => .loading
  | .update updater => .locking updater

def Thread.next (t : Tid) (sh : Shared Tid T) (th : Thread T) :
    Option (Shared Tid T × Thread T × List (Event T)) :=
  match th.frame with
  | .idle => none
  | .loading => some (sh, { th with frame := .copying sh.readIdx_ }, [])
  | .copying i =>
    some ({ sh with heap := sh.heap.acquire (some i) }, ⟨i :: th.held, .idle⟩,
      [.loaded i (sh.heap.value i)])
  | .locking u =>
    if sh.writeMtx_ = none then
      some ({ sh with writeMtx_ := some t }, { th with frame := .choosing u .first none }, [])
    else none
  -- monopolizer_writer_buffer
  | .choosing u half wb =>
    some (sh, { th with frame := .checking u half wb (1 - sh.readIdx_) }, [])
  | .checking u half wb i =>
    if sh.heap.useCount i = 1 then
      some (sh, { th with frame := .taking u half wb i }, [])
    else some (sh, th, [])
  | .taking u half wb i =>
    some ({ sh with heap := (sh.heap.acquire (some i)).release wb },
      { th with frame := .updating u half i u }, [])
  | .updating u half i (write :: rest) =>
    some ({ sh with heap := sh.heap.modify i write },
      { th with frame := .updating u half i rest }, [])
  | .updating u .first i [] => some (sh, { th with frame := .swapping u i }, [])
  | .swapping u i =>
    some ({ sh with readIdx_ := 1 - sh.readIdx_ },
      { th with frame := .choosing u .second (some i) }, [.swapped u])
  | .updating u .second i [] =>
    some ({ sh with heap := sh.heap.release (some i), writeMtx_ := none },
      { th with frame := .idle }, [.updated u])

def Thread.step (t : Tid) (sh : Shared Tid T) (th : Thread T) :
    Act T → Option (Shared Tid T × Thread T × List (Event T))
  | .call c =>
    match th.frame with
    | .idle => some (sh, { th with frame := c.entry }, [])
    | _ => none
  | .drop i =>
    if i ∈ th.held then
      some ({ sh with heap := sh.heap.release (some i) }, { th with held := th.held.erase i }, [])
    else none
  | .next => th.next t sh
  -- the locals of `Update` are destroyed, the lock last
  | .throw =>
    match th.frame with
    | .updating u _ i _ =>
      some ({ sh with heap := sh.heap.release (some i), writeMtx_ := none },
        { th with frame := .idle }, [.thrown u])
    | _ => none

abbrev State (Tid T : Type) := Config Tid (Shared Tid T) (Thread T)

def machine (Tid T : Type) [DecidableEq Tid] :
    Machine (State Tid T) (Tid × Act T) (Tid × Event T) :=
  .interleave fun t sh th => th.step t sh

def State.init (data : T) : State Tid T where
  shared := ⟨⟨fun _ => 1, fun _ => some data⟩, 0, none⟩
  threads _ := ⟨[], .idle⟩

end CppUtil.DoubleBuffer

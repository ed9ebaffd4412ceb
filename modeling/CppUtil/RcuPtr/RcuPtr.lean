import CppUtil.Lang.SharedPtr
import CppUtil.Lib.Machine

/-!
# `rcu_ptr`

An `rcu_ptr` is a `shared_ptr` that threads read and replace with the atomic
functions for `shared_ptr`s. `Load` and `Store` are one atomic step each.
`Update` copies the object it loaded, applies the function to its copy, and
publishes the copy if the pointer is still the one it copied from; otherwise
it starts again from the pointer it found there.

A thread runs one call at a time. Between calls it owns the pointers that
`Load` returned or that it made, and drops them as it likes.
-/

namespace CppUtil.RcuPtr

open Lang Lib

abbrev Addr := Nat

/-- The calls a thread makes. A function given to `Update` is pure: what it
does to the object behind its argument is a function of the object. -/
inductive Call (T : Type)
  | load
  | store (r : SharedPtr Addr)
  | update (func : T → T)

/-- Where a thread stands. `Update` has left its load behind in `copying`, the
deep copy in `applying`, the call of the function in `exchanging`. -/
inductive Frame (T : Type)
  | idle
  | called (c : Call T)
  | copying (func : T → T) (spCopy : SharedPtr Addr)
  | applying (func : T → T) (spCopy spDeepCopy : SharedPtr Addr)
  | exchanging (func : T → T) (spCopy spDeepCopy : SharedPtr Addr)
  | fault

structure Thread (T : Type) where
  held : List Addr
  frame : Frame T

structure Shared (T : Type) where
  sp_ : SharedPtr Addr
  heap : Heap Addr T

/-- A call took effect. Loads and stores show the object their pointer had. -/
inductive Event (T : Type)
  | loaded (p : SharedPtr Addr) (v : Option T)
  | stored (p : SharedPtr Addr) (v : Option T)
  | updated (func : T → T)

/-- What a thread does: it enters a call, makes or drops a pointer of its own,
or takes the next step of its call. A step that allocates gets the address
`fresh`. -/
inductive Act (T : Type)
  | call (c : Call T)
  | make (a : Addr) (v : T)
  | drop (a : Addr)
  | next (fresh : Addr)

def Frame.isIdle : Frame T → Bool
  | .idle => true
  | _ => false

def Call.allowed (held : List Addr) : Call T → Bool
  | .store (some a) => held.contains a
  | _ => true

-- ---------------------------------------------------------------------------
-- Atomic functions
-- ---------------------------------------------------------------------------

def Shared.load (sh : Shared T) : Shared T :=
  { sh with heap := sh.heap.acquire sh.sp_ }

/-- `std::atomic_store_explicit`. Both overloads of `Store` copy: a `const`
rvalue cannot be moved from. -/
def Shared.store (sh : Shared T) (r : SharedPtr Addr) : Shared T where
  sp_ := r
  heap := (sh.heap.acquire r).release sh.sp_

/-- `std::atomic_compare_exchange_strong_explicit` when the pointers are equal:
`desired` moves in, the old pointer goes, and so does the caller's `expected`,
which it leaves behind on its return. -/
def Shared.exchange (sh : Shared T) (expected desired : SharedPtr Addr) : Shared T where
  sp_ := desired
  heap := (sh.heap.release sh.sp_).release expected

/-- The same when they differ: the pointer is copied over `expected`, and
`desired` is destroyed with the call. -/
def Shared.refuse (sh : Shared T) (expected desired : SharedPtr Addr) : Shared T :=
  { sh with heap := ((sh.heap.acquire sh.sp_).release expected).release desired }

def Shared.published (sh : Shared T) : Option T := sh.heap.read sh.sp_

-- ---------------------------------------------------------------------------
-- Steps
-- ---------------------------------------------------------------------------

/-- The deep copy of `Update`. With nothing to copy, `sp_deep_copy` stays the
null pointer it is at the start and after each exchange. -/
def Thread.copy (sh : Shared T) (th : Thread T) (func : T → T) (spCopy : SharedPtr Addr)
    (fresh : Addr) : Option (Shared T × Thread T × List (Event T)) :=
  match spCopy with
  | none => some (sh, { th with frame := .applying func none none }, [])
  | some c =>
    match sh.heap.value c with
    | none => some (sh, { th with frame := .fault }, [])
    | some v =>
      if sh.heap.useCount fresh = 0 then
        some ({ sh with heap := sh.heap.makeShared fresh v },
          { th with frame := .applying func (some c) (some fresh) }, [])
      else none

def Thread.next (sh : Shared T) (th : Thread T) (fresh : Addr) :
    Option (Shared T × Thread T × List (Event T)) :=
  match th.frame with
  | .idle | .fault => none
  | .called .load =>
    some (sh.load, { held := sh.sp_.toList ++ th.held, frame := .idle },
      [.loaded sh.sp_ sh.published])
  | .called (.store r) =>
    some (sh.store r, { th with frame := .idle }, [.stored r (sh.heap.read r)])
  | .called (.update func) => some (sh.load, { th with frame := .copying func sh.sp_ }, [])
  | .copying func spCopy => th.copy sh func spCopy fresh
  -- the function writes through `sp_deep_copy.get()`
  | .applying _ _ none => some (sh, { th with frame := .fault }, [])
  | .applying func spCopy (some d) =>
    some ({ sh with heap := sh.heap.modify d func },
      { th with frame := .exchanging func spCopy (some d) }, [])
  | .exchanging func spCopy spDeepCopy =>
    if sh.sp_ = spCopy then
      some (sh.exchange spCopy spDeepCopy, { th with frame := .idle }, [.updated func])
    else
      some (sh.refuse spCopy spDeepCopy, { th with frame := .copying func sh.sp_ }, [])

def Thread.step (sh : Shared T) (th : Thread T) :
    Act T → Option (Shared T × Thread T × List (Event T))
  | .call c =>
    if th.frame.isIdle ∧ c.allowed th.held then
      some (sh, { th with frame := .called c }, [])
    else none
  | .make a v =>
    if th.frame.isIdle ∧ sh.heap.useCount a = 0 then
      some ({ sh with heap := sh.heap.makeShared a v }, { th with held := a :: th.held }, [])
    else none
  | .drop a =>
    if th.frame.isIdle ∧ a ∈ th.held then
      some ({ sh with heap := sh.heap.release (some a) }, { th with held := th.held.erase a }, [])
    else none
  | .next fresh => th.next sh fresh

-- ---------------------------------------------------------------------------
-- Threads
-- ---------------------------------------------------------------------------

abbrev State (Tid T : Type) := Config Tid (Shared T) (Thread T)

variable {Tid T : Type} [DecidableEq Tid]

def machine (Tid T : Type) [DecidableEq Tid] :
    Machine (State Tid T) (Tid × Act T) (Tid × Event T) :=
  .interleave fun _ sh th => th.step sh

def State.init (t : Tid) (a : Addr) (v : T) : State Tid T where
  shared := ⟨some a, ⟨fun b => if b = a then 2 else 0, fun b => if b = a then some v else none⟩⟩
  threads u := ⟨if u = t then [a] else [], .idle⟩

-- ---------------------------------------------------------------------------
-- The sequential object
-- ---------------------------------------------------------------------------

def Event.apply (x : Option T) : Event T → Option T
  | .loaded _ _ => x
  | .stored _ v => v
  | .updated func => x.map func

def Legal (x : Option T) : List (Event T) → Prop
  | [] => True
  | .loaded p v :: es => v = x ∧ Legal (Event.apply x (.loaded p v)) es
  | e :: es => Legal (e.apply x) es

def Event.call : Event T → Call T
  | .loaded _ _ => .load
  | .stored p _ => .store p
  | .updated func => .update func

def Frame.pending : Frame T → List (Call T)
  | .idle | .fault => []
  | .called c => [c]
  | .copying func _ | .applying func _ _ | .exchanging func _ _ => [.update func]

def Act.calls : Act T → List (Call T)
  | .call c => [c]
  | _ => []

def callsOf (t : Tid) (as : List (Tid × Act T)) : List (Call T) :=
  (ofThread t as).flatMap Act.calls

def effectsOf (t : Tid) (os : List (Tid × Event T)) : List (Call T) :=
  (ofThread t os).map Event.call

end CppUtil.RcuPtr

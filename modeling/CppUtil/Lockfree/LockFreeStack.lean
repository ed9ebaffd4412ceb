import CppUtil.Lib.Linked
import CppUtil.Lib.Machine

/-!
# `LockFreeStack`

A stack of linked nodes. `Push` and `Pop` load `head_`, write or read the
`next` of a node, and swing `head_` with a compare-exchange; when it fails they
start again. The compare-exchange is a weak one: it may fail spuriously.

A thread owns the nodes it has made or popped, and pushes only those.
-/

namespace CppUtil.Lockfree

open Lib

/-- Where a thread stands. `Push` goes from its load of `head_` to the write of
`next` to the exchange, `Pop` from the load to the read of `next` to the
exchange. -/
inductive Frame (Node : Type)
  | idle
  | pushing (newNode : Node)
  | linking (newNode : Node) (originalHead : Option Node)
  | pushExchange (newNode : Node) (originalHead : Option Node)
  | popping
  | reading (oldHead : Node)
  | popExchange (oldHead : Node) (newHead : Option Node)

structure Thread (Node : Type) where
  owned : List Node
  frame : Frame Node

structure Shared (Node : Type) where
  head_ : Option Node
  next : Node → Option Node

inductive Event (Node : Type)
  | pushed (node : Node)
  | popped (node : Option Node)
  deriving DecidableEq

/-- A thread enters a call, takes its next step, or has its compare-exchange
fail for no reason. -/
inductive Act (Node : Type)
  | push (node : Node)
  | pop
  | next
  | spurious

variable {Tid Node : Type} [DecidableEq Node]

def Thread.next (sh : Shared Node) (th : Thread Node) :
    Option (Shared Node × Thread Node × List (Event Node)) :=
  match th.frame with
  | .idle => none
  | .pushing n => some (sh, { th with frame := .linking n sh.head_ }, [])
  | .linking n h =>
    some ({ sh with next := Function.update sh.next n h }, { th with frame := .pushExchange n h }, [])
  | .pushExchange n h =>
    if sh.head_ = h then
      some ({ sh with head_ := some n }, { th with frame := .idle }, [.pushed n])
    else some (sh, { th with frame := .pushing n }, [])
  | .popping =>
    match sh.head_ with
    | none => some (sh, { th with frame := .idle }, [.popped none])
    | some a => some (sh, { th with frame := .reading a }, [])
  | .reading a => some (sh, { th with frame := .popExchange a (sh.next a) }, [])
  | .popExchange a n =>
    if sh.head_ = some a then
      some ({ sh with head_ := n }, ⟨a :: th.owned, .idle⟩, [.popped (some a)])
    else some (sh, { th with frame := .popping }, [])

def Thread.step (sh : Shared Node) (th : Thread Node) :
    Act Node → Option (Shared Node × Thread Node × List (Event Node))
  | .push n =>
    match th.frame with
    | .idle =>
      if n ∈ th.owned then some (sh, ⟨th.owned.erase n, .pushing n⟩, []) else none
    | _ => none
  | .pop =>
    match th.frame with
    | .idle => some (sh, { th with frame := .popping }, [])
    | _ => none
  | .next => th.next sh
  | .spurious =>
    match th.frame with
    | .pushExchange n _ => some (sh, { th with frame := .pushing n }, [])
    | .popExchange _ _ => some (sh, { th with frame := .popping }, [])
    | _ => none

abbrev State (Tid Node : Type) := Config Tid (Shared Node) (Thread Node)

def machine (Tid Node : Type) [DecidableEq Tid] [DecidableEq Node] :
    Machine (State Tid Node) (Tid × Act Node) (Tid × Event Node) :=
  .interleave fun _ sh th => th.step sh

/-- An empty stack, and the nodes each thread has. `next` is what the nodes
happen to hold. -/
def State.init (next : Node → Option Node) (owned : Tid → List Node) : State Tid Node where
  shared := ⟨none, next⟩
  threads t := ⟨owned t, .idle⟩

end CppUtil.Lockfree

import CppUtil.Lang.Numeric
import CppUtil.Lib.EdgeTriggered
import CppUtil.Lib.Machine

/-!
# `TcpServer`

The epoll thread forwards what a client sends to all other clients. A client's
socket is watched for `EPOLLIN | EPOLLET` and is never armed again, and
`client_msg_handler` calls `read` once for an event.

The kernel and the clients decide when bytes arrive, which events a wait
returns and which descriptor `accept` gives: these are the actions. The
listening socket is level triggered, so a connection is accepted between any two
events of a batch. `write` takes all bytes; a call that fails ends the process
and has no step. The addresses of the clients are only logged.
-/

namespace CppUtil.Tcp

open Lang (Str)
open Lib

abbrev Fd := Nat

def readBufferSize : Nat := 1024

def maxEpollEvents : Nat := 10

structure Client where
  /-- The receive buffer of the kernel. -/
  incoming : Str
  eof : Bool
  /-- What the server wrote to this client. -/
  written : Str := []
  /-- What arrived from this client so far. -/
  sent : Str := incoming
  /-- What `client_msg_handler` read from this client and forwarded. -/
  forwarded : Str := []

structure State where
  poll : Poll Fd Client
  /-- The keys of `sock_fd_to_client_addr_`. -/
  table : List Fd

def State.init : State := ⟨.empty, []⟩

inductive Event
  | accepted (fd : Fd)
  | forwarded (fd : Fd) (bytes : Str)
  /-- With all that was written to the client. -/
  | disconnected (fd : Fd) (written : Str)
  deriving DecidableEq

/-- Bytes arrive: the flag goes up. -/
def Client.arrive (c : Client) (bytes : Str) : Watched Client :=
  ⟨{ c with incoming := c.incoming ++ bytes, sent := c.sent ++ bytes }, true⟩

def Client.write (c : Client) (bytes : Str) : Client :=
  { c with written := c.written ++ bytes }

def Client.read (c : Client) : Client :=
  { c with
    incoming := c.incoming.drop readBufferSize
    forwarded := c.forwarded ++ c.incoming.take readBufferSize }

def write (fd : Fd) (bytes : Str) (p : Poll Fd Client) : Poll Fd Client :=
  p.set fd ((p.watched fd).map fun w => { w with socket := w.socket.write bytes })

def forward (sockFd : Fd) (buffer : Str) (table : List Fd) (p : Poll Fd Client) :
    Poll Fd Client :=
  table.foldl (fun p fd => if fd ≠ sockFd then write fd buffer p else p) p

namespace State

/-- `accept_event_handler`, where `accept` returns the descriptor of a client
that has sent `bytes` already. -/
def acceptEventHandler (connFd : Fd) (bytes : Str) (eof : Bool) (s : State) : State × List Event :=
  let client : Client := { incoming := bytes, eof }
  ({ poll := s.poll.set connFd (some ⟨client, bytes ≠ [] || eof⟩), table := s.table.insert connFd },
    [.accepted connFd])

/-- `client_msg_handler`, for the first event of the batch. -/
def clientMsgHandler (sockFd : Fd) (w : Watched Client) (s : State) : State × List Event :=
  let buffer := w.socket.incoming.take readBufferSize
  if buffer = [] then
    if w.socket.eof then
      ({ poll := s.poll.handled sockFd none, table := s.table.erase sockFd },
        [.disconnected sockFd w.socket.written])
    -- `EAGAIN`
    else ({ s with poll := s.poll.handled sockFd (some w) }, [])
  else
    let poll := s.poll.handled sockFd (some { w with socket := w.socket.read })
    ({ s with poll := forward sockFd buffer s.table poll }, [.forwarded sockFd buffer])

end State

inductive Act
  | arrive (fd : Fd) (bytes : Str)
  | hangUp (fd : Fd)
  | accept (fd : Fd) (bytes : Str) (eof : Bool)
  | wait (fds : List Fd)
  | handle

def step (s : State) : Act → Option (State × List Event)
  | .arrive fd bytes =>
    (s.poll.watched fd).bind fun w =>
      if bytes ≠ [] ∧ !w.socket.eof then
        some ({ s with poll := s.poll.set fd (some (w.socket.arrive bytes)) }, [])
      else none
  | .hangUp fd =>
    (s.poll.watched fd).bind fun w =>
      if !w.socket.eof then
        some ({ s with poll := s.poll.set fd (some ⟨{ w.socket with eof := true }, true⟩) }, [])
      else none
  | .accept fd bytes eof =>
    if (s.poll.watched fd).isNone then some (s.acceptEventHandler fd bytes eof) else none
  | .wait fds =>
    if s.poll.CanTake fds ∧ fds.length ≤ maxEpollEvents then
      some ({ s with poll := s.poll.wait fds }, [])
    else none
  | .handle =>
    match s.poll.batch with
    | [] => none
    | fd :: _ => (s.poll.watched fd).map fun w => s.clientMsgHandler fd w

def machine : Machine State Act Event := ⟨step⟩

inductive Moves (s : State) : Act → State → List Event → Prop
  | arrive (hw : s.poll.watched fd = some w) :
      Moves s (.arrive fd bytes) { s with poll := s.poll.set fd (some (w.socket.arrive bytes)) } []
  | hangUp (hw : s.poll.watched fd = some w) :
      Moves s (.hangUp fd)
        { s with poll := s.poll.set fd (some ⟨{ w.socket with eof := true }, true⟩) } []
  | accept (hw : s.poll.watched fd = none) :
      Moves s (.accept fd bytes eof) (s.acceptEventHandler fd bytes eof).1
        (s.acceptEventHandler fd bytes eof).2
  | wait (hfds : s.poll.CanTake fds) : Moves s (.wait fds) { s with poll := s.poll.wait fds } []
  | closed (hb : s.poll.batch = fd :: rest) (hw : s.poll.watched fd = some w)
      (hin : w.socket.incoming = []) :
      Moves s .handle { poll := s.poll.handled fd none, table := s.table.erase fd }
        [.disconnected fd w.socket.written]
  | again (hb : s.poll.batch = fd :: rest) (hw : s.poll.watched fd = some w)
      (hin : w.socket.incoming = []) :
      Moves s .handle { s with poll := s.poll.handled fd (some w) } []
  | forward (hb : s.poll.batch = fd :: rest) (hw : s.poll.watched fd = some w)
      (hin : w.socket.incoming ≠ []) :
      Moves s .handle
        { s with
          poll := forward fd (w.socket.incoming.take readBufferSize) s.table
            (s.poll.handled fd (some { w with socket := w.socket.read })) }
        [.forwarded fd (w.socket.incoming.take readBufferSize)]

theorem clientMsgHandler_moves (hb : s.poll.batch = fd :: rest) (hw : s.poll.watched fd = some w) :
    Moves s .handle (s.clientMsgHandler fd w).1 (s.clientMsgHandler fd w).2 := by
  have htake : w.socket.incoming.take readBufferSize = [] ↔ w.socket.incoming = [] := by
    simp [List.take_eq_nil_iff, readBufferSize]
  by_cases hin : w.socket.incoming = []
  · cases heof : w.socket.eof with
    | true =>
      simp only [State.clientMsgHandler, if_pos (htake.mpr hin), heof, if_true]
      exact .closed hb hw hin
    | false =>
      simp only [State.clientMsgHandler, if_pos (htake.mpr hin), heof, Bool.false_eq_true,
        if_false]
      exact .again hb hw hin
  · simp only [State.clientMsgHandler, if_neg (mt htake.mp hin)]
    exact .forward hb hw hin

theorem step_moves (h : step s act = some (s', es)) : Moves s act s' es := by
  cases act with
  | arrive fd bytes =>
    obtain ⟨w, hw, h⟩ := Option.bind_eq_some_iff.mp h
    obtain ⟨-, h⟩ := Option.ite_none_right_eq_some.mp h
    cases h
    exact .arrive hw
  | hangUp fd =>
    obtain ⟨w, hw, h⟩ := Option.bind_eq_some_iff.mp h
    obtain ⟨-, h⟩ := Option.ite_none_right_eq_some.mp h
    cases h
    exact .hangUp hw
  | accept fd bytes eof =>
    obtain ⟨hfree, h⟩ := Option.ite_none_right_eq_some.mp h
    cases h
    exact .accept (Option.isNone_iff_eq_none.mp hfree)
  | wait fds =>
    obtain ⟨hfds, h⟩ := Option.ite_none_right_eq_some.mp h
    cases h
    exact .wait hfds.1
  | handle =>
    cases hb : s.poll.batch with
    | nil => simp [step, hb] at h
    | cons fd rest =>
      simp only [step, hb, Option.map_eq_some_iff] at h
      obtain ⟨w, hw, h⟩ := h
      have hmoves := clientMsgHandler_moves hb hw
      rwa [h] at hmoves

end CppUtil.Tcp

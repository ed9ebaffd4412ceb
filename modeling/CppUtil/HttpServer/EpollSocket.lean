import CppUtil.HttpServer.Server
import CppUtil.Lib.EdgeTriggered
import CppUtil.Lib.Machine

/-!
# The loop of `EpollSocket`

All connections, over any event handler. A connection is registered for
`EPOLLIN` or `EPOLLOUT`, edge triggered. Bytes that arrive raise the flag of a
connection that is registered for `EPOLLIN`; `EPOLL_CTL_ADD` and
`EPOLL_CTL_MOD`, which do not fail here, set the flag by what is there.

The kernel and the peers decide when bytes arrive, which events a wait returns,
how much `recv` takes and whether the socket can be written: these are the
actions. The listening socket is level triggered, so a connection is accepted
between any two events of a batch.
-/

namespace CppUtil.HttpServer

open Lang (Str)
open Lib

abbrev Fd := Nat

/-- `Env` is what a handler sees of the world outside of its context. -/
structure EpollEventHandler (Env Ctx : Type*) where
  onAccept : Ctx
  onReadable : Env → Str → Ctx → ReadStatus × Ctx
  onWriteable : Env → Ctx → WriteStatus × Ctx

def HttpEpollEventHandler.toEpollEventHandler (h : HttpEpollEventHandler) :
    EpollEventHandler Int HttpContext where
  onAccept := {}
  onReadable _ := h.onReadable
  onWriteable := HttpContext.onWriteable

structure Socket (Ctx : Type*) where
  ctx : Ctx
  interest : Interest
  /-- The receive buffer of the kernel. -/
  incoming : Str

namespace Socket

variable {Env Ctx : Type*} (h : EpollEventHandler Env Ctx)

def epollCtl (interest : Interest) (writable : Bool) (sock : Socket Ctx) : Watched (Socket Ctx) where
  socket := { sock with interest }
  ready :=
    match interest with
    | .epollIn => sock.incoming ≠ []
    | .epollOut => writable

/-- `handle_readable_event`, where `recv` returns `readSize`, and zero also
stands for an error. Nothing is left of a connection that is closed. -/
def handleReadableEvent (env : Env) (readSize : Nat) (writable : Bool) (sock : Socket Ctx) :
    Option (Watched (Socket Ctx)) :=
  if readSize = 0 then none
  else
    let (status, ctx) := h.onReadable env (sock.incoming.take readSize) sock.ctx
    let sock := { sock with ctx, incoming := sock.incoming.drop readSize }
    match status with
    | .readError | .readReachMaxSize => none
    | .readContinue => some (sock.epollCtl .epollIn writable)
    | .readOver => some (sock.epollCtl .epollOut writable)

def handleWriteableEvent (env : Env) (writable : Bool) (sock : Socket Ctx) :
    Option (Watched (Socket Ctx)) :=
  let (status, ctx) := h.onWriteable env sock.ctx
  let sock := { sock with ctx }
  match status with
  | .writeError | .writeOver => none
  | .writeContinue => some (sock.epollCtl .epollOut writable)
  | .writeAlive => some (sock.epollCtl .epollIn writable)

end Socket

structure EpollSocket (Ctx : Type*) where
  poll : Poll Fd (Socket Ctx)
  /-- The `events` of each event in the batch. -/
  events : Fd → Interest

inductive EpollSocket.Act (Env : Type*)
  /-- No bytes stand for the end of the stream. -/
  | arrive (fd : Fd) (bytes : Str)
  | writeable (fd : Fd)
  | accept (fd : Fd) (bytes : Str)
  | wait (fds : List Fd)
  /-- `writable` is for `EPOLL_CTL_MOD`. -/
  | handle (env : Env) (readSize : Nat) (writable : Bool)

namespace EpollSocket

variable {Env Ctx : Type*} (h : EpollEventHandler Env Ctx) (maxEvents : Nat)

def init : EpollSocket Ctx := ⟨.empty, fun _ => .epollIn⟩

/-- Something happens at a connection: an event for those registered for it. -/
def occurs (interest : Interest) (w : Watched (Socket Ctx)) (bytes : Str) : Watched (Socket Ctx) where
  socket := { w.socket with incoming := w.socket.incoming ++ bytes }
  ready := w.ready || w.socket.interest = interest

/-- `handle_accept_event`, where `accept` returns `connSocket`, whose peer has
sent `bytes` already. -/
def handleAcceptEvent (connSocket : Fd) (bytes : Str) (s : EpollSocket Ctx) : EpollSocket Ctx :=
  let sock : Socket Ctx := { ctx := h.onAccept, interest := .epollIn, incoming := bytes }
  { s with poll := s.poll.set connSocket (some (sock.epollCtl .epollIn false)) }

def handleEvent (env : Env) (readSize : Nat) (writable : Bool) (sock : Socket Ctx) :
    Interest → Option (Watched (Socket Ctx))
  | .epollIn => sock.handleReadableEvent h env readSize writable
  | .epollOut => sock.handleWriteableEvent h env writable

/-- The events that a wait returns are those the connections are registered for. -/
def reported (s : EpollSocket Ctx) (fd : Fd) : Interest :=
  ((s.poll.watched fd).map fun w => w.socket.interest).getD .epollIn

def step (s : EpollSocket Ctx) : Act Env → Option (EpollSocket Ctx × List Empty)
  | .arrive fd bytes =>
    (s.poll.watched fd).map fun w =>
      ({ s with poll := s.poll.set fd (some (occurs .epollIn w bytes)) }, [])
  | .writeable fd =>
    (s.poll.watched fd).map fun w =>
      ({ s with poll := s.poll.set fd (some (occurs .epollOut w [])) }, [])
  | .accept fd bytes =>
    if (s.poll.watched fd).isNone then some (handleAcceptEvent h fd bytes s, []) else none
  | .wait fds =>
    if s.poll.CanTake fds ∧ fds.length ≤ maxEvents then
      some (⟨s.poll.wait fds, s.reported⟩, [])
    else none
  | .handle env readSize writable =>
    match s.poll.batch with
    | [] => none
    | fd :: _ =>
      (s.poll.watched fd).bind fun w =>
        if readSize ≤ epollSocketReadBufferSize ∧ readSize ≤ w.socket.incoming.length then
          let w' := handleEvent h env readSize writable w.socket (s.events fd)
          some ({ s with poll := s.poll.handled fd w' }, [])
        else none

def machine : Machine (EpollSocket Ctx) (Act Env) Empty := ⟨step h maxEvents⟩

inductive Moves (s : EpollSocket Ctx) : Act Env → EpollSocket Ctx → Prop
  | arrive (hw : s.poll.watched fd = some w) :
      Moves s (.arrive fd bytes) { s with poll := s.poll.set fd (some (occurs .epollIn w bytes)) }
  | writeable (hw : s.poll.watched fd = some w) :
      Moves s (.writeable fd) { s with poll := s.poll.set fd (some (occurs .epollOut w [])) }
  | accept (hw : s.poll.watched fd = none) :
      Moves s (.accept fd bytes) (handleAcceptEvent h fd bytes s)
  | wait (hfds : s.poll.CanTake fds) : Moves s (.wait fds) ⟨s.poll.wait fds, s.reported⟩
  | handle (hb : s.poll.batch = fd :: rest) (hw : s.poll.watched fd = some w) :
      Moves s (.handle env readSize writable)
        { s with
          poll := s.poll.handled fd
            (handleEvent h env readSize writable w.socket (s.events fd)) }

variable {h maxEvents}

theorem step_moves (hstep : step h maxEvents s act = some (s', es)) : Moves h s act s' := by
  cases act with
  | arrive fd bytes =>
    obtain ⟨w, hw, he⟩ := Option.map_eq_some_iff.mp hstep
    cases he
    exact .arrive hw
  | writeable fd =>
    obtain ⟨w, hw, he⟩ := Option.map_eq_some_iff.mp hstep
    cases he
    exact .writeable hw
  | accept fd bytes =>
    obtain ⟨hfree, he⟩ := Option.ite_none_right_eq_some.mp hstep
    cases he
    exact .accept (Option.isNone_iff_eq_none.mp hfree)
  | wait fds =>
    obtain ⟨hfds, he⟩ := Option.ite_none_right_eq_some.mp hstep
    cases he
    exact .wait hfds.1
  | handle env readSize writable =>
    cases hb : s.poll.batch with
    | nil => simp [step, hb] at hstep
    | cons fd rest =>
      simp only [step, hb] at hstep
      obtain ⟨w, hw, he⟩ := Option.bind_eq_some_iff.mp hstep
      obtain ⟨-, he⟩ := Option.ite_none_right_eq_some.mp he
      cases he
      exact .handle hb hw

end EpollSocket

-- ---------------------------------------------------------------------------
-- One connection of an `HttpEpollEventHandler`
-- ---------------------------------------------------------------------------

def Connection.Agrees (conn : Connection) : Option (Watched (Socket HttpContext)) → Prop
  | none => conn.closed = true
  | some w => conn.closed = false ∧ conn.ctx = w.socket.ctx ∧ conn.interest = w.socket.interest

theorem Connection.Agrees.handleReadableEvent {h : HttpEpollEventHandler}
    (hconn : Connection.Agrees conn (some w)) (hsize : readSize ≤ w.socket.incoming.length) :
    (conn.handleReadableEvent h (w.socket.incoming.take readSize)).Agrees
      (w.socket.handleReadableEvent h.toEpollEventHandler env readSize writable) := by
  obtain ⟨hclosed, hctx, -⟩ := hconn
  rw [Connection.handleReadableEvent, Socket.handleReadableEvent]
  by_cases hzero : readSize = 0
  · simp [hzero, Agrees]
  · have htake : w.socket.incoming.take readSize ≠ [] := by
      rw [ne_eq, List.take_eq_nil_iff, ← List.length_eq_zero_iff]
      omega
    rw [if_neg hzero, if_neg htake, hctx]
    simp only [HttpEpollEventHandler.toEpollEventHandler, HttpEpollEventHandler.onReadable]
    cases (h.onReadableCalls (w.socket.incoming.take readSize) w.socket.ctx).1 with
    | readError | readReachMaxSize => rfl
    | readContinue | readOver => exact ⟨hclosed, rfl, rfl⟩

theorem Connection.Agrees.handleWriteableEvent {h : HttpEpollEventHandler}
    (hconn : Connection.Agrees conn (some w)) :
    (conn.handleWriteableEvent nWrite).Agrees
      (w.socket.handleWriteableEvent h.toEpollEventHandler nWrite writable) := by
  obtain ⟨hclosed, hctx, -⟩ := hconn
  rw [Connection.handleWriteableEvent, Socket.handleWriteableEvent, hctx]
  simp only [HttpEpollEventHandler.toEpollEventHandler]
  cases (w.socket.ctx.onWriteable nWrite).1 with
  | writeError | writeOver => rfl
  | writeContinue | writeAlive => exact ⟨hclosed, rfl, rfl⟩

end CppUtil.HttpServer

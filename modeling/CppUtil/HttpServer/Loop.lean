import CppUtil.HttpServer.Contexts

/-!
# The loop of `EpollSocket`, with its memory and descriptors

An event carries 64 bits of data: for a connection the pointer to its context,
for the listening socket the descriptor, in the lower half. The loop tells them
apart by the lower half. The kernel and the allocator answer the calls that are
made while an event is handled; `recv` returning nothing stands for the end of
the stream and for errors.
-/

namespace CppUtil.HttpServer

open Lang (Str Ptr Stop Memory nullptr Gives Turns Owns)
open Lib

structure EpollEvent where
  epollIn : Bool
  epollOut : Bool
  data : BitVec 64

/-- `data.fd`, which shares its bytes with `data.ptr`. -/
def EpollEvent.fd (e : EpollEvent) : Int := (e.data.setWidth 32).toInt

/-- The calls that the loop makes of the kernel, as far as the peers see them. -/
inductive Call
  /-- A connection was accepted, and whether it could be registered. -/
  | accepted (fd : Fd) (added : Bool)
  | received (fd : Fd) (bytes : Str)
  | sent (fd : Fd) (buffer : Str) (nWrite : Int)
  | released (fd : Fd)
  deriving DecidableEq

def Call.fd : Call → Fd
  | .accepted fd _ | .received fd _ | .sent fd _ _ | .released fd => fd

structure Answers where
  accepted : Option Fd := none
  added : Bool := true
  received : Str := []
  nWrite : Int := -1
  modified : Bool := true
  ctx : Ptr := nullptr
  http : Ptr := nullptr
  req : Ptr := nullptr
  resp : Ptr := nullptr

structure Loop where
  memory : Memory Object
  isOpen : Fd → Bool
  registered : Fd → Option EpollEvent
  /-- The events of the last `epoll_wait` that are not handled yet. -/
  events : List EpollEvent

namespace Loop

/-- Before the first wait only the listening socket is registered. The upper
half of its data is not set. -/
def init (inUse : Fd → Bool) (listenSocketFd : Fd) (data : BitVec 64) : Loop where
  memory _ := none
  isOpen := inUse
  registered := Function.update (fun _ => none) listenSocketFd (some ⟨true, false, data⟩)
  events := []

def closeAndRelease (event : EpollEvent) (s : Loop) : Except Stop (Loop × List Call) :=
  if event.data = nullptr then .ok (s, [])
  else do
    let m ← onClose event.data s.memory
    let (fd, _) ← eventContext m event.data
    let m ← m.delete event.data
    .ok ({ s with
      memory := m
      registered := Function.update s.registered fd none
      isOpen := if fd > 0 then Function.update s.isOpen fd false else s.isOpen }, [.released fd])

def modify (fd : Fd) (event : EpollEvent) (modified : Bool) (s : Loop) : Loop :=
  if modified ∧ (s.registered fd).isSome then
    { s with registered := Function.update s.registered fd (some event) }
  else s -- the source does not look at the failure

def handleAcceptEvent (ans : Answers) (s : Loop) : Except Stop (Loop × List Call) :=
  match ans.accepted with
  | none => .ok (s, [])
  | some connSocket =>
    if s.isOpen connSocket then .error .refused
    else do
      let m ← s.memory.new ans.ctx (.eventContext connSocket nullptr)
      let m ← onAccept ans.ctx ans.http ans.req ans.resp m
      let event : EpollEvent := ⟨true, false, ans.ctx⟩
      let s := { s with memory := m, isOpen := Function.update s.isOpen connSocket true }
      if ans.added then
        let registered := Function.update s.registered connSocket (some event)
        .ok ({ s with registered }, [.accepted connSocket true])
      else
        let (s, calls) ← s.closeAndRelease event
        .ok (s, .accepted connSocket false :: calls)

def handleReadableEvent (h : HttpEpollEventHandler) (ans : Answers) (event : EpollEvent)
    (s : Loop) : Except Stop (Loop × List Call) := do
  let (fd, _) ← eventContext s.memory event.data
  if ans.received.length > epollSocketReadBufferSize then .error .refused
  else if ans.received = [] then
    let (s, calls) ← s.closeAndRelease event
    .ok (s, .received fd [] :: calls)
  else
    let (status, m) ← onReadable h event.data ans.received s.memory
    let s := { s with memory := m }
    match status with
    | .readError | .readReachMaxSize =>
      let (s, calls) ← s.closeAndRelease event
      .ok (s, .received fd ans.received :: calls)
    | .readContinue =>
      let event := { event with epollIn := true, epollOut := false }
      .ok (s.modify fd event ans.modified, [.received fd ans.received])
    | .readOver =>
      let event := { event with epollIn := false, epollOut := true }
      .ok (s.modify fd event ans.modified, [.received fd ans.received])

def handleWriteableEvent (ans : Answers) (event : EpollEvent) (s : Loop) :
    Except Stop (Loop × List Call) := do
  let (fd, _) ← eventContext s.memory event.data
  let (status, socketFd, buffer, m) ← onWriteable event.data ans.nWrite ans.req ans.resp s.memory
  let s := { s with memory := m }
  match status with
  | .writeError | .writeOver =>
    let (s, calls) ← s.closeAndRelease event
    .ok (s, .sent socketFd buffer ans.nWrite :: calls)
  | .writeContinue =>
    let event := { event with epollIn := false, epollOut := true }
    .ok (s.modify fd event ans.modified, [.sent socketFd buffer ans.nWrite])
  | .writeAlive =>
    let event := { event with epollIn := true, epollOut := false }
    .ok (s.modify fd event ans.modified, [.sent socketFd buffer ans.nWrite])

def handleEvent (h : HttpEpollEventHandler) (listenSocketFd : Fd) (ans : Answers)
    (event : EpollEvent) (s : Loop) : Except Stop (Loop × List Call) :=
  if event.fd = listenSocketFd then s.handleAcceptEvent ans
  else if event.epollIn then s.handleReadableEvent h ans event
  else if event.epollOut then s.handleWriteableEvent ans event
  else .ok (s, []) -- only logged

/-- The events `epoll_wait` may return: each of a registered descriptor, with
flags that the kernel chooses. -/
def CanWait (maxEvents : Nat) (fds : List (Fd × Bool × Bool)) (s : Loop) : Prop :=
  s.events = [] ∧ fds.length ≤ maxEvents ∧ (fds.map Prod.fst).Nodup ∧
    ∀ x ∈ fds, (s.registered x.1).isSome

instance (maxEvents : Nat) (fds : List (Fd × Bool × Bool)) (s : Loop) :
    Decidable (s.CanWait maxEvents fds) :=
  haveI : Decidable (s.events = []) := decidable_of_iff _ List.isEmpty_iff
  haveI : Decidable (∀ x ∈ fds, (s.registered x.1).isSome) := List.decidableBAll _ fds
  inferInstanceAs (Decidable (_ ∧ _))

def wait (fds : List (Fd × Bool × Bool)) (s : Loop) : Loop :=
  { s with
    events := fds.filterMap fun (fd, epollIn, epollOut) =>
      (s.registered fd).map fun e => ⟨epollIn, epollOut, e.data⟩ }

/-- The objects that the loop reaches from the event of a descriptor. -/
def block (s : Loop) (fd : Fd) : Option Block := do
  let e ← s.registered fd
  let (_, http) ← (eventContext s.memory e.data).toOption
  let (_, req, resp) ← (httpContext s.memory http).toOption
  some ⟨e.data, http, req, resp⟩

def objects (s : Loop) (fd : Fd) : List Ptr := ((s.block fd).map Block.ptrs).getD []

def context (s : Loop) (fd : Fd) : Option HttpContext := do
  let b ← s.block fd
  let req ← (request s.memory b.req).toOption
  let resp ← (response s.memory b.resp).toOption
  some ⟨req, resp⟩

end Loop

inductive LoopAct
  | wait (fds : List (Fd × Bool × Bool))
  | handle (ans : Answers)

inductive LoopState
  | running (s : Loop)
  | undefined

def LoopState.step (h : HttpEpollEventHandler) (listenSocketFd : Fd) (maxEvents : Nat) :
    LoopState → LoopAct → Option (LoopState × List Call)
  | .running s, .wait fds =>
    if s.CanWait maxEvents fds then some (.running (s.wait fds), []) else none
  | .running s, .handle ans =>
    match s.events with
    | [] => none
    | event :: events =>
      match Loop.handleEvent h listenSocketFd ans event { s with events } with
      | .ok (s, calls) => some (.running s, calls)
      | .error .refused => none
      | .error .undefined => some (.undefined, [])
  | .undefined, _ => none

def LoopState.machine (h : HttpEpollEventHandler) (listenSocketFd : Fd) (maxEvents : Nat) :
    Machine LoopState LoopAct Call :=
  ⟨LoopState.step h listenSocketFd maxEvents⟩

end CppUtil.HttpServer

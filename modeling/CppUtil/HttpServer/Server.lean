import CppUtil.HttpServer.Response

/-!
# `HttpEpollEventHandler` and `EpollSocket`

What the server does with one connection. The kernel and the peer decide what
`recv` returns and how much `send` takes; they are inputs. File descriptors and
the memory of contexts are left out.
-/

namespace CppUtil.HttpServer

open Lang (Str)

def epollSocketReadBufferSize : Nat := 4096

def epollSocketWriteBufferSize : Nat := 4096

structure HttpContext where
  req : HttpRequest := {}
  resp : HttpResponse := {}

def HttpContext.clear (_ : HttpContext) : HttpContext := {}

abbrev HttpHandler := RequestFields × ResponseFields → RequestFields × ResponseFields

structure HttpEpollEventHandler where
  uri2handler : Std.ExtTreeMap Str HttpHandler

namespace HttpEpollEventHandler

/-- `handle_http_request`. A method that is not allowed is noted, but its
handler still runs. -/
def handleHttpRequest (h : HttpEpollEventHandler) (c : HttpContext) : HttpContext :=
  match h.uri2handler[c.req.uri]? with
  | none =>
    { c with resp := { c.resp with statusLine := statusNotFound, body := statusNotFound.msg } }
  | some handler =>
    let resp := if c.req.method ≠ post ∧ c.req.method ≠ get then
      { c.resp with statusLine := statusMethodNotAllowed, body := statusMethodNotAllowed.msg }
      else c.resp
    let (req', resp') := handler (c.req.toRequestFields, resp.toResponseFields)
    { req := { c.req with toRequestFields := req' }, resp := { resp with toResponseFields := resp' } }

/-- `OnReadable`, and the requests it calls `handle_http_request` for: their fields at
the call. -/
def onReadableCalls (h : HttpEpollEventHandler) (readBuffer : Str) (c : HttpContext) :
    ReadStatus × HttpContext × List RequestFields :=
  let (status, req) := c.req.onReadable readBuffer
  let c := { c with req }
  if status ≠ .readOver then (status, c, [])
  else (.readOver, h.handleHttpRequest c, [c.req.toRequestFields])

def onReadable (h : HttpEpollEventHandler) (readBuffer : Str) (c : HttpContext) :
    ReadStatus × HttpContext :=
  let (status, c, _) := h.onReadableCalls readBuffer c
  (status, c)

end HttpEpollEventHandler

namespace HttpContext

/-- `req->headers["Connection"] == "keep-alive"`. The lookup adds the header,
empty, to a request without it. -/
def isKeepalive (c : HttpContext) : Bool × HttpContext :=
  let name := "Connection".toList
  let headers := c.req.headers.insertIfNew name []
  (headers[name]? = some "keep-alive".toList, { c with req := { c.req with headers } })

def exported (c : HttpContext) : Bool × HttpContext :=
  let (keepalive, c) := c.isKeepalive
  -- only the first call of `OnWriteable` exports
  if !c.resp.isWritted then
    let resp := c.resp.exportBuffer2Response c.req.httpVersion keepalive
    (keepalive, { c with resp := { resp with isWritted := true } })
  else (keepalive, c)

/-- What `OnWriteable` does up to the call of `send`. -/
def toSend (c : HttpContext) : WriteStatus × Str × HttpContext :=
  let (keepalive, c) := c.exported
  let (status, buffer, resp) := c.resp.onWriteable keepalive epollSocketWriteBufferSize
  (status, buffer, { c with resp })

/-- The `Rollback` of `OnWriteable`: what was read from the response and not taken by
`send` is put back. -/
def rolledBack (nWrite : Int) (c : HttpContext) : HttpContext :=
  let (_, buffer, c) := c.toSend
  if nWrite < buffer.length then { c with resp := c.resp.rollback (buffer.length - nWrite) } else c

def onWriteable (nWrite : Int) (c : HttpContext) : WriteStatus × HttpContext :=
  let (status, _, sent) := c.toSend
  if nWrite < 0 then (.writeError, sent)
  else
    let c := c.rolledBack nWrite
    if status = .writeAlive ∧ nWrite > 0 then (status, c.clear) else (status, c)

end HttpContext

-- ---------------------------------------------------------------------------
-- A connection
-- ---------------------------------------------------------------------------

inductive Interest
  | epollIn
  | epollOut
  deriving DecidableEq, Repr

structure Connection where
  ctx : HttpContext := {}
  interest : Interest := .epollIn
  closed : Bool := false
  /-- The calls of `handle_http_request` so far. -/
  handled : List RequestFields := []

def Connection.handleReadableEvent (h : HttpEpollEventHandler) (readBuffer : Str)
    (conn : Connection) : Connection :=
  if readBuffer = [] then { conn with closed := true }
  else
    let (status, ctx, calls) := h.onReadableCalls readBuffer conn.ctx
    let conn := { conn with ctx, handled := conn.handled ++ calls }
    match status with
    | .readError | .readReachMaxSize => { conn with closed := true }
    | .readContinue => { conn with interest := .epollIn }
    | .readOver => { conn with interest := .epollOut }

def Connection.handleWriteableEvent (nWrite : Int) (conn : Connection) : Connection :=
  let (status, ctx) := conn.ctx.onWriteable nWrite
  match status with
  | .writeError | .writeOver => { conn with ctx, closed := true }
  | .writeContinue => { conn with ctx, interest := .epollOut }
  | .writeAlive => { conn with ctx, interest := .epollIn }

namespace Connection

variable {h : HttpEpollEventHandler} {conn : Connection}

theorem handleReadableEvent_ctx (hbytes : bytes ≠ []) :
    (conn.handleReadableEvent h bytes).ctx = (h.onReadable bytes conn.ctx).2 := by
  rw [handleReadableEvent, if_neg hbytes, HttpEpollEventHandler.onReadable]
  rcases h.onReadableCalls bytes conn.ctx with ⟨status, ctx, calls⟩
  cases status <;> rfl

theorem handleReadableEvent_closed (hbytes : bytes ≠ []) (hopen : conn.closed = false) :
    (conn.handleReadableEvent h bytes).closed = true ↔
      (h.onReadable bytes conn.ctx).1 = .readError ∨
      (h.onReadable bytes conn.ctx).1 = .readReachMaxSize := by
  simp only [handleReadableEvent, if_neg hbytes, HttpEpollEventHandler.onReadable]
  rcases h.onReadableCalls bytes conn.ctx with ⟨status, ctx, calls⟩
  cases status <;> simp [hopen]

theorem handleWriteableEvent_ctx :
    (conn.handleWriteableEvent n).ctx = (conn.ctx.onWriteable n).2 := by
  rw [handleWriteableEvent]
  rcases conn.ctx.onWriteable n with ⟨status, ctx⟩
  cases status <;> rfl

theorem handleWriteableEvent_closed (hopen : conn.closed = false) :
    (conn.handleWriteableEvent n).closed = true ↔
      (conn.ctx.onWriteable n).1 = .writeError ∨ (conn.ctx.onWriteable n).1 = .writeOver := by
  simp only [handleWriteableEvent]
  rcases conn.ctx.onWriteable n with ⟨status, ctx⟩
  cases status <;> simp [hopen]

end Connection

end CppUtil.HttpServer

import CppUtil.HttpServer.Request

/-!
# `HttpResponse`

A response is exported once to a string stream and then read from it in
chunks. What a send does not take is rolled back.
-/

namespace CppUtil.HttpServer

open Lang (Str StringStream wrapInt stdToString)

inductive WriteStatus
  | writeError
  | writeOver
  | writeAlive
  | writeContinue
  deriving DecidableEq, Repr

structure StatusLine where
  stautsCode : Int
  msg : Str
  deriving DecidableEq, Repr

def statusOk : StatusLine := ⟨200, "OK".toList⟩

def statusNotFound : StatusLine := ⟨404, "Not Found".toList⟩

def statusMethodNotAllowed : StatusLine := ⟨405, "Method Not Allowed".toList⟩

structure ResponseFields where
  statusLine : StatusLine := statusOk
  headers : Params := ∅
  body : Str := []
  isWritted : Bool := false

structure HttpResponse extends ResponseFields where
  respBuff : StringStream := .ofString []

def crlf : Str := "\r\n".toList

def ResponseFields.text (f : ResponseFields) (httpVersion : Str) (isKeepalive : Bool) : Str :=
  httpVersion ++ " ".toList ++ stdToString f.statusLine.stautsCode ++ " ".toList ++
    f.statusLine.msg ++ crlf ++
  "Server: http_server/0.1".toList ++ crlf ++
  (if f.headers.contains "Content-Type".toList then []
    else "Content-Type: application/json; charset=UTF-8".toList ++ crlf) ++
  "Content-Length: ".toList ++ stdToString f.body.length ++ crlf ++
  (if isKeepalive then "COnnection: Keep-Alive".toList else "Connection: close".toList) ++ crlf ++
  (f.headers.toList.map fun (name, value) => name ++ ": ".toList ++ value ++ crlf).flatten ++
  crlf ++ f.body

namespace HttpResponse

def exportBuffer2Response (httpVersion : Str) (isKeepalive : Bool) (r : HttpResponse) :
    HttpResponse :=
  { r with respBuff := r.respBuff.write (r.text httpVersion isKeepalive) }

def onWriteable (isKeepalive : Bool) (bufferSize : Nat) (r : HttpResponse) :
    WriteStatus × Str × HttpResponse :=
  let (buffer, respBuff) := r.respBuff.read bufferSize
  let status := if !respBuff.eof then WriteStatus.writeContinue
    else if isKeepalive then .writeAlive else .writeOver
  (status, buffer, { r with respBuff })

/-- The position is computed in the type `int`. -/
def rollback (size : Int) (r : HttpResponse) : HttpResponse :=
  let ss := if r.respBuff.eof then r.respBuff.clear else r.respBuff
  let (pos, ss) := ss.tellg
  { r with respBuff := ss.seekg (wrapInt (wrapInt pos - size)) }

end HttpResponse

end CppUtil.HttpServer

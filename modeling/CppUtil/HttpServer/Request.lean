import CppUtil.Util.StringUtil
import Mathlib.Data.List.Basic

/-!
# `HttpRequest`

The parser of http requests. Received bytes are collected in a string stream;
once they end with an empty line the whole stream is parsed line by line.
Log output is left out.
-/

namespace CppUtil.HttpServer

open Lang (Str StringStream wrapInt)

abbrev Params := Std.ExtTreeMap Str Str

inductive ReadStatus
  | readError
  | readOver
  | readContinue
  | readReachMaxSize
  deriving DecidableEq, Repr

inductive ParsePhase
  | parseReqLine
  | parseReqHead
  | parseReqBody
  | parseReqOver
  deriving DecidableEq, Repr

structure RequestFields where
  method : Str := []
  url : Str := []
  uri : Str := []
  httpVersion : Str := []
  headers : Params := ∅
  urlParams : Params := ∅
  bodyParams : Params := ∅
  parsePart : ParsePhase := .parseReqLine

structure HttpRequest extends RequestFields where
  reqBuff : StringStream := .ofString []
  /-- An `int`. -/
  totalReqSize : Int := 0

def maxRequestSize : Int := 1024 * 1024 * 10

def get : Str := "GET".toList

def post : Str := "POST".toList

def crlfcrlf : Str := "\r\n\r\n".toList

-- ---------------------------------------------------------------------------
-- Parameters
-- ---------------------------------------------------------------------------

/-- The inner loop of `parse_url_params` and `parse_body`, which differ in how
a pair is put into the map. Every round reads at least one character or ends
the stream. -/
def kvLoop (put : Params → Str → Str → Params) : (fuel : Nat) → StringStream → Params → Params
  | 0, _, params => params
  | fuel + 1, kvSs, params =>
    if kvSs.good then
      let (key, kvSs) := kvSs.getline '=' []
      let (value, kvSs) := kvSs.getline '=' []
      kvLoop put fuel kvSs (put params key value)
    else params

def formLoop (put : Params → Str → Str → Params) : (fuel : Nat) → StringStream → Params → Params
  | 0, _, params => params
  | fuel + 1, ss, params =>
    if ss.good then
      let (kv, ss) := ss.getline '&' []
      formLoop put fuel ss (kvLoop put (kv.length + 1) (.ofString kv) params)
    else params

def parseForm (put : Params → Str → Str → Params) (text : Str) (params : Params) : Params :=
  formLoop put (text.length + 1) (.ofString text) params

def parseUrlParams (r : RequestFields) : RequestFields :=
  let ss := StringStream.ofString r.url
  let (uri, ss) := ss.getline '?' r.uri
  if ss.good then
    let (queryUrl, _) := ss.getline '?' []
    { r with uri, urlParams := parseForm Std.ExtTreeMap.insert queryUrl r.urlParams }
  else { r with uri }

/-- `insert` keeps the value a key already has, where `operator[]` replaces it. -/
def parseBody (body : Str) (r : RequestFields) : RequestFields :=
  { r with bodyParams := parseForm Std.ExtTreeMap.insertIfNew body r.bodyParams }

-- ---------------------------------------------------------------------------
-- Lines
-- ---------------------------------------------------------------------------

/-- `false` where the source returns -1. -/
def parseRequestLine (line : Str) (r : RequestFields) : Bool × RequestFields :=
  let ss := StringStream.ofString line
  let (method, ss) := ss.getline ' ' r.method
  let r := { r with method }
  if !ss.good then (false, r)
  else
    let (url, ss) := ss.getline ' ' r.url
    let r := { r with url }
    if !ss.good then (false, r)
    else
      let r := parseUrlParams r
      let (httpVersion, _) := ss.getline ' ' r.httpVersion
      (true, { r with httpVersion })

/-- A header line. One without a colon is skipped. -/
def addHeader (line : Str) (headers : Params) : Params :=
  match Util.stringSplit line ':' [] with
  | name :: value :: _ => headers.insert name value
  | _ => headers

inductive Flow
  | next
  | leave
  | readError
  deriving DecidableEq, Repr

def onLine (line : Str) (r : RequestFields) : Flow × RequestFields :=
  if line = "\r".toList then
    -- The source distinguishes POST from the rest here, to the same effect.
    (.next, { r with parsePart := .parseReqOver })
  else if r.parsePart = .parseReqLine then
    let (ok, r) := parseRequestLine line r
    if !ok then (.readError, r)
    else if r.method ≠ post ∧ r.method ≠ get then (.readError, r)
    else (.next, { r with parsePart := .parseReqHead })
  else if r.parsePart = .parseReqHead ∧ line ≠ [] then
    (.next, { r with headers := addHeader line r.headers })
  else if r.parsePart = .parseReqBody ∧ line ≠ [] then
    let r := parseBody line r
    (.leave, { r with parsePart := .parseReqOver })
  else (.next, r)

def lineLoop : (fuel : Nat) → HttpRequest → Option ReadStatus × HttpRequest
  | 0, r => (none, r)
  | fuel + 1, r =>
    if r.reqBuff.good then
      let (line, reqBuff) := r.reqBuff.getline '\n' []
      match onLine line r.toRequestFields with
      | (.next, fields) => lineLoop fuel { r with toRequestFields := fields, reqBuff }
      | (.leave, fields) => (none, { r with toRequestFields := fields, reqBuff })
      | (.readError, fields) => (some .readError, { r with toRequestFields := fields, reqBuff })
    else (none, r)

/-- Whether the last four characters are the end of a request. If they are the
stream is set back to its start. -/
def isReadOver (ss : StringStream) : Bool × StringStream :=
  let ss := ss.seekgEnd (-4)
  let (buff, ss) := ss.readsome 4
  if buff ≠ crlfcrlf then (false, ss) else (true, ss.seekg 0)

def HttpRequest.onReadable (readBuffer : Str) (r : HttpRequest) : ReadStatus × HttpRequest :=
  let r := { r with totalReqSize := wrapInt (r.totalReqSize + readBuffer.length) }
  if r.totalReqSize > maxRequestSize then (.readReachMaxSize, r)
  else
    let r := { r with reqBuff := r.reqBuff.write readBuffer }
    if r.totalReqSize < 4 then (.readContinue, r)
    else
      let (readOver, reqBuff) := isReadOver r.reqBuff
      let r := { r with reqBuff }
      if !readOver then (.readContinue, r)
      else
        match lineLoop (r.reqBuff.rest.length + 1) r with
        | (some status, r) => (status, r)
        | (none, r) => if r.parsePart ≠ .parseReqOver then (.readContinue, r) else (.readOver, r)

end CppUtil.HttpServer

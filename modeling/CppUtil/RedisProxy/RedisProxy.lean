import CppUtil.Lang.CString

/-!
# `RedisProxy`

What hiredis is asked for here: a context holds the replies that have not been
read yet, in the order of their commands; a blocking command appends one
command and reads one reply; `redisFree` drops the context with all its
replies. The server answers a command when it is appended. Every call of
hiredis may fail, and then the server is in any state.

The operations pass the state along. A command carries the number of the
operation it belongs to and its place in it; no operation looks at them.
-/

namespace CppUtil.RedisProxy

open Lang

-- ---------------------------------------------------------------------------
-- hiredis
-- ---------------------------------------------------------------------------

/-- `redisReply`, by its type. `str` may be null where the type is none of the
others. -/
inductive RedisReply
  | string (str : Str)
  | array (elements : List RedisReply)
  | integer (n : Int64)
  | nil
  | status (str : Str)
  | error (str : Str)
  | other (type : Int) (str : Option Str)

/-- The `len` characters at `str`; a null `str` has none. -/
def RedisReply.chars : RedisReply → Str
  | .string str | .status str | .error str => str
  | .other _ str => str.getD []
  | .array _ | .integer _ | .nil => []

structure Exchange where
  op : Nat
  index : Nat
  args : List Str
  reply : RedisReply

structure Context where
  replies : List Exchange
  err : Bool

inductive Outcome (σ : Type)
  | ok
  | null (server : σ)
  | error (server : σ)

structure Hiredis (σ : Type) where
  /-- What the server does with a command. -/
  process : σ → List Str → σ × RedisReply
  /-- What becomes of the n-th call. -/
  outcome : Nat → Outcome σ

structure World (σ : Type) where
  server : σ
  ctx_ : Option Context
  /-- The number of calls so far. -/
  calls : Nat
  /-- The number of the operation. -/
  op : Nat
  /-- The commands the server has answered. -/
  log : List Exchange

variable {σ : Type} (redis : Hiredis σ)

def call (w : World σ) : Outcome σ × World σ :=
  let w := { w with calls := w.calls + 1 }
  match redis.outcome (w.calls - 1) with
  | .ok => (.ok, w)
  | .null server => (.null server, { w with server })
  | .error server => (.error server, { w with server })

def redisConnectWithTimeout (w : World σ) : World σ :=
  match call redis w with
  | (.ok, w) => { w with ctx_ := some ⟨[], false⟩ }
  | (.null _, w) => { w with ctx_ := none }
  | (.error _, w) => { w with ctx_ := some ⟨[], true⟩ }

def redisSetTimeout (w : World σ) : Bool × World σ :=
  -- whether 0 is returned, here and below
  match call redis w with
  | (.ok, w) => (true, w)
  | (_, w) => (false, w)

def redisFree (w : World σ) : World σ := { w with ctx_ := none }

def redisAppendCommand (index : Nat) (args : List Str) (w : World σ) : Bool × World σ :=
  match call redis w with
  | (.ok, w) =>
    match w.ctx_ with
    | some ctx =>
      let (server, reply) := redis.process w.server args
      let x : Exchange := { op := w.op, index, args, reply }
      (true, { w with
        server, ctx_ := some { ctx with replies := ctx.replies ++ [x] }, log := w.log ++ [x] })
    | none => (false, w)
  | (_, w) => (false, w)

/-- Whether 0 is returned, and the reply, which an error leaves as it was. -/
def redisGetReply (reply : Option RedisReply) (w : World σ) :
    Bool × Option RedisReply × World σ :=
  match call redis w with
  | (.ok, w) =>
    match w.ctx_ with
    | some ⟨x :: xs, err⟩ => (true, some x.reply, { w with ctx_ := some ⟨xs, err⟩ })
    | _ => (false, reply, w)
  | (.null _, w) => (true, none, w)
  | (.error _, w) => (false, reply, w)

def redisCommand (args : List Str) (w : World σ) : Option RedisReply × World σ :=
  match redisAppendCommand redis 0 args w with
  | (true, w) =>
    match redisGetReply redis none w with
    | (true, reply, w) => (reply, w)
    | (false, _, w) => (none, w)
  | (false, w) => (none, w)

-- ---------------------------------------------------------------------------
-- Commands and responses
-- ---------------------------------------------------------------------------

structure RedisCommand where
  argv : List Str

namespace RedisCommand

def append (cmd : RedisCommand) (val : Str) : RedisCommand where
  argv := cmd.argv ++ [strncpy val val.length ++ [nul]]

def appendAll (cmd : RedisCommand) (vals : List Str) : RedisCommand := vals.foldl append cmd

/-- What hiredis sends without `argvlen`: it takes each length by `strlen`. -/
def args (cmd : RedisCommand) : List Str := cmd.argv.map cString

end RedisCommand

inductive ReturnCode
  | replyUnknown
  | replyError
  | connectionRefused
  | replyString
  | replyArray
  | replyInteger
  | replyNil
  | replyStatus
  deriving DecidableEq

structure Response where
  retCode : ReturnCode
  str : Str := []
  integer : Int64 := 0
  array : List Str := []
  deriving DecidableEq

def RedisReply.toResponse : RedisReply → Response
  | .string str => { retCode := .replyString, str := cString str }
  | .array elements => { retCode := .replyArray, array := elements.map chars }
  | .integer n => { retCode := .replyInteger, integer := n }
  | .nil => { retCode := .replyNil }
  | .status str => { retCode := .replyStatus, str := cString str }
  | .error str => { retCode := .replyError, str := cString str }
  | .other _ none => { retCode := .replyUnknown, str := "nullptr".toList }
  | .other _ (some str) => { retCode := .replyUnknown, str := cString str }

-- ---------------------------------------------------------------------------
-- The operations
-- ---------------------------------------------------------------------------

def close (w : World σ) : World σ := if w.ctx_.isSome then redisFree w else w

def connect (w : World σ) : Bool × World σ :=
  match w.ctx_ with
  | some _ => (true, w)
  | none =>
    let w := redisConnectWithTimeout redis w
    match w.ctx_ with
    | none | some ⟨_, true⟩ => (false, close w)
    | some ⟨_, false⟩ =>
      match redisSetTimeout redis w with
      | (true, w) => (true, w)
      | (false, w) => (false, close w)

def parseRedisReply (reply : Option RedisReply) (w : World σ) : Response × World σ :=
  match reply with
  | none => ({ retCode := .connectionRefused }, close w)
  | some reply => (reply.toResponse, w)

def executeArgs (args : List Str) (w : World σ) : Response × World σ :=
  match connect redis w with
  | (false, w) => ({ retCode := .connectionRefused }, w)
  | (true, w) =>
    let (reply, w) := redisCommand redis args w
    parseRedisReply reply w

/-- `Execute`, where `args` is what hiredis makes of the format and its
arguments. -/
def executeFormat (args : List Str) (w : World σ) : Response × World σ := executeArgs redis args w

def execute (cmd : RedisCommand) (w : World σ) : Response × World σ :=
  executeArgs redis cmd.args w

/-- A number among the arguments is appended by `std::to_string`. -/
def executeArgv (vals : List Str) (w : World σ) : Response × World σ :=
  execute redis (.appendAll ⟨[]⟩ vals) w

def appendLoop (i : Nat) : List RedisCommand → World σ → Bool × World σ
  | [], w => (true, w)
  | cmd :: cmds, w =>
    match redisAppendCommand redis i cmd.args w with
    | (true, w) => appendLoop (i + 1) cmds w
    | (false, w) => (false, close w)

/-- The second loop, with the number of rounds that are left; `redisReply` is
what the last round has left in the variable. -/
def replyLoop (redisReply : Option RedisReply) :
    Nat → World σ → Bool × List Response × World σ
  | 0, w => (true, [], w)
  | n + 1, w =>
    match redisGetReply redis redisReply w with
    | (true, some reply, w) =>
      let (resp, w) := parseRedisReply (some reply) w
      let (ok, resps, w) := replyLoop (some reply) n w
      (ok, resp :: resps, w)
    | (_, _, w) => (false, [], close w)

def pipeExecute (cmds : List RedisCommand) (w : World σ) : Bool × List Response × World σ :=
  match connect redis w with
  | (false, w) => (false, [], w)
  | (true, w) =>
    match appendLoop redis 0 cmds w with
    | (false, w) => (false, [], w)
    | (true, w) => replyLoop redis none cmds.length w

def Response.isOk (resp : Response) : Bool := resp.retCode = .replyStatus && resp.str = "OK".toList

def Response.value (resp : Response) : Option Str :=
  if resp.retCode = .replyString then some resp.str else none

def set (key value : Str) (expireTimeSec : UInt32) (w : World σ) : Bool × World σ :=
  let (resp, w) :=
    if expireTimeSec > 0 then
      executeArgv redis
        ["set".toList, key, value, "ex".toList, stdToString expireTimeSec.toNat] w
    else executeArgv redis ["set".toList, key, value] w
  (resp.isOk, w)

def get (key : Str) (w : World σ) : Option Str × World σ :=
  let (resp, w) := executeArgv redis ["get".toList, key] w
  (resp.value, w)

def setCommand (key value : Str) (expireTimeSec : UInt32) : RedisCommand :=
  let cmd := ((RedisCommand.append ⟨[]⟩ "set".toList).append key).append value
  if expireTimeSec > 0 then (cmd.append "ex".toList).append (stdToString expireTimeSec.toNat)
  else cmd

def getCommand (key : Str) : RedisCommand := (RedisCommand.append ⟨[]⟩ "get".toList).append key

def pipeSet (keys values : List Str) (expireTimeSecs : List UInt32) (w : World σ) :
    Bool × World σ :=
  if keys.length ≠ values.length ∨ values.length ≠ expireTimeSecs.length then (false, w)
  else
    let cmds := (keys.zip (values.zip expireTimeSecs)).map fun (key, value, expireTimeSec) =>
      setCommand key value expireTimeSec
    match pipeExecute redis cmds w with
    | (false, _, w) => (false, w)
    | (true, resps, w) => (resps.all Response.isOk, w)

def pipeGet (keys : List Str) (w : World σ) : Bool × List (Bool × Str) × World σ :=
  match pipeExecute redis (keys.map getCommand) w with
  | (false, _, w) => (false, [], w)
  | (true, resps, w) =>
    (true, resps.map fun resp => (resp.value.isSome, resp.value.getD []), w)

end CppUtil.RedisProxy

import CppUtil.Lang.NewDelete
import CppUtil.RedisProxy.Replies

/-!
# `RedisProxy` and its objects in memory

The context, the replies and the arguments of commands are objects that the
proxy or hiredis make and that have to be freed by hand: the context by `close`,
a reply by the destructor of its `RedisCommand`, or where it was read if there is
none, the arguments by that destructor.

What hiredis computes is as in `CppUtil.RedisProxy.RedisProxy`; here it gets the
context by its address and returns the address of a reply. `alloc n` is the
address that the n-th allocation gets.
-/

namespace CppUtil.RedisProxy

open Lang

inductive Object
  | context (ctx : Context)
  /-- With its elements, which are made and freed with it. -/
  | reply (reply : RedisReply)
  | chars (text : Str)

/-- A proxy. `world` has all but the context, which is in the memory at `ctx_`. -/
structure Heap (σ : Type) where
  memory : Memory Object
  news : Nat
  ctx_ : Ptr
  world : World σ

def context (m : Memory Object) (p : Ptr) : Except Stop Context := do
  match ← m.load p with
  | .context ctx => .ok ctx
  | _ => .error .undefined

def reply (m : Memory Object) (p : Ptr) : Except Stop RedisReply := do
  match ← m.load p with
  | .reply r => .ok r
  | _ => .error .undefined

/-- `strlen` of the argument and its characters. -/
def chars (m : Memory Object) (p : Ptr) : Except Stop Str := do
  match ← m.load p with
  | .chars text => .ok (cString text)
  | _ => .error .undefined

namespace Heap

variable {σ : Type} (redis : Hiredis σ) (alloc : Nat → Ptr)

def new (o : Object) (h : Heap σ) : Except Stop (Ptr × Heap σ) := do
  let memory ← h.memory.new (alloc h.news) o
  .ok (alloc h.news, { h with memory, news := h.news + 1 })

def delete (p : Ptr) (h : Heap σ) : Except Stop (Heap σ) := do
  let memory ← h.memory.delete p
  .ok { h with memory }

-- ---------------------------------------------------------------------------
-- hiredis
-- ---------------------------------------------------------------------------

def onContext (p : Ptr) (f : World σ → α × World σ) (h : Heap σ) : Except Stop (α × Heap σ) := do
  let ctx ← context h.memory p
  let (a, w) := f { h.world with ctx_ := some ctx }
  let memory ← h.memory.store p (.context (w.ctx_.getD ctx))
  .ok (a, { h with memory, world := { w with ctx_ := none } })

def newReply (r : Option RedisReply) (h : Heap σ) : Except Stop (Ptr × Heap σ) :=
  match r with
  | none => .ok (nullptr, h)
  | some r => h.new alloc (.reply r)

def redisConnectWithTimeout (h : Heap σ) : Except Stop (Ptr × Heap σ) := do
  let w := RedisProxy.redisConnectWithTimeout redis h.world
  let h := { h with world := { w with ctx_ := none } }
  match w.ctx_ with
  | none => .ok (nullptr, h)
  | some ctx => h.new alloc (.context ctx)

def redisSetTimeout (p : Ptr) (h : Heap σ) : Except Stop (Bool × Heap σ) :=
  h.onContext p (RedisProxy.redisSetTimeout redis)

def redisFree (p : Ptr) (h : Heap σ) : Except Stop (Heap σ) := do
  let _ ← context h.memory p
  h.delete p

def redisAppendCommandArgv (p : Ptr) (index : Nat) (argv : List Ptr) (h : Heap σ) :
    Except Stop (Bool × Heap σ) := do
  let args ← argv.mapM (chars h.memory)
  h.onContext p (redisAppendCommand redis index args)

/-- An error leaves the variable for the reply as it is. -/
def redisGetReply (p redisReply : Ptr) (h : Heap σ) : Except Stop (Bool × Ptr × Heap σ) := do
  let ((ok, r), h) ← h.onContext p fun w =>
    let (ok, r, w) := RedisProxy.redisGetReply redis none w
    ((ok, r), w)
  if ok then
    let (q, h) ← h.newReply alloc r
    .ok (true, q, h)
  else .ok (false, redisReply, h)

def redisvCommand (p : Ptr) (args : List Str) (h : Heap σ) : Except Stop (Ptr × Heap σ) := do
  let (r, h) ← h.onContext p (redisCommand redis args)
  h.newReply alloc r

def redisCommandArgv (p : Ptr) (argv : List Ptr) (h : Heap σ) : Except Stop (Ptr × Heap σ) := do
  let args ← argv.mapM (chars h.memory)
  h.redisvCommand redis alloc p args

def freeReplyObject (p : Ptr) (h : Heap σ) : Except Stop (Heap σ) := do
  let _ ← reply h.memory p
  h.delete p

def freeIfSet (p : Ptr) (h : Heap σ) : Except Stop (Heap σ) :=
  if p ≠ nullptr then h.freeReplyObject p else .ok h

-- ---------------------------------------------------------------------------
-- `RedisCommand`
-- ---------------------------------------------------------------------------

structure Command where
  argv : List Ptr := []
  buffs : List Ptr := []
  reply : Ptr := nullptr

def push (buffer : Str) (cmd : Command) (h : Heap σ) : Except Stop (Command × Heap σ) := do
  let (p, h) ← h.new alloc (.chars buffer)
  .ok ({ cmd with argv := cmd.argv ++ [p], buffs := cmd.buffs ++ [p] }, h)

def pushAll : List Str → Command → Heap σ → Except Stop (Command × Heap σ)
  | [], cmd, h => .ok (cmd, h)
  | buffer :: buffers, cmd, h => do
    let (cmd, h) ← h.push alloc buffer cmd
    pushAll buffers cmd h

def command (cmd : RedisCommand) (h : Heap σ) : Except Stop (Command × Heap σ) :=
  h.pushAll alloc cmd.argv {}

def commands : List RedisCommand → Heap σ → Except Stop (List Command × Heap σ)
  | [], h => .ok ([], h)
  | cmd :: cmds, h => do
    let (cmd, h) ← h.command alloc cmd
    let (cmds, h) ← commands cmds h
    .ok (cmd :: cmds, h)

def deleteAll : List Ptr → Heap σ → Except Stop (Heap σ)
  | [], h => .ok h
  | p :: ps, h => do
    let h ← h.delete p
    deleteAll ps h

def destroy (cmd : Command) (h : Heap σ) : Except Stop (Heap σ) := do
  let h ← h.freeIfSet cmd.reply
  h.deleteAll cmd.buffs

def destroyAll : List Command → Heap σ → Except Stop (Heap σ)
  | [], h => .ok h
  | cmd :: cmds, h => do
    let h ← h.destroy cmd
    destroyAll cmds h

-- ---------------------------------------------------------------------------
-- `RedisProxy`
-- ---------------------------------------------------------------------------

def getErrMsg (h : Heap σ) : Except Stop Unit :=
  -- the text is only logged
  if h.ctx_ = nullptr then .ok () else (context h.memory h.ctx_).map fun _ => ()

def close (h : Heap σ) : Except Stop (Heap σ) :=
  if h.ctx_ ≠ nullptr then do
    let h ← h.redisFree h.ctx_
    .ok { h with ctx_ := nullptr }
  else .ok h

def connect (h : Heap σ) : Except Stop (Bool × Heap σ) := do
  if h.ctx_ ≠ nullptr then .ok (true, h)
  else
    let (p, h) ← h.redisConnectWithTimeout redis alloc
    let h := { h with ctx_ := p }
    let failed ← if p = nullptr then .ok true else (context h.memory p).map Context.err
    if failed then
      h.getErrMsg
      let h ← h.close
      .ok (false, h)
    else
      let (ok, h) ← h.redisSetTimeout redis p
      if ok then .ok (true, h)
      else
        h.getErrMsg
        let h ← h.close
        .ok (false, h)

def parseRedisReply (p : Ptr) (h : Heap σ) : Except Stop (Response × Heap σ) := do
  if p = nullptr then
    h.getErrMsg
    let h ← h.close
    .ok ({ retCode := .connectionRefused }, h)
  else
    match ← reply h.memory p with
    | .error str =>
      h.getErrMsg
      .ok ((RedisReply.error str).toResponse, h)
    | r => .ok (r.toResponse, h)

def getCmdStr (cmd : Command) (h : Heap σ) : Except Stop Unit :=
  (cmd.argv.mapM (chars h.memory)).map fun _ => ()

def execute (cmd : Command) (h : Heap σ) : Except Stop (Response × Command × Heap σ) := do
  let (ok, h) ← h.connect redis alloc
  if ok then
    let (q, h) ← h.redisCommandArgv redis alloc h.ctx_ cmd.argv
    h.getCmdStr cmd
    let (resp, h) ← h.parseRedisReply q
    .ok (resp, { cmd with reply := q }, h)
  else .ok ({ retCode := .connectionRefused }, cmd, h)

def executeArgv (vals : List Str) (h : Heap σ) : Except Stop (Response × Heap σ) := do
  let (rc, h) ← h.command alloc (.appendAll ⟨[]⟩ vals)
  let (resp, rc, h) ← h.execute redis alloc rc
  let h ← h.destroy rc
  .ok (resp, h)

def executeFormat (args : List Str) (h : Heap σ) : Except Stop (Response × Heap σ) := do
  let (ok, h) ← h.connect redis alloc
  if ok then
    let (q, h) ← h.redisvCommand redis alloc h.ctx_ args
    let (resp, h) ← h.parseRedisReply q
    let h ← h.freeIfSet q
    .ok (resp, h)
  else .ok ({ retCode := .connectionRefused }, h)

def appendLoop (i : Nat) : List Command → Heap σ → Except Stop (Bool × Heap σ)
  | [], h => .ok (true, h)
  | cmd :: cmds, h => do
    let (ok, h) ← h.redisAppendCommandArgv redis h.ctx_ i cmd.argv
    if ok then appendLoop (i + 1) cmds h
    else
      h.getCmdStr cmd
      let h ← h.close
      .ok (false, h)

/-- `redisReply` is not set to null after the reply was freed. -/
def replyLoop (redisReply : Ptr) :
    List Command → Heap σ → Except Stop (Bool × List Response × Heap σ)
  | [], h => .ok (true, [], h)
  | cmd :: cmds, h => do
    let (ok, q, h) ← h.redisGetReply redis alloc h.ctx_ redisReply
    if q = nullptr ∨ !ok then
      let h ← h.close
      .ok (false, [], h)
    else
      h.getCmdStr cmd
      let (resp, h) ← h.parseRedisReply q
      let h ← h.freeReplyObject q
      let (done, resps, h) ← replyLoop q cmds h
      .ok (done, resp :: resps, h)

def pipeExecute (cmds : List Command) (h : Heap σ) : Except Stop (Bool × List Response × Heap σ) := do
  let (ok, h) ← h.connect redis alloc
  if ok then
    let (ok, h) ← h.appendLoop redis 0 cmds
    if ok then h.replyLoop redis alloc nullptr cmds else .ok (false, [], h)
  else .ok (false, [], h)

def pipe (cmds : List RedisCommand) (h : Heap σ) : Except Stop (Bool × List Response × Heap σ) := do
  let (cmds, h) ← h.commands alloc cmds
  let (ok, resps, h) ← h.pipeExecute redis alloc cmds
  let h ← h.destroyAll cmds
  .ok (ok, resps, h)

def set (key value : Str) (expireTimeSec : UInt32) (h : Heap σ) : Except Stop (Bool × Heap σ) := do
  let (resp, h) ←
    if expireTimeSec > 0 then
      h.executeArgv redis alloc
        ["set".toList, key, value, "ex".toList, stdToString expireTimeSec.toNat]
    else h.executeArgv redis alloc ["set".toList, key, value]
  .ok (resp.isOk, h)

def get (key : Str) (h : Heap σ) : Except Stop (Option Str × Heap σ) := do
  let (resp, h) ← h.executeArgv redis alloc ["get".toList, key]
  .ok (resp.value, h)

def pipeSet (keys values : List Str) (expireTimeSecs : List UInt32) (h : Heap σ) :
    Except Stop (Bool × Heap σ) := do
  if keys.length ≠ values.length ∨ values.length ≠ expireTimeSecs.length then .ok (false, h)
  else
    let cmds := (keys.zip (values.zip expireTimeSecs)).map fun (key, value, expireTimeSec) =>
      setCommand key value expireTimeSec
    let (ok, resps, h) ← h.pipe redis alloc cmds
    .ok (ok && resps.all Response.isOk, h)

def pipeGet (keys : List Str) (h : Heap σ) : Except Stop (Bool × List (Bool × Str) × Heap σ) := do
  let (ok, resps, h) ← h.pipe redis alloc (keys.map getCommand)
  if ok then .ok (true, resps.map fun resp => (resp.value.isSome, resp.value.getD []), h)
  else .ok (false, [], h)

/-- One operation, with its number. -/
def operate (h : Heap σ) : Op → Except Stop (Result × Heap σ)
  | .execute args => do
    let (resp, h) ← h.executeFormat redis alloc args
    .ok (.response resp, h)
  | .executeArgv vals => do
    let (resp, h) ← h.executeArgv redis alloc vals
    .ok (.response resp, h)
  | .set key value expireTimeSec => do
    let (ok, h) ← h.set redis alloc key value expireTimeSec
    .ok (.flag ok, h)
  | .get key => do
    let (v, h) ← h.get redis alloc key
    .ok (.value v, h)
  | .pipeExecute cmds => do
    let (ok, resps, h) ← h.pipe redis alloc cmds
    .ok (.responses ok resps, h)
  | .pipeSet keys values expireTimeSecs => do
    let (ok, h) ← h.pipeSet redis alloc keys values expireTimeSecs
    .ok (.flag ok, h)
  | .pipeGet keys => do
    let (ok, values, h) ← h.pipeGet redis alloc keys
    .ok (.values ok values, h)

def operateAll : List Op → Heap σ → Except Stop (List Done × Heap σ)
  | [], h => .ok ([], h)
  | op :: ops, h => do
    let (result, h') ← h.operate redis alloc op
    let done : Done := ⟨h.world.op, h.world.calls, h'.world.calls, result⟩
    let (outs, h') ← operateAll ops { h' with world := { h'.world with op := h'.world.op + 1 } }
    .ok (done :: outs, h')

end Heap

/-- A proxy from its constructor to its destructor, in a memory that has other
objects as well: what its operations return, and the memory afterwards. -/
def session {σ : Type} (redis : Hiredis σ) (alloc : Nat → Ptr) (m : Memory Object) (server : σ)
    (ops : List Op) : Except Stop (List Done × Memory Object) := do
  let h : Heap σ := { memory := m, news := 0, ctx_ := nullptr, world := .init server }
  let (outs, h) ← h.operateAll redis alloc ops
  let h ← h.close
  .ok (outs, h.memory)

end CppUtil.RedisProxy

import CppUtil.Lib.Machine
import CppUtil.RedisProxy.RedisProxy

/-!
# Whose reply is it

Between two operations of a proxy the context is null or has no reply left:
every path on which a reply could stay unread closes it. So the first reply
that an operation reads is to its own first command.

`responses_own` is about any sequence of operations with any pattern of
failures: what a response is made of is the reply of the server to that command
of that operation. Without a reply there is a response only where a call that
this operation made of hiredis has failed.
-/

namespace CppUtil.RedisProxy

open Lang Lib

-- ---------------------------------------------------------------------------
-- Operations
-- ---------------------------------------------------------------------------

inductive Op
  | execute (args : List Str)
  | executeArgv (vals : List Str)
  | set (key value : Str) (expireTimeSec : UInt32)
  | get (key : Str)
  | pipeExecute (cmds : List RedisCommand)
  | pipeSet (keys values : List Str) (expireTimeSecs : List UInt32)
  | pipeGet (keys : List Str)

inductive Result
  | response (resp : Response)
  | responses (ok : Bool) (resps : List Response)
  | flag (ok : Bool)
  | value (v : Option Str)
  | values (ok : Bool) (vs : List (Bool × Str))

variable {σ : Type} (redis : Hiredis σ)

def Op.run (w : World σ) : Op → Result × World σ
  | .execute args => (executeFormat redis args w).map .response id
  | .executeArgv vals => (RedisProxy.executeArgv redis vals w).map .response id
  | .set key value expireTimeSec => (RedisProxy.set redis key value expireTimeSec w).map .flag id
  | .get key => (RedisProxy.get redis key w).map .value id
  | .pipeExecute cmds =>
    let (ok, resps, w) := RedisProxy.pipeExecute redis cmds w
    (.responses ok resps, w)
  | .pipeSet keys values expireTimeSecs =>
    (RedisProxy.pipeSet redis keys values expireTimeSecs w).map .flag id
  | .pipeGet keys =>
    let (ok, values, w) := RedisProxy.pipeGet redis keys w
    (.values ok values, w)

/-- An operation that has returned: its number, and the numbers of its first
call of hiredis and of the first one after it. -/
structure Done where
  op : Nat
  first : Nat
  next : Nat
  result : Result

def machine : Machine (World σ) Op Done where
  step w op :=
    let (result, w') := op.run redis w
    some ({ w' with op := w'.op + 1 }, [⟨w.op, w.calls, w'.calls, result⟩])

def World.init (server : σ) : World σ where
  server
  ctx_ := none
  calls := 0
  op := 0
  log := []

def Op.commands : Op → List (List Str)
  | .execute args => [args]
  | .executeArgv vals => [(RedisCommand.appendAll ⟨[]⟩ vals).args]
  | .set key value expireTimeSec => [(setCommand key value expireTimeSec).args]
  | .get key => [(getCommand key).args]
  | .pipeExecute cmds => cmds.map RedisCommand.args
  | .pipeSet keys values expireTimeSecs =>
    (keys.zip (values.zip expireTimeSecs)).map fun (key, value, expireTimeSec) =>
      (setCommand key value expireTimeSec).args
  | .pipeGet keys => keys.map fun key => (getCommand key).args

def Op.Mismatched : Op → Prop
  | .pipeSet keys values expireTimeSecs =>
    keys.length ≠ values.length ∨ values.length ≠ expireTimeSecs.length
  | _ => False

def Response.refused : Response := { retCode := .connectionRefused }

/-- Of the calls of hiredis from number `first` to before `next` one has failed. -/
def Failed (first next : Nat) : Prop := ∃ n, first ≤ n ∧ n < next ∧ redis.outcome n ≠ .ok

/-- The response is made of the server's reply to command `i` of operation `k`. -/
def Answers (log : List Exchange) (k : Nat) (cmds : List (List Str)) (i : Nat) (resp : Response) :
    Prop :=
  ∃ x ∈ log, x.op = k ∧ x.index = i ∧ cmds[i]? = some x.args ∧ resp = x.reply.toResponse

def Own (log : List Exchange) (k : Nat) (cmds : List (List Str)) (resps : List Response) : Prop :=
  ∀ i resp, resps[i]? = some resp → Answers log k cmds i resp

/-- What the caller gets is from responses of its own. If the operation was not
done, `excuse` holds. -/
def Result.Own (log : List Exchange) (k : Nat) (cmds : List (List Str)) (excuse : Prop) :
    Result → Prop
  | .response resp => RedisProxy.Own log k cmds [resp] ∨ excuse ∧ resp = .refused
  | .responses ok resps => RedisProxy.Own log k cmds resps ∧
      if ok then resps.length = cmds.length else excuse
  | .flag ok => (∃ resps, RedisProxy.Own log k cmds resps ∧ resps.length = cmds.length ∧
      ok = resps.all Response.isOk) ∨ excuse ∧ ok = false
  | .value v => (∃ resp, RedisProxy.Own log k cmds [resp] ∧ v = resp.value) ∨ excuse ∧ v = none
  | .values ok vs => if ok then ∃ resps, RedisProxy.Own log k cmds resps ∧
      resps.length = cmds.length ∧
      vs = resps.map fun resp => (resp.value.isSome, resp.value.getD [])
    else excuse ∧ vs = []

-- ---------------------------------------------------------------------------
-- One call
-- ---------------------------------------------------------------------------

def Idle (w : World σ) : Prop := w.ctx_ = none ∨ w.ctx_ = some ⟨[], false⟩

structure Same (w w' : World σ) : Prop where
  op : w'.op = w.op
  log : w'.log = w.log
  calls : w.calls ≤ w'.calls

variable {redis} {w : World σ}

theorem Same.refl : Same w w := ⟨rfl, rfl, Nat.le_refl _⟩

theorem Same.trans {w₁ w₂ w₃ : World σ} (h : Same w₁ w₂) (h' : Same w₂ w₃) : Same w₁ w₃ :=
  ⟨h'.op.trans h.op, h'.log.trans h.log, h.calls.trans h'.calls⟩

theorem Same.withContext (h : Same w w') : Same w { w' with ctx_ := ctx } :=
  ⟨h.op, h.log, h.calls⟩

theorem Failed.mono (h : Failed redis first next) (hfirst : first' ≤ first) (hnext : next ≤ next') :
    Failed redis first' next' := by
  obtain ⟨n, hn, hn', hout⟩ := h
  exact ⟨n, hfirst.trans hn, lt_of_lt_of_le hn' hnext, hout⟩

theorem call_spec (redis : Hiredis σ) (w : World σ) :
    ∃ out w', call redis w = (out, w') ∧ w'.ctx_ = w.ctx_ ∧ Same w w' ∧
      (out ≠ .ok → Failed redis w.calls w'.calls) := by
  unfold call
  simp only [Nat.add_sub_cancel]
  cases hout : redis.outcome w.calls with
  | ok => exact ⟨_, _, rfl, rfl, ⟨rfl, rfl, Nat.le_succ _⟩, fun h => absurd rfl h⟩
  | null server =>
    refine ⟨_, _, rfl, rfl, ⟨rfl, rfl, Nat.le_succ _⟩, fun h => ?_⟩
    exact ⟨w.calls, Nat.le_refl _, Nat.lt_succ_self _, hout ▸ h⟩
  | error server =>
    refine ⟨_, _, rfl, rfl, ⟨rfl, rfl, Nat.le_succ _⟩, fun h => ?_⟩
    exact ⟨w.calls, Nat.le_refl _, Nat.lt_succ_self _, hout ▸ h⟩

@[simp] theorem close_ctx : (close w).ctx_ = none := by
  unfold close
  split
  · rfl
  · simpa using ‹¬ w.ctx_.isSome = true›

@[simp] theorem close_calls : (close w).calls = w.calls := by
  unfold close
  split <;> rfl

theorem close_same : Same w (close w) := by
  unfold close
  split <;> exact ⟨rfl, rfl, Nat.le_refl _⟩

theorem connect_spec (redis : Hiredis σ) (h : Idle w) :
    ∃ ok w', connect redis w = (ok, w') ∧ Same w w' ∧
      (w'.ctx_ = if ok then some ⟨[], false⟩ else none) ∧
      (ok = false → Failed redis w.calls w'.calls) := by
  unfold connect
  rcases h with h | h
  · obtain ⟨out, w₁, hcall, -, hsame, hfail⟩ := call_spec redis w
    simp only [h, redisConnectWithTimeout, hcall]
    cases out with
    | ok =>
      obtain ⟨out', w₂, hcall', hctx, hsame', hfail'⟩ :=
        call_spec redis { w₁ with ctx_ := some ⟨[], false⟩ }
      have hboth : Same w w₂ := hsame.withContext.trans hsame'
      simp only [redisSetTimeout, hcall']
      cases out' with
      | ok => exact ⟨_, _, rfl, hboth, hctx, by simp⟩
      | null =>
        exact ⟨_, _, rfl, hboth.trans close_same, close_ctx,
          fun _ => (hfail' (by simp)).mono hsame.calls (by simp)⟩
      | error =>
        exact ⟨_, _, rfl, hboth.trans close_same, close_ctx,
          fun _ => (hfail' (by simp)).mono hsame.calls (by simp)⟩
    | null =>
      have hclosed : Same w (close { w₁ with ctx_ := none }) :=
        hsame.withContext.trans close_same
      exact ⟨_, _, rfl, hclosed, close_ctx, fun _ => by simpa using hfail (by simp)⟩
    | error =>
      have hclosed : Same w (close { w₁ with ctx_ := some ⟨[], true⟩ }) :=
        hsame.withContext.trans close_same
      exact ⟨_, _, rfl, hclosed, close_ctx, fun _ => by simpa using hfail (by simp)⟩
  · simp only [h]
    exact ⟨_, _, rfl, .refl, h, by simp⟩

theorem redisAppendCommand_spec (redis : Hiredis σ) (i : Nat) (args : List Str)
    (hctx : w.ctx_ = some ⟨xs, err⟩) :
    (∃ x w', redisAppendCommand redis i args w = (true, w') ∧ x.op = w.op ∧ x.index = i ∧
      x.args = args ∧ w'.ctx_ = some ⟨xs ++ [x], err⟩ ∧ w'.op = w.op ∧ w'.log = w.log ++ [x] ∧
      w.calls ≤ w'.calls) ∨
    ∃ w', redisAppendCommand redis i args w = (false, w') ∧ Same w w' ∧
      Failed redis w.calls w'.calls := by
  obtain ⟨out, w₁, hcall, hc, hsame, hfail⟩ := call_spec redis w
  simp only [redisAppendCommand, hcall]
  cases out with
  | ok =>
    simp only [hc.trans hctx]
    exact .inl ⟨_, _, rfl, hsame.op, rfl, rfl, rfl, hsame.op, congrArg (· ++ _) hsame.log,
      hsame.calls⟩
  | null => exact .inr ⟨_, rfl, hsame, hfail (by simp)⟩
  | error => exact .inr ⟨_, rfl, hsame, hfail (by simp)⟩

theorem redisGetReply_spec (redis : Hiredis σ) (old : Option RedisReply)
    (hctx : w.ctx_ = some ⟨x :: xs, err⟩) :
    (∃ w', redisGetReply redis old w = (true, some x.reply, w') ∧ Same w w' ∧
      w'.ctx_ = some ⟨xs, err⟩) ∨
    ∃ ok reply w', redisGetReply redis old w = (ok, reply, w') ∧ Same w w' ∧
      (ok = false ∨ reply = none) ∧ Failed redis w.calls w'.calls := by
  obtain ⟨out, w₁, hcall, hc, hsame, hfail⟩ := call_spec redis w
  simp only [redisGetReply, hcall]
  cases out with
  | ok =>
    simp only [hc.trans hctx]
    exact .inl ⟨_, rfl, hsame.withContext, rfl⟩
  | null => exact .inr ⟨_, _, _, rfl, hsame, .inr rfl, hfail (by simp)⟩
  | error => exact .inr ⟨_, _, _, rfl, hsame, .inl rfl, hfail (by simp)⟩

-- ---------------------------------------------------------------------------
-- One operation
-- ---------------------------------------------------------------------------

def Exchange.request (x : Exchange) : Nat × Nat × List Str := (x.op, x.index, x.args)

def requests (op : Nat) : Nat → List (List Str) → List (Nat × Nat × List Str)
  | _, [] => []
  | i, args :: cmds => (op, i, args) :: requests op (i + 1) cmds

/-- From `w` to `w'` the server has answered `xs`, which are the first of the
commands. -/
structure Sent (w w' : World σ) (i : Nat) (cmds : List (List Str)) (xs : List Exchange) : Prop where
  op : w'.op = w.op
  log : w'.log = w.log ++ xs
  requests : xs.map Exchange.request <+: requests w.op i cmds
  calls : w.calls ≤ w'.calls

theorem Sent.nil (h : Same w w') : Sent w w' i cmds [] :=
  ⟨h.op, by simp [h.log], List.nil_prefix, h.calls⟩

theorem Sent.same (h : Sent w w' i cmds xs) (hs : Same w' w'') : Sent w w'' i cmds xs :=
  ⟨hs.op.trans h.op, hs.log.trans h.log, h.requests, h.calls.trans hs.calls⟩

theorem Sent.after (hs : Same w w') (h : Sent w' w'' i cmds xs) : Sent w w'' i cmds xs :=
  ⟨h.op.trans hs.op, by rw [h.log, hs.log], hs.op ▸ h.requests, hs.calls.trans h.calls⟩

theorem appendLoop_spec (redis : Hiredis σ) (cmds : List RedisCommand)
    (hctx : w.ctx_ = some ⟨xs, err⟩) :
    ∃ ok w' ys, appendLoop redis i cmds w = (ok, w') ∧
      Sent w w' i (cmds.map RedisCommand.args) ys ∧
      (ok = true → w'.ctx_ = some ⟨xs ++ ys, err⟩ ∧ ys.length = cmds.length) ∧
      (ok = false → w'.ctx_ = none ∧ Failed redis w.calls w'.calls) := by
  induction cmds generalizing i w xs with
  | nil => exact ⟨_, _, [], rfl, .nil .refl, fun _ => ⟨by simpa using hctx, rfl⟩, by simp⟩
  | cons cmd cmds ih =>
    simp only [appendLoop]
    rcases redisAppendCommand_spec redis i cmd.args hctx with
      ⟨x, w₁, happ, hop, hi, hargs, hctx₁, hop₁, hlog₁, hcalls₁⟩ | ⟨w₁, happ, hsame, hfail⟩
    · obtain ⟨ok, w', ys, hloop, hsent, hok, hfail⟩ := ih (i := i + 1) hctx₁
      simp only [happ]
      refine ⟨ok, w', x :: ys, hloop, ⟨hsent.op.trans hop₁, ?_, ?_, hcalls₁.trans hsent.calls⟩,
        fun h => ?_, fun h => ⟨(hfail h).1, (hfail h).2.mono hcalls₁ (Nat.le_refl _)⟩⟩
      · simp [hsent.log, hlog₁]
      · have hreq := hsent.requests
        rw [hop₁] at hreq
        simpa [requests, Exchange.request, hop, hi, hargs] using hreq
      · obtain ⟨hc, hlen⟩ := hok h
        exact ⟨by simpa using hc, by simp [hlen]⟩
    · simp only [happ]
      exact ⟨_, _, [], rfl, .nil (hsame.trans close_same), by simp,
        fun _ => ⟨close_ctx, by simpa using hfail⟩⟩

theorem replyLoop_spec (redis : Hiredis σ) (hctx : w.ctx_ = some ⟨xs, false⟩) :
    ∃ ok resps w', replyLoop redis old xs.length w = (ok, resps, w') ∧ Same w w' ∧ Idle w' ∧
      resps <+: xs.map (fun x => x.reply.toResponse) ∧
      if ok then resps.length = xs.length else Failed redis w.calls w'.calls := by
  induction xs generalizing w old with
  | nil => exact ⟨_, _, _, rfl, .refl, .inr hctx, List.nil_prefix, rfl⟩
  | cons x xs ih =>
    simp only [List.length_cons, replyLoop]
    rcases redisGetReply_spec redis old hctx with
      ⟨w₁, hget, hsame, hctx₁⟩ | ⟨ok, reply, w₁, hget, hsame, hnone, hfail⟩
    · obtain ⟨ok, resps, w', hloop, hsame', hidle, hpre, hlen⟩ := @ih w₁ (some x.reply) hctx₁
      simp only [hget, parseRedisReply, hloop]
      refine ⟨_, _, _, rfl, hsame.trans hsame', hidle, by simpa using hpre, ?_⟩
      cases ok with
      | true => simpa using hlen
      | false => exact Failed.mono hlen hsame.calls (Nat.le_refl _)
    · have hclosed : Same w (close w₁) ∧ Idle (close w₁) ∧ Failed redis w.calls (close w₁).calls :=
        ⟨hsame.trans close_same, .inl close_ctx, by simpa using hfail⟩
      rw [hget]
      rcases hnone with rfl | rfl
      · exact ⟨_, _, _, rfl, hclosed.1, hclosed.2.1, List.nil_prefix, hclosed.2.2⟩
      · cases ok <;> exact ⟨_, _, _, rfl, hclosed.1, hclosed.2.1, List.nil_prefix, hclosed.2.2⟩

theorem pipeExecute_spec (redis : Hiredis σ) (cmds : List RedisCommand) (h : Idle w) :
    ∃ ok resps w' xs, pipeExecute redis cmds w = (ok, resps, w') ∧ Idle w' ∧
      Sent w w' 0 (cmds.map RedisCommand.args) xs ∧
      resps <+: xs.map (fun x => x.reply.toResponse) ∧
      if ok then resps.length = cmds.length else Failed redis w.calls w'.calls := by
  obtain ⟨ok, w₁, hconn, hsame, hctx, hfail⟩ := connect_spec redis h
  simp only [pipeExecute, hconn]
  cases ok with
  | false =>
    exact ⟨_, _, _, [], rfl, .inl hctx, .nil hsame, List.nil_prefix, hfail rfl⟩
  | true =>
    obtain ⟨ok, w₂, xs, hloop, hsent, hok, hfail⟩ := appendLoop_spec redis cmds (i := 0) hctx
    simp only [hloop]
    cases ok with
    | false =>
      obtain ⟨hctx₂, hfail⟩ := hfail rfl
      exact ⟨_, _, _, xs, rfl, .inl hctx₂, .after hsame hsent, List.nil_prefix,
        hfail.mono hsame.calls (Nat.le_refl _)⟩
    | true =>
      obtain ⟨hctx₂, hlen⟩ := hok rfl
      obtain ⟨ok, resps, w', hreply, hsame', hidle, hpre, hend⟩ := replyLoop_spec redis hctx₂
      rw [List.nil_append, hlen] at hreply hend
      refine ⟨ok, resps, w', xs, hreply, hidle, (Sent.after hsame hsent).same hsame',
        by simpa using hpre, ?_⟩
      cases ok with
      | true => exact hend
      | false => exact Failed.mono hend (hsame.calls.trans hsent.calls) (Nat.le_refl _)

theorem executeArgs_spec (redis : Hiredis σ) (args : List Str) (h : Idle w) :
    ∃ resp w' xs, executeArgs redis args w = (resp, w') ∧ Idle w' ∧ Sent w w' 0 [args] xs ∧
      (([resp] <+: xs.map fun x => x.reply.toResponse) ∨
        Failed redis w.calls w'.calls ∧ resp = .refused) := by
  obtain ⟨ok, w₁, hconn, hsame, hctx, hfail⟩ := connect_spec redis h
  simp only [executeArgs, hconn]
  cases ok with
  | false => exact ⟨_, _, [], rfl, .inl hctx, .nil hsame, .inr ⟨hfail rfl, rfl⟩⟩
  | true =>
    simp only [redisCommand]
    rcases redisAppendCommand_spec redis 0 args hctx with
      ⟨x, w₂, happ, hop, hi, hargs, hctx₂, hop₂, hlog₂, hcalls₂⟩ | ⟨w₂, happ, hsame₂, hfail₂⟩
    · have hsent : Sent w w₂ 0 [args] [x] := .after hsame
        ⟨hop₂, hlog₂, by simp [requests, Exchange.request, hop, hi, hargs], hcalls₂⟩
      rcases redisGetReply_spec redis none hctx₂ with
        ⟨w₃, hget, hsame₃, hctx₃⟩ | ⟨ok, reply, w₃, hget, hsame₃, hnone, hfail₃⟩
      · simp only [happ, hget, parseRedisReply]
        exact ⟨_, _, [x], rfl, .inr hctx₃, hsent.same hsame₃, .inl (by simp)⟩
      · simp only [happ, hget]
        have hnull : ∀ r : Option RedisReply, r = none → ∃ resp w' xs,
            parseRedisReply r w₃ = (resp, w') ∧ Idle w' ∧ Sent w w' 0 [args] xs ∧
              (([resp] <+: xs.map fun x => x.reply.toResponse) ∨
                Failed redis w.calls w'.calls ∧ resp = .refused) := by
          rintro _ rfl
          exact ⟨_, _, [x], rfl, .inl close_ctx, hsent.same (hsame₃.trans close_same),
            .inr ⟨hfail₃.mono hsent.calls (by simp), rfl⟩⟩
        rcases hnone with rfl | rfl
        · exact hnull _ rfl
        · cases ok <;> exact hnull _ rfl
    · simp only [happ, parseRedisReply]
      exact ⟨_, _, [], rfl, .inl close_ctx, .nil ((hsame.trans hsame₂).trans close_same),
        .inr ⟨hfail₂.mono hsame.calls (by simp), rfl⟩⟩

theorem requests_getElem? (op i j : Nat) (cmds : List (List Str)) :
    (requests op i cmds)[j]? = cmds[j]?.map fun args => (op, i + j, args) := by
  induction cmds generalizing i j with
  | nil => simp [requests]
  | cons args cmds ih =>
    cases j with
    | zero => simp [requests]
    | succ j =>
      rw [requests, List.getElem?_cons_succ, ih, List.getElem?_cons_succ]
      simp [Nat.add_assoc, Nat.add_comm 1 j]

theorem getElem?_of_initial {l l' : List α} {i : Nat} (h : l <+: l') (hi : l[i]? = some a) :
    l'[i]? = some a := by
  obtain ⟨t, rfl⟩ := h
  rwa [List.getElem?_append_left (List.getElem?_eq_some_iff.mp hi).1]

theorem Sent.own (h : Sent w w' 0 cmds xs)
    (hpre : resps <+: xs.map fun x => x.reply.toResponse) : Own w'.log w.op cmds resps := by
  intro i resp hi
  have hmap := getElem?_of_initial hpre hi
  rw [List.getElem?_map] at hmap
  obtain ⟨x, hx, rfl⟩ := Option.map_eq_some_iff.mp hmap
  have hreq := getElem?_of_initial (i := i) (a := x.request) h.requests (by simp [hx])
  rw [requests_getElem?, Nat.zero_add] at hreq
  obtain ⟨args, hargs, heq⟩ := Option.map_eq_some_iff.mp hreq
  obtain ⟨hop, hindex, rfl⟩ : w.op = x.op ∧ i = x.index ∧ args = x.args := by
    simpa [Exchange.request] using heq
  refine ⟨x, ?_, hop.symm, hindex.symm, hargs, rfl⟩
  rw [h.log]
  exact List.mem_append_right _ (List.mem_of_getElem? hx)

theorem set_eq (key value : Str) (expireTimeSec : UInt32) (w : World σ) :
    set redis key value expireTimeSec w =
      (executeArgs redis (setCommand key value expireTimeSec).args w).map Response.isOk id := by
  simp only [set, setCommand]
  by_cases h : expireTimeSec > 0
  · simp only [if_pos h]
    rfl
  · simp only [if_neg h]
    rfl

/-- Why an operation was not done. -/
def Op.Excuse (redis : Hiredis σ) (op : Op) (first next : Nat) : Prop :=
  op.Mismatched ∨ Failed redis first next

theorem Op.run_spec (redis : Hiredis σ) (h : Idle w) (op : Op) :
    ∃ xs, Idle (op.run redis w).2 ∧ Sent w (op.run redis w).2 0 op.commands xs ∧
      (op.run redis w).1.Own (op.run redis w).2.log w.op op.commands
        (op.Excuse redis w.calls (op.run redis w).2.calls) := by
  cases op with
  | execute args =>
    obtain ⟨resp, w', xs, hexec, hidle, hsent, hresp⟩ := executeArgs_spec redis args h
    simp only [Op.run, executeFormat, hexec]
    refine ⟨xs, hidle, hsent, ?_⟩
    exact hresp.imp hsent.own fun hrefused => ⟨.inr hrefused.1, hrefused.2⟩
  | executeArgv vals =>
    obtain ⟨resp, w', xs, hexec, hidle, hsent, hresp⟩ :=
      executeArgs_spec redis (RedisCommand.appendAll ⟨[]⟩ vals).args h
    simp only [Op.run, RedisProxy.executeArgv, RedisProxy.execute, hexec]
    refine ⟨xs, hidle, hsent, ?_⟩
    exact hresp.imp hsent.own fun hrefused => ⟨.inr hrefused.1, hrefused.2⟩
  | set key value expireTimeSec =>
    obtain ⟨resp, w', xs, hexec, hidle, hsent, hresp⟩ :=
      executeArgs_spec redis (setCommand key value expireTimeSec).args h
    simp only [Op.run, set_eq, hexec]
    refine ⟨xs, hidle, hsent, ?_⟩
    rcases hresp with hpre | ⟨hfail, rfl⟩
    · exact .inl ⟨[resp], hsent.own hpre, rfl, by simp⟩
    · exact .inr ⟨.inr hfail, rfl⟩
  | get key =>
    obtain ⟨resp, w', xs, hexec, hidle, hsent, hresp⟩ :=
      executeArgs_spec redis (getCommand key).args h
    have hget : RedisProxy.get redis key w = (resp.value, w') := by
      show (executeArgs redis (getCommand key).args w).map Response.value id = _
      rw [hexec]
      rfl
    simp only [Op.run, hget]
    refine ⟨xs, hidle, hsent, ?_⟩
    rcases hresp with hpre | ⟨hfail, rfl⟩
    · exact .inl ⟨resp, hsent.own hpre, rfl⟩
    · exact .inr ⟨.inr hfail, rfl⟩
  | pipeExecute cmds =>
    obtain ⟨ok, resps, w', xs, hexec, hidle, hsent, hpre, hend⟩ := pipeExecute_spec redis cmds h
    simp only [Op.run, hexec]
    refine ⟨xs, hidle, hsent, hsent.own hpre, ?_⟩
    cases ok with
    | true => simpa [Op.commands] using hend
    | false => exact .inr hend
  | pipeSet keys values expireTimeSecs =>
    simp only [Op.run, RedisProxy.pipeSet]
    split
    case isTrue hsizes => exact ⟨[], h, .nil .refl, .inr ⟨.inl hsizes, rfl⟩⟩
    case isFalse =>
      obtain ⟨ok, resps, w', xs, hexec, hidle, hsent, hpre, hend⟩ := pipeExecute_spec redis
        ((keys.zip (values.zip expireTimeSecs)).map fun (key, value, expireTimeSec) =>
          setCommand key value expireTimeSec) h
      rw [List.map_map] at hsent
      simp only [hexec]
      cases ok with
      | false => exact ⟨xs, hidle, hsent, .inr ⟨.inr hend, rfl⟩⟩
      | true =>
        have hlen : resps.length = (Op.pipeSet keys values expireTimeSecs).commands.length := by
          simpa [Op.commands] using hend
        exact ⟨xs, hidle, hsent, .inl ⟨resps, hsent.own hpre, hlen, rfl⟩⟩
  | pipeGet keys =>
    obtain ⟨ok, resps, w', xs, hexec, hidle, hsent, hpre, hend⟩ :=
      pipeExecute_spec redis (keys.map getCommand) h
    rw [List.map_map] at hsent
    simp only [Op.run, RedisProxy.pipeGet, hexec]
    cases ok with
    | false => exact ⟨xs, hidle, hsent, .inr hend, rfl⟩
    | true =>
      have hlen : resps.length = (Op.pipeGet keys).commands.length := by
        simpa [Op.commands] using hend
      exact ⟨xs, hidle, hsent, resps, hsent.own hpre, hlen, rfl⟩

-- ---------------------------------------------------------------------------
-- Any sequence of operations
-- ---------------------------------------------------------------------------

theorem Answers.mono (h : Answers log k cmds i resp) (hsub : log ⊆ log') :
    Answers log' k cmds i resp := by
  obtain ⟨x, hx, hrest⟩ := h
  exact ⟨x, hsub hx, hrest⟩

theorem Own.mono (h : Own log k cmds resps) (hsub : log ⊆ log') : Own log' k cmds resps :=
  fun i resp hi => (h i resp hi).mono hsub

theorem Result.Own.mono {result : Result} (h : result.Own log k cmds excuse) (hsub : log ⊆ log') :
    result.Own log' k cmds excuse := by
  cases result with
  | response resp => exact h.imp_left fun hown => hown.mono hsub
  | responses ok resps => exact ⟨h.1.mono hsub, h.2⟩
  | flag ok => exact h.imp_left fun ⟨resps, hown, hrest⟩ => ⟨resps, hown.mono hsub, hrest⟩
  | value v => exact h.imp_left fun ⟨resp, hown, hrest⟩ => ⟨resp, hown.mono hsub, hrest⟩
  | values ok vs =>
    cases ok with
    | true =>
      obtain ⟨resps, hown, hrest⟩ := h
      exact ⟨resps, hown.mono hsub, hrest⟩
    | false => exact h

theorem mem_requests (h : r ∈ requests op i cmds) : r.1 = op := by
  induction cmds generalizing i with
  | nil => simp [requests] at h
  | cons args cmds ih =>
    rcases List.mem_cons.mp h with rfl | h
    · rfl
    · exact ih h

theorem requests_nodup (op i : Nat) (cmds : List (List Str)) :
    ((requests op i cmds).map fun r => (r.1, r.2.1)).Nodup := by
  have hrange : (requests op i cmds).map (fun r => (r.1, r.2.1)) =
      (List.range' i cmds.length).map fun j => (op, j) := by
    induction cmds generalizing i with
    | nil => rfl
    | cons args cmds ih => simp [requests, ih, List.range'_succ]
  rw [hrange]
  exact List.Nodup.map (fun a b h => by simpa using h) List.nodup_range'

structure Served (redis : Hiredis σ) (ops : List Op) (outs : List Done) (w : World σ) : Prop where
  count : w.op = ops.length
  idle : Idle w
  earlier : ∀ x ∈ w.log, x.op < w.op
  nodup : (w.log.map fun x => (x.op, x.index)).Nodup
  numbered : outs.map Done.op = List.range ops.length
  calls : ∀ d ∈ outs, d.next ≤ w.calls
  apart : outs.Pairwise fun d d' => d.next ≤ d'.first
  own : ∀ d ∈ outs, ∃ op, ops[d.op]? = some op ∧
    d.result.Own w.log d.op op.commands (op.Excuse redis d.first d.next)

theorem Served.step (h : Served redis ops outs w)
    (hstep : (machine redis).step w op = some (w', o)) :
    Served redis (ops ++ [op]) (outs ++ o) w' := by
  obtain ⟨xs, hidle, hsent, hown⟩ := op.run_spec redis h.idle
  obtain ⟨rfl, rfl⟩ : { (op.run redis w).2 with op := (op.run redis w).2.op + 1 } = w' ∧
      [⟨w.op, w.calls, (op.run redis w).2.calls, (op.run redis w).1⟩] = o := by
    simpa [machine] using hstep
  have hops : ∀ x ∈ xs, x.op = w.op := fun x hx =>
    mem_requests (hsent.requests.subset (List.mem_map_of_mem hx))
  have hnodup : (xs.map fun x => (x.op, x.index)).Nodup := by
    have hsub := (hsent.requests.map fun r => (r.1, r.2.1)).sublist
    rw [List.map_map] at hsub
    exact (requests_nodup ..).sublist hsub
  refine ⟨by simp [hsent.op, h.count], hidle, ?_, ?_,
    by simp [h.numbered, h.count, List.range_succ], ?_, ?_, ?_⟩
  · intro x hx
    simp only [hsent.log, hsent.op, List.mem_append] at hx ⊢
    rcases hx with hx | hx
    · exact Nat.lt_succ_of_lt (h.earlier x hx)
    · exact Nat.lt_succ_of_le (hops x hx).le
  · simp only [hsent.log, List.map_append]
    refine List.nodup_append.mpr ⟨h.nodup, hnodup, ?_⟩
    intro a ha b hb hab
    obtain ⟨x, hx, rfl⟩ := List.mem_map.mp ha
    obtain ⟨y, hy, rfl⟩ := List.mem_map.mp hb
    have hlt := h.earlier x hx
    rw [(Prod.mk.inj hab).1, hops y hy] at hlt
    exact lt_irrefl _ hlt
  · intro d hd
    rcases List.mem_append.mp hd with hd | hd
    · exact (h.calls d hd).trans hsent.calls
    · cases List.mem_singleton.mp hd
      exact Nat.le_refl _
  · refine List.pairwise_append.mpr ⟨h.apart, List.pairwise_singleton .., fun d hd d' hd' => ?_⟩
    cases List.mem_singleton.mp hd'
    exact h.calls d hd
  · intro d hd
    rcases List.mem_append.mp hd with hd | hd
    · obtain ⟨op', hop', hold⟩ := h.own d hd
      refine ⟨op', ?_, hold.mono ?_⟩
      · rwa [List.getElem?_append_left (List.getElem?_eq_some_iff.mp hop').1]
      · simp [hsent.log]
    · cases List.mem_singleton.mp hd
      exact ⟨op, by simp [h.count], hown⟩

/-- Whatever the operations, the server and the pattern of failures: each
operation returns, its calls of hiredis are its own, the server answers each
command of an operation at most once (so that the answer is the one), and what
the caller gets is made of the answers to the commands of this operation, each
at its place, unless one of these calls has failed. -/
theorem responses_own (redis : Hiredis σ) (server : σ) (ops : List Op) :
    ∃ w outs, (machine redis).run (.init server) ops = some (w, outs) ∧
      outs.map Done.op = List.range ops.length ∧
      (outs.Pairwise fun d d' => d.next ≤ d'.first) ∧
      (w.log.map fun x => (x.op, x.index)).Nodup ∧
      ∀ d ∈ outs, ∃ op, ops[d.op]? = some op ∧
        d.result.Own w.log d.op op.commands (op.Mismatched ∨ Failed redis d.first d.next) := by
  obtain ⟨⟨w, outs⟩, hrun⟩ : ∃ r, (machine redis).run (.init server) ops = some r :=
    Machine.run_total fun _ _ => rfl
  have hserved : Served redis ops outs w :=
    @Machine.run_keeps _ _ _ (machine redis) [] [] _ _ _ _ (fun _ _ => True) (Served redis)
      (fun _ _ _ _ _ _ hi _ hst => hi.step hst)
      ⟨rfl, .inl rfl, by simp [World.init], by simp [World.init], rfl, by simp, .nil, by simp⟩
      .trivial hrun
  exact ⟨w, outs, hrun, hserved.numbered, hserved.apart, hserved.nodup, hserved.own⟩

end CppUtil.RedisProxy

import CppUtil.RedisProxy.SetGet

/-!
# Pipelines

`PipeSet` and `PipeGet` append all commands and read the replies afterwards,
`Set` and `Get` make one round trip each. Where no call of hiredis fails, both
come down to `answers`: what the server makes of the commands in their order.
-/

namespace CppUtil.RedisProxy

open Lang

variable {σ α β : Type}

def inOrder (op : α → World σ → β × World σ) : List α → World σ → List β × World σ
  | [], w => ([], w)
  | x :: xs, w =>
    let (y, w) := op x w
    let (ys, w) := inOrder op xs w
    (y :: ys, w)

/-- The commands in their order: where they leave the server, and the responses
that are made of its replies. -/
def answers (redis : Hiredis σ) (server : σ) : List (List Str) → σ × List Response
  | [] => (server, [])
  | args :: cmds =>
    let (server, reply) := redis.process server args
    let (server, resps) := answers redis server cmds
    (server, reply.toResponse :: resps)

variable {redis : Hiredis σ} {w : World σ}

theorem inOrder_ok (hok : ∀ n, redis.outcome n = .ok) {op : α → World σ → β × World σ}
    {cmd : α → List Str} {f : Response → β}
    (hop : ∀ x w, op x w = (executeArgs redis (cmd x) w).map f id) (h : Idle w) (xs : List α) :
    ∃ w', inOrder op xs w = ((answers redis w.server (xs.map cmd)).2.map f, w') ∧
      w'.server = (answers redis w.server (xs.map cmd)).1 := by
  induction xs generalizing w with
  | nil => exact ⟨w, rfl, rfl⟩
  | cons x xs ih =>
    obtain ⟨w₁, hexec, hserver, hidle⟩ := executeArgs_ok hok h (cmd x)
    obtain ⟨w₂, hrest, hserver'⟩ := ih hidle
    rw [hserver] at hrest hserver'
    refine ⟨w₂, ?_, hserver'⟩
    simp only [inOrder, hop, hexec, Prod.map, id, hrest]
    rfl

-- ---------------------------------------------------------------------------
-- The two loops of `PipeExecute`
-- ---------------------------------------------------------------------------

theorem appendLoop_ok (hok : ∀ n, redis.outcome n = .ok) (cmds : List RedisCommand)
    (hctx : w.ctx_ = some ⟨xs, err⟩) :
    ∃ ys w', appendLoop redis i cmds w = (true, w') ∧ w'.ctx_ = some ⟨xs ++ ys, err⟩ ∧
      ys.length = cmds.length ∧
      answers redis w.server (cmds.map RedisCommand.args) =
        (w'.server, ys.map fun x => x.reply.toResponse) := by
  induction cmds generalizing w xs i with
  | nil => exact ⟨[], w, rfl, by rw [hctx, List.append_nil], rfl, rfl⟩
  | cons cmd cmds ih =>
    obtain ⟨x, w₁, happ, hctx₁, hserver, hreply⟩ : ∃ x w₁,
        redisAppendCommand redis i cmd.args w = (true, w₁) ∧ w₁.ctx_ = some ⟨xs ++ [x], err⟩ ∧
        w₁.server = (redis.process w.server cmd.args).1 ∧
        x.reply = (redis.process w.server cmd.args).2 := by
      simp only [redisAppendCommand, call_ok hok, hctx]
      exact ⟨_, _, rfl, rfl, rfl, rfl⟩
    obtain ⟨ys, w₂, hloop, hctx₂, hlen, hans⟩ := @ih w₁ (xs ++ [x]) (i + 1) hctx₁
    refine ⟨x :: ys, w₂, ?_, ?_, by simp [hlen], ?_⟩
    · simp only [appendLoop, happ, hloop]
    · simpa using hctx₂
    · simp only [List.map_cons, answers, ← hserver, hans, hreply]

theorem replyLoop_ok (hok : ∀ n, redis.outcome n = .ok) (hctx : w.ctx_ = some ⟨xs, err⟩) :
    ∃ w', replyLoop redis old xs.length w = (true, xs.map fun x => x.reply.toResponse, w') ∧
      w'.server = w.server := by
  induction xs generalizing w old with
  | nil => exact ⟨w, rfl, rfl⟩
  | cons x xs ih =>
    obtain ⟨w₁, hget, hctx₁, hserver⟩ : ∃ w₁,
        redisGetReply redis old w = (true, some x.reply, w₁) ∧ w₁.ctx_ = some ⟨xs, err⟩ ∧
        w₁.server = w.server := by
      simp only [redisGetReply, call_ok hok, hctx]
      exact ⟨_, rfl, rfl, rfl⟩
    obtain ⟨w₂, hloop, hserver₂⟩ := @ih w₁ (some x.reply) hctx₁
    refine ⟨w₂, ?_, hserver₂.trans hserver⟩
    simp only [List.length_cons, replyLoop, hget, parseRedisReply, hloop, List.map_cons]

theorem pipeExecute_ok (hok : ∀ n, redis.outcome n = .ok) (h : Idle w) (cmds : List RedisCommand) :
    ∃ w', pipeExecute redis cmds w =
        (true, (answers redis w.server (cmds.map RedisCommand.args)).2, w') ∧
      w'.server = (answers redis w.server (cmds.map RedisCommand.args)).1 := by
  obtain ⟨w₁, hconn, hserver, hctx⟩ := connect_ok hok h
  obtain ⟨ys, w₂, happ, hctx₂, hlen, hans⟩ := @appendLoop_ok _ _ w₁ [] false 0 hok cmds hctx
  obtain ⟨w₃, hreplies, hserver₃⟩ := @replyLoop_ok _ _ w₂ ys false none hok hctx₂
  rw [hserver] at hans
  rw [hans]
  refine ⟨w₃, ?_, hserver₃⟩
  simp only [pipeExecute, hconn, happ, ← hlen, hreplies]

-- ---------------------------------------------------------------------------
-- `PipeSet` and `PipeGet`
-- ---------------------------------------------------------------------------

def setAt (redis : Hiredis σ) (x : Str × Str × UInt32) : World σ → Bool × World σ :=
  set redis x.1 x.2.1 x.2.2

theorem pipeSet_ok (hok : ∀ n, redis.outcome n = .ok) (h : Idle w)
    (hkeys : keys.length = values.length) (hvalues : values.length = expires.length) :
    ∃ w₁ w₂ oks, inOrder (setAt redis) (keys.zip (values.zip expires)) w = (oks, w₁) ∧
      pipeSet redis keys values expires w = (oks.all id, w₂) ∧ w₂.server = w₁.server := by
  have hop : ∀ (x : Str × Str × UInt32) w, setAt redis x w =
      (executeArgs redis (setCommand x.1 x.2.1 x.2.2).args w).map Response.isOk id :=
    fun x w => set_eq x.1 x.2.1 x.2.2 w
  obtain ⟨w₁, hcalls, hserver₁⟩ := inOrder_ok hok hop h (keys.zip (values.zip expires))
  obtain ⟨w₂, hpipe, hserver₂⟩ := pipeExecute_ok hok h
    ((keys.zip (values.zip expires)).map fun x => setCommand x.1 x.2.1 x.2.2)
  rw [List.map_map] at hpipe hserver₂
  refine ⟨w₁, w₂, _, hcalls, ?_, hserver₂.trans hserver₁.symm⟩
  have hsame : ¬ (keys.length ≠ values.length ∨ values.length ≠ expires.length) := by
    simp [hkeys, hvalues]
  simp only [pipeSet, if_neg hsame, hpipe, List.all_map]
  rfl

theorem pipeGet_ok (hok : ∀ n, redis.outcome n = .ok) (h : Idle w) (keys : List Str) :
    ∃ w₁ w₂ vs, inOrder (get redis) keys w = (vs, w₁) ∧
      pipeGet redis keys w = (true, vs.map fun v => (v.isSome, v.getD []), w₂) ∧
      w₂.server = w₁.server := by
  obtain ⟨w₁, hcalls, hserver₁⟩ := @inOrder_ok _ _ _ _ w hok (get redis)
    (fun key => (getCommand key).args) Response.value (fun _ _ => rfl) h keys
  obtain ⟨w₂, hpipe, hserver₂⟩ := pipeExecute_ok hok h (keys.map getCommand)
  rw [List.map_map] at hpipe hserver₂
  refine ⟨w₁, w₂, _, hcalls, ?_, hserver₂.trans hserver₁.symm⟩
  simp only [pipeGet, hpipe, List.map_map]
  rfl

/-- Without failures a pipeline leaves the server where the single calls, made
in order, leave it, and its results are theirs. -/
theorem pipeline_agrees (hok : ∀ n, redis.outcome n = .ok) (h : Idle w) :
    (∀ keys values expires, keys.length = values.length → values.length = expires.length →
      let calls := inOrder (setAt redis) (keys.zip (values.zip expires)) w
      let pipe := pipeSet redis keys values expires w
      pipe.2.server = calls.2.server ∧ (pipe.1 = true ↔ ∀ ok ∈ calls.1, ok = true)) ∧
    ∀ keys,
      let calls := inOrder (get redis) keys w
      let pipe := pipeGet redis keys w
      pipe.2.2.server = calls.2.server ∧ pipe.1 = true ∧
        pipe.2.1 = calls.1.map fun v => v.elim (false, []) fun v => (true, v) := by
  refine ⟨fun keys values expires hkeys hvalues => ?_, fun keys => ?_⟩
  · obtain ⟨w₁, w₂, oks, hcalls, hpipe, hserver⟩ := pipeSet_ok hok h hkeys hvalues
    simp only [hcalls, hpipe]
    exact ⟨hserver, List.all_eq_true⟩
  · obtain ⟨w₁, w₂, vs, hcalls, hpipe, hserver⟩ := pipeGet_ok hok h keys
    rw [hcalls, hpipe]
    refine ⟨hserver, rfl, List.map_congr_left fun v _ => ?_⟩
    cases v <;> rfl

theorem pipeline_agrees_store :
    let w : World (Str → Option Str) := .init fun key => if key = ['k'] then some ['a'] else none
    ((pipeSet storeRedis [['k'], ['k']] [['b'], ['c']] [0, 0] w).1 = true ∧
      (pipeSet storeRedis [['k'], ['k']] [['b'], ['c']] [0, 0] w).2.server ['k'] = some ['c']) ∧
    (pipeSet storeRedis [['k'], ['x']] [['b'], ['c']] [0, 9] w).1 = false ∧
    (pipeGet storeRedis [['k'], ['x']] w).2.1 = [(true, ['a']), (false, [])] := by
  intro w
  obtain ⟨hset, hget⟩ := @pipeline_agrees _ storeRedis w (fun _ => rfl) (.inl rfl)
  obtain ⟨hserver, htrue⟩ := hset [['k'], ['k']] [['b'], ['c']] [0, 0] rfl rfl
  obtain ⟨-, hfalse⟩ := hset [['k'], ['x']] [['b'], ['c']] [0, 9] rfl rfl
  refine ⟨⟨htrue.mpr (by decide), (congrFun hserver _).trans (by decide)⟩, ?_, ?_⟩
  · exact Bool.eq_false_iff.mpr fun h => absurd (hfalse.mp h) (by decide)
  · exact (hget [['k'], ['x']]).2.2.trans (by decide)

end CppUtil.RedisProxy

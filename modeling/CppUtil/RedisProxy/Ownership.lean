import CppUtil.RedisProxy.Heap

/-!
# What a `RedisProxy` makes it frees

`Heap.Holds`: besides what was there before, the memory has the context of the
proxy and the objects `e` that the caller knows of. Every function of the proxy
computes what the one of the same name in `CppUtil.RedisProxy.RedisProxy` does,
and leaves the objects of its caller alone.

`session_frees`: however the calls of hiredis turn out and whichever addresses
the allocator hands out, nothing is used that is not there, and with the proxy
all its objects are gone.
-/

namespace CppUtil.RedisProxy

open Lang Lib

theorem context_eq {m : Memory Object} (h : m p = some (.context ctx)) : context m p = .ok ctx := by
  rw [context, Memory.load, h]
  rfl

theorem reply_eq {m : Memory Object} (h : m p = some (.reply r)) : reply m p = .ok r := by
  rw [reply, Memory.load, h]
  rfl

theorem chars_eq {m : Memory Object} (h : m p = some (.chars text)) :
    chars m p = .ok (cString text) := by
  rw [chars, Memory.load, h]
  rfl

namespace Heap

variable {σ : Type} {redis : Hiredis σ} {alloc : Nat → Ptr} {m₀ : Memory Object}
  {h h' : Heap σ} {w : World σ} {e : List (Ptr × Object)}

def own (h : Heap σ) (w : World σ) : List (Ptr × Object) :=
  w.ctx_.toList.map fun ctx => (h.ctx_, .context ctx)

/-- The proxy `h` is as `w`, and the memory has its context and the objects `e`
more than `m₀`. -/
structure Holds (m₀ : Memory Object) (h : Heap σ) (w : World σ) (e : List (Ptr × Object)) : Prop where
  world : h.world = { w with ctx_ := none }
  set : h.ctx_ ≠ nullptr ↔ w.ctx_.isSome
  cells : Cells m₀ h.memory (h.own w ++ e)

namespace Holds

theorem perm (hh : Holds m₀ h w e) (hperm : e.Perm e') : Holds m₀ h w e' :=
  ⟨hh.world, hh.set, hh.cells.perm (hperm.append_left _)⟩

theorem mem (hh : Holds m₀ h w e) (hc : c ∈ e) : h.memory c.1 = some c.2 :=
  hh.cells.holds c (List.mem_append_right _ hc)

theorem context_mem (hh : Holds m₀ h w e) (hctx : w.ctx_ = some ctx) :
    h.memory h.ctx_ = some (.context ctx) :=
  hh.cells.holds (h.ctx_, .context ctx) (List.mem_append_left _ (by simp [own, hctx]))

theorem gives_new (hh : Holds m₀ h w e) : Gives (h.new alloc o) fun r =>
    r.1 ≠ nullptr ∧ Holds m₀ r.2 w ((r.1, o) :: e) := by
  refine hh.cells.gives_new.bind ?_
  rintro m ⟨hset, hcells⟩
  exact ⟨hset, hh.world, hh.set, hcells.perm List.perm_middle.symm⟩

theorem gives_delete (hh : Holds m₀ h w ((p, o) :: e)) :
    Gives (h.delete p) fun h' => Holds m₀ h' w e := by
  refine hh.cells.gives_delete.bind ?_
  rintro m hcells
  exact ⟨hh.world, hh.set, hcells⟩

theorem gives_onContext (hh : Holds m₀ h w e) (hctx : w.ctx_.isSome)
    {f : World σ → α × World σ} (hf : (f w).2.ctx_.isSome) :
    Gives (h.onContext h.ctx_ f) fun r => r.1 = (f w).1 ∧ Holds m₀ r.2 (f w).2 e := by
  obtain ⟨ctx, hctx⟩ := Option.isSome_iff_exists.mp hctx
  obtain ⟨ctx', hctx'⟩ := Option.isSome_iff_exists.mp hf
  have hw : { h.world with ctx_ := some ctx } = w := by
    rw [hh.world, ← hctx]
  refine (Gives.of_eq (context_eq (hh.context_mem hctx))).bind ?_
  rintro ctx rfl
  simp only [hw]
  have hcells : Cells m₀ h.memory ([] ++ (h.ctx_, .context ctx) :: e) := by
    simpa [own, hctx] using hh.cells
  refine hcells.gives_store.bind ?_
  rintro m hcells
  refine ⟨rfl, rfl, ?_, ?_⟩
  · simp [hh.set, hctx, hctx']
  · simpa [own, hctx'] using hcells

theorem gives_getErrMsg (hh : Holds m₀ h w e) : Gives h.getErrMsg fun _ => True := by
  rw [getErrMsg]
  split
  · trivial
  · next hset =>
    obtain ⟨ctx, hctx⟩ := Option.isSome_iff_exists.mp (hh.set.mp hset)
    rw [context_eq (hh.context_mem hctx)]
    trivial

theorem gives_close (hh : Holds m₀ h w e) :
    Gives h.close fun h' => Holds m₀ h' (RedisProxy.close w) e := by
  cases hctx : w.ctx_ with
  | none =>
    have hnull : ¬ h.ctx_ ≠ nullptr := by simp [hh.set, hctx]
    rw [Heap.close, if_neg hnull]
    have hsame : RedisProxy.close w = w := by simp [RedisProxy.close, hctx]
    rw [hsame]
    exact hh
  | some ctx =>
    have hset : h.ctx_ ≠ nullptr := by simp [hh.set, hctx]
    rw [Heap.close, if_pos hset]
    have hcells : Cells m₀ h.memory ([] ++ (h.ctx_, .context ctx) :: e) := by
      simpa [own, hctx] using hh.cells
    refine Gives.bind (Q := fun h' => Cells m₀ h'.memory e ∧ h'.world = h.world) ?_ ?_
    · refine (Gives.of_eq (context_eq (hh.context_mem hctx))).bind ?_
      rintro ctx rfl
      refine hcells.gives_delete.bind ?_
      rintro m hm
      exact ⟨hm, rfl⟩
    · rintro h' ⟨hm, hworld⟩
      refine ⟨?_, ?_, ?_⟩
      · simp [hworld, hh.world, RedisProxy.close, hctx, RedisProxy.redisFree]
      · simp [RedisProxy.close, hctx, RedisProxy.redisFree]
      · simpa [own, RedisProxy.close, hctx, RedisProxy.redisFree] using hm

end Holds

-- ---------------------------------------------------------------------------
-- hiredis
-- ---------------------------------------------------------------------------

variable (redis)

theorem ctx_redisSetTimeout (w : World σ) :
    (RedisProxy.redisSetTimeout redis w).2.ctx_ = w.ctx_ := by
  obtain ⟨out, w', hcall, hctx, -⟩ := call_spec redis w
  simp only [RedisProxy.redisSetTimeout, hcall]
  cases out <;> exact hctx

theorem isSome_redisAppendCommand (i : Nat) (args : List Str) (w : World σ) :
    (redisAppendCommand redis i args w).2.ctx_.isSome = w.ctx_.isSome := by
  obtain ⟨out, w', hcall, hctx, -⟩ := call_spec redis w
  simp only [redisAppendCommand, hcall]
  cases out with
  | ok => cases hw : w'.ctx_ <;> simp [hw, ← hctx]
  | null | error => exact congrArg Option.isSome hctx

theorem isSome_redisGetReply (old : Option RedisReply) (w : World σ) :
    (RedisProxy.redisGetReply redis old w).2.2.ctx_.isSome = w.ctx_.isSome := by
  obtain ⟨out, w', hcall, hctx, -⟩ := call_spec redis w
  simp only [RedisProxy.redisGetReply, hcall]
  cases out with
  | ok =>
    rw [← hctx]
    rcases hw : w'.ctx_ with _ | ⟨_ | ⟨x, xs⟩, err⟩ <;> simp [hw]
  | null | error => exact congrArg Option.isSome hctx

theorem isSome_redisCommand (args : List Str) (w : World σ) :
    (redisCommand redis args w).2.ctx_.isSome = w.ctx_.isSome := by
  rw [← isSome_redisAppendCommand redis 0 args w, redisCommand]
  rcases redisAppendCommand redis 0 args w with ⟨_ | _, w'⟩
  · rfl
  · have hget := isSome_redisGetReply redis none w'
    simp only
    rcases hr : RedisProxy.redisGetReply redis none w' with ⟨_ | _, reply, w''⟩ <;>
      simpa [hr] using hget

theorem redisGetReply_old (old : Option RedisReply) (w : World σ) :
    RedisProxy.redisGetReply redis old w =
      ((RedisProxy.redisGetReply redis none w).1,
        if (RedisProxy.redisGetReply redis none w).1 then
          (RedisProxy.redisGetReply redis none w).2.1 else old,
        (RedisProxy.redisGetReply redis none w).2.2) := by
  obtain ⟨out, w', hcall, -⟩ := call_spec redis w
  simp only [RedisProxy.redisGetReply, hcall]
  cases out with
  | ok => rcases hw : w'.ctx_ with _ | ⟨_ | ⟨x, xs⟩, err⟩ <;> simp [hw]
  | null | error => simp

theorem isSome_connect (w : World σ) :
    (RedisProxy.connect redis w).1 = (RedisProxy.connect redis w).2.ctx_.isSome := by
  rw [RedisProxy.connect]
  cases hctx : w.ctx_ with
  | some ctx => simp [hctx]
  | none =>
    simp only
    generalize RedisProxy.redisConnectWithTimeout redis w = w₁
    rcases hctx₁ : w₁.ctx_ with _ | ⟨xs, _ | _⟩
    · simp
    · rcases hr : RedisProxy.redisSetTimeout redis w₁ with ⟨_ | _, w₂⟩
      · simp
      · have hset : w₂.ctx_ = some ⟨xs, false⟩ := by
          simpa [hr, hctx₁] using ctx_redisSetTimeout redis w₁
        simp [hset]
    · simp

variable {redis}

def replyCells (p : Ptr) (r : Option RedisReply) : List (Ptr × Object) :=
  r.toList.map fun r => (p, .reply r)

def argCells (args : List (Ptr × Str)) : List (Ptr × Object) := args.map fun a => (a.1, .chars a.2)

theorem mapM_chars (hargs : ∀ c ∈ argCells args, m c.1 = some c.2) :
    (args.map Prod.fst).mapM (chars m) = .ok (args.map fun a => cString a.2) := by
  induction args with
  | nil => rfl
  | cons a args ih =>
    rw [argCells, List.map_cons, List.forall_mem_cons] at hargs
    rw [List.map_cons, List.mapM_cons, chars_eq hargs.1, ih hargs.2]
    rfl

namespace Holds

theorem gives_newReply (hh : Holds m₀ h w e) : Gives (h.newReply alloc r) fun x =>
    (x.1 ≠ nullptr ↔ r.isSome) ∧ Holds m₀ x.2 w (replyCells x.1 r ++ e) := by
  cases r with
  | none => exact ⟨by simp, hh⟩
  | some r =>
    refine hh.gives_new.mono ?_
    rintro ⟨p, h'⟩ ⟨hset, hh'⟩
    exact ⟨by simpa using hset, hh'⟩

theorem gives_freeReplyObject (hh : Holds m₀ h w ((p, .reply r) :: e)) :
    Gives (h.freeReplyObject p) fun h' => Holds m₀ h' w e := by
  refine (Gives.of_eq (reply_eq (hh.mem List.mem_cons_self))).bind ?_
  rintro _ rfl
  exact gives_delete hh

theorem gives_freeIfSet (hh : Holds m₀ h w (replyCells p r ++ e)) (hp : p ≠ nullptr ↔ r.isSome) :
    Gives (h.freeIfSet p) fun h' => Holds m₀ h' w e := by
  rw [freeIfSet]
  cases r with
  | none =>
    rw [if_neg (by simpa using hp)]
    exact hh
  | some r =>
    rw [if_pos (by simpa using hp)]
    exact hh.gives_freeReplyObject

theorem gives_giveUp (hh : Holds m₀ h w e) (a : α) :
    Gives (do h.getErrMsg; let h ← h.close; .ok (a, h)) fun x =>
      x.1 = a ∧ Holds m₀ x.2 (RedisProxy.close w) e := by
  refine hh.gives_getErrMsg.bind fun _ _ => ?_
  refine hh.gives_close.bind fun h' hh' => ?_
  exact ⟨rfl, hh'⟩

theorem gives_redisConnectWithTimeout (hh : Holds m₀ h w e) (hctx : w.ctx_ = none) :
    Gives (h.redisConnectWithTimeout redis alloc) fun x =>
      Holds m₀ { x.2 with ctx_ := x.1 } (RedisProxy.redisConnectWithTimeout redis w) e := by
  have hworld : h.world = w := by rw [hh.world, ← hctx]
  have hcells : Cells m₀ h.memory e := by simpa [own, hctx] using hh.cells
  simp only [Heap.redisConnectWithTimeout, hworld]
  generalize RedisProxy.redisConnectWithTimeout redis w = w₁
  cases hctx₁ : w₁.ctx_ with
  | none => exact ⟨rfl, by simp [hctx₁], by simpa [own, hctx₁] using hcells⟩
  | some ctx =>
    refine hcells.gives_new.bind ?_
    rintro m ⟨hset, hm⟩
    exact ⟨rfl, by simpa [hctx₁] using hset, by simpa [own, hctx₁] using hm⟩

theorem gives_connect (hh : Holds m₀ h w e) : Gives (h.connect redis alloc) fun x =>
    x.1 = (RedisProxy.connect redis w).1 ∧ Holds m₀ x.2 (RedisProxy.connect redis w).2 e := by
  rw [Heap.connect, RedisProxy.connect]
  cases hctx : w.ctx_ with
  | some ctx =>
    rw [if_pos (by simp [hh.set, hctx])]
    exact ⟨rfl, hh⟩
  | none =>
    rw [if_neg (by simp [hh.set, hctx])]
    refine (hh.gives_redisConnectWithTimeout hctx).bind ?_
    simp only
    generalize RedisProxy.redisConnectWithTimeout redis w = w₁
    rintro ⟨p, h₁⟩ hh₁
    rcases hctx₁ : w₁.ctx_ with _ | ⟨xs, err⟩
    · have hnull : p = nullptr := by simpa [hctx₁] using hh₁.set
      simp only [hnull, if_true]
      subst hnull
      exact hh₁.gives_giveUp false
    · have hset : p ≠ nullptr := by simpa [hctx₁] using hh₁.set
      simp only [if_neg hset, context_eq (hh₁.context_mem hctx₁)]
      cases err with
      | true => exact hh₁.gives_giveUp false
      | false =>
        refine (hh₁.gives_onContext (f := RedisProxy.redisSetTimeout redis) ?_ ?_).bind ?_
        · simp [hctx₁]
        · simp [ctx_redisSetTimeout, hctx₁]
        · rcases RedisProxy.redisSetTimeout redis w₁ with ⟨ok, w₂⟩
          rintro ⟨ok', h₂⟩ ⟨rfl, hh₂⟩
          cases ok' with
          | true => exact ⟨rfl, hh₂⟩
          | false => exact hh₂.gives_giveUp false

theorem gives_parseRedisReply (hh : Holds m₀ h w (replyCells p r ++ e))
    (hp : p ≠ nullptr ↔ r.isSome) :
    Gives (h.parseRedisReply p) fun x => x.1 = (RedisProxy.parseRedisReply r w).1 ∧
      Holds m₀ x.2 (RedisProxy.parseRedisReply r w).2 (replyCells p r ++ e) := by
  rw [Heap.parseRedisReply]
  cases r with
  | none =>
    rw [if_pos (by simpa using hp)]
    exact hh.gives_giveUp _
  | some r =>
    rw [if_neg (by simpa using hp)]
    refine (Gives.of_eq (reply_eq (hh.mem List.mem_cons_self))).bind ?_
    rintro r rfl
    cases r with
    | error str => exact hh.gives_getErrMsg.bind fun _ _ => ⟨rfl, hh⟩
    | string | array | integer | nil | status | other => exact ⟨rfl, hh⟩

theorem gives_redisvCommand (hh : Holds m₀ h w e) (hctx : w.ctx_.isSome) :
    Gives (h.redisvCommand redis alloc h.ctx_ args) fun x =>
      (x.1 ≠ nullptr ↔ (redisCommand redis args w).1.isSome) ∧
        Holds m₀ x.2 (redisCommand redis args w).2
          (replyCells x.1 (redisCommand redis args w).1 ++ e) := by
  refine (hh.gives_onContext (f := redisCommand redis args) hctx ?_).bind ?_
  · rw [isSome_redisCommand, hctx]
  · rcases redisCommand redis args w with ⟨r, w'⟩
    rintro ⟨r', h'⟩ ⟨rfl, hh'⟩
    exact hh'.gives_newReply

theorem gives_executeFormat (hh : Holds m₀ h w e) :
    Gives (h.executeFormat redis alloc args) fun x =>
      x.1 = (executeArgs redis args w).1 ∧ Holds m₀ x.2 (executeArgs redis args w).2 e := by
  rw [Heap.executeFormat, executeArgs]
  refine hh.gives_connect.bind ?_
  rcases hc : RedisProxy.connect redis w with ⟨ok, w₁⟩
  have hsome : ok = w₁.ctx_.isSome := by simpa [hc] using isSome_connect redis w
  rintro ⟨ok', h₁⟩ ⟨rfl, hh₁⟩
  cases ok' with
  | false => exact ⟨rfl, hh₁⟩
  | true =>
    simp only [if_true]
    refine (hh₁.gives_redisvCommand hsome.symm).bind ?_
    rcases redisCommand redis args w₁ with ⟨r, w₂⟩
    rintro ⟨q, h₂⟩ ⟨hq, hh₂⟩
    refine (hh₂.gives_parseRedisReply hq).bind ?_
    rcases RedisProxy.parseRedisReply r w₂ with ⟨resp, w₃⟩
    rintro ⟨resp', h₃⟩ ⟨rfl, hh₃⟩
    refine (hh₃.gives_freeIfSet hq).bind ?_
    rintro h₄ hh₄
    exact ⟨rfl, hh₄⟩

end Holds

-- ---------------------------------------------------------------------------
-- Commands
-- ---------------------------------------------------------------------------

def Command.ofArgs (args : List (Ptr × Str)) (reply : Ptr) : Command :=
  ⟨args.map Prod.fst, args.map Prod.fst, reply⟩

def shown (args : List (Ptr × Str)) : RedisCommand := ⟨args.map Prod.snd⟩

variable {args : List (Ptr × Str)} {argss : List (List (Ptr × Str))}

theorem args_shown (args : List (Ptr × Str)) : (shown args).args = args.map fun a => cString a.2 := by
  simp [shown, RedisCommand.args]

namespace Holds

theorem mapM_chars (hh : Holds m₀ h w e) (hargs : argCells args ⊆ e) :
    (args.map Prod.fst).mapM (chars h.memory) = .ok (shown args).args := by
  rw [args_shown]
  exact Heap.mapM_chars fun c hc => hh.mem (hargs hc)

theorem gives_getCmdStr (hh : Holds m₀ h w e) (hargs : argCells args ⊆ e) :
    Gives (h.getCmdStr (.ofArgs args q)) fun _ => True := by
  rw [getCmdStr, Command.ofArgs, hh.mapM_chars hargs]
  trivial

theorem gives_pushAll (hh : Holds m₀ h w (argCells args ++ e)) :
    Gives (h.pushAll alloc buffers (.ofArgs args q)) fun x => ∃ args',
      args'.map Prod.snd = args.map Prod.snd ++ buffers ∧ x.1 = .ofArgs args' q ∧
        Holds m₀ x.2 w (argCells args' ++ e) := by
  induction buffers generalizing h args with
  | nil => exact ⟨args, (List.append_nil _).symm, rfl, hh⟩
  | cons buffer buffers ih =>
    refine (hh.gives_new.bind ?_).bind (Q := fun x => ∃ p, x.1 = .ofArgs (args ++ [(p, buffer)]) q ∧
      Holds m₀ x.2 w (argCells (args ++ [(p, buffer)]) ++ e)) ?_
    · rintro ⟨p, h₁⟩ ⟨-, hh₁⟩
      refine ⟨p, by simp [Command.ofArgs], hh₁.perm ?_⟩
      simpa [argCells] using List.perm_middle.symm
    · rintro ⟨cmd, h₁⟩ ⟨p, rfl, hh₁⟩
      refine (ih hh₁).mono ?_
      rintro x ⟨args', hargs', hx, hh'⟩
      exact ⟨args', by simpa using hargs', hx, hh'⟩

theorem gives_command (hh : Holds m₀ h w e) (cmd : RedisCommand) :
    Gives (h.command alloc cmd) fun x => ∃ args, shown args = cmd ∧ x.1 = .ofArgs args nullptr ∧
      Holds m₀ x.2 w (argCells args ++ e) := by
  have hnone : Holds m₀ h w (argCells [] ++ e) := hh
  refine hnone.gives_pushAll.mono ?_
  rintro x ⟨args, hargs, hx, hh'⟩
  refine ⟨args, ?_, hx, hh'⟩
  rw [shown, hargs]
  rfl

theorem gives_deleteAll (hh : Holds m₀ h w (argCells args ++ e)) :
    Gives (h.deleteAll (args.map Prod.fst)) fun h' => Holds m₀ h' w e := by
  induction args generalizing h with
  | nil => exact hh
  | cons a args ih =>
    refine (gives_delete hh).bind ?_
    rintro h₁ hh₁
    exact ih hh₁

theorem gives_destroy (hh : Holds m₀ h w (replyCells q r ++ (argCells args ++ e)))
    (hq : q ≠ nullptr ↔ r.isSome) :
    Gives (h.destroy (.ofArgs args q)) fun h' => Holds m₀ h' w e := by
  refine (hh.gives_freeIfSet hq).bind ?_
  rintro h₁ hh₁
  exact hh₁.gives_deleteAll

theorem gives_commands (hh : Holds m₀ h w e) (cmds : List RedisCommand) :
    Gives (h.commands alloc cmds) fun x => ∃ argss, List.map shown argss = cmds ∧
      x.1 = argss.map (fun args => .ofArgs args nullptr) ∧
        Holds m₀ x.2 w (argss.flatMap argCells ++ e) := by
  induction cmds generalizing h e with
  | nil => exact ⟨[], rfl, rfl, hh⟩
  | cons cmd cmds ih =>
    refine (hh.gives_command cmd).bind ?_
    rintro ⟨c, h₁⟩ ⟨args, rfl, rfl, hh₁⟩
    refine (ih hh₁).bind ?_
    rintro ⟨cs, h₂⟩ ⟨argss, rfl, rfl, hh₂⟩
    refine ⟨args :: argss, rfl, rfl, hh₂.perm ?_⟩
    rw [List.flatMap_cons, List.append_assoc]
    exact List.perm_append_comm_assoc ..

theorem gives_destroyAll (hh : Holds m₀ h w (argss.flatMap argCells ++ e)) :
    Gives (h.destroyAll (argss.map fun args => .ofArgs args nullptr)) fun h' => Holds m₀ h' w e := by
  induction argss generalizing h with
  | nil => exact hh
  | cons args argss ih =>
    rw [List.flatMap_cons, List.append_assoc] at hh
    refine (gives_destroy (r := none) hh (by simp)).bind ?_
    rintro h₁ hh₁
    exact ih hh₁

theorem gives_redisCommandArgv (hh : Holds m₀ h w e) (hargs : argCells args ⊆ e)
    (hctx : w.ctx_.isSome) :
    Gives (h.redisCommandArgv redis alloc h.ctx_ (args.map Prod.fst)) fun x =>
      (x.1 ≠ nullptr ↔ (redisCommand redis (shown args).args w).1.isSome) ∧
        Holds m₀ x.2 (redisCommand redis (shown args).args w).2
          (replyCells x.1 (redisCommand redis (shown args).args w).1 ++ e) := by
  refine (Gives.of_eq (hh.mapM_chars hargs)).bind ?_
  rintro _ rfl
  exact hh.gives_redisvCommand hctx

theorem gives_redisAppendCommandArgv (hh : Holds m₀ h w e) (hargs : argCells args ⊆ e)
    (hctx : w.ctx_.isSome) :
    Gives (h.redisAppendCommandArgv redis h.ctx_ i (args.map Prod.fst)) fun x =>
      x.1 = (redisAppendCommand redis i (shown args).args w).1 ∧
        Holds m₀ x.2 (redisAppendCommand redis i (shown args).args w).2 e := by
  refine (Gives.of_eq (hh.mapM_chars hargs)).bind ?_
  rintro _ rfl
  exact hh.gives_onContext hctx (by rw [isSome_redisAppendCommand, hctx])

theorem gives_execute (hh : Holds m₀ h w (argCells args ++ e)) :
    Gives (h.execute redis alloc (.ofArgs args nullptr)) fun x =>
      x.1 = (RedisProxy.execute redis (shown args) w).1 ∧
      ∃ q r, x.2.1 = .ofArgs args q ∧ (q ≠ nullptr ↔ r.isSome) ∧
        Holds m₀ x.2.2 (RedisProxy.execute redis (shown args) w).2
          (replyCells q r ++ (argCells args ++ e)) := by
  rw [Heap.execute, RedisProxy.execute, executeArgs]
  refine hh.gives_connect.bind ?_
  rcases hc : RedisProxy.connect redis w with ⟨ok, w₁⟩
  have hsome : ok = w₁.ctx_.isSome := by simpa [hc] using isSome_connect redis w
  rintro ⟨ok', h₁⟩ ⟨rfl, hh₁⟩
  cases ok' with
  | false => exact ⟨rfl, nullptr, none, rfl, by simp, hh₁⟩
  | true =>
    simp only [if_true]
    refine (hh₁.gives_redisCommandArgv (List.subset_append_left ..) hsome.symm).bind ?_
    rcases redisCommand redis (shown args).args w₁ with ⟨r, w₂⟩
    rintro ⟨q, h₂⟩ ⟨hq, hh₂⟩
    have hargs : argCells args ⊆ replyCells q r ++ (argCells args ++ e) := fun c hc =>
      List.mem_append_right _ (List.mem_append_left _ hc)
    refine (hh₂.gives_getCmdStr hargs).bind fun _ _ => ?_
    refine (hh₂.gives_parseRedisReply hq).bind ?_
    rcases RedisProxy.parseRedisReply r w₂ with ⟨resp, w₃⟩
    rintro ⟨resp', h₃⟩ ⟨rfl, hh₃⟩
    exact ⟨rfl, q, r, rfl, hq, hh₃⟩

theorem gives_executeArgv (hh : Holds m₀ h w e) (vals : List Str) :
    Gives (h.executeArgv redis alloc vals) fun x =>
      x.1 = (RedisProxy.executeArgv redis vals w).1 ∧
        Holds m₀ x.2 (RedisProxy.executeArgv redis vals w).2 e := by
  rw [RedisProxy.executeArgv]
  refine (hh.gives_command _).bind ?_
  rintro ⟨rc, h₁⟩ ⟨args, hargs, rfl, hh₁⟩
  rw [← hargs]
  refine hh₁.gives_execute.bind ?_
  rcases RedisProxy.execute redis (shown args) w with ⟨resp, w₂⟩
  rintro ⟨resp', rc', h₂⟩ ⟨rfl, q, r, rfl, hq, hh₂⟩
  refine (hh₂.gives_destroy hq).bind ?_
  rintro h₃ hh₃
  exact ⟨rfl, hh₃⟩

-- ---------------------------------------------------------------------------
-- Pipelines
-- ---------------------------------------------------------------------------

theorem gives_appendLoop (hh : Holds m₀ h w e) (hargs : ∀ args ∈ argss, argCells args ⊆ e)
    (hctx : w.ctx_.isSome) :
    Gives (h.appendLoop redis i (argss.map fun args => .ofArgs args nullptr)) fun x =>
      x.1 = (RedisProxy.appendLoop redis i (argss.map shown) w).1 ∧
        Holds m₀ x.2 (RedisProxy.appendLoop redis i (argss.map shown) w).2 e ∧
        (x.1 = true → (RedisProxy.appendLoop redis i (argss.map shown) w).2.ctx_.isSome) := by
  induction argss generalizing h w i with
  | nil => exact ⟨rfl, hh, fun _ => hctx⟩
  | cons args argss ih =>
    rw [List.forall_mem_cons] at hargs
    simp only [List.map_cons, Heap.appendLoop, RedisProxy.appendLoop]
    refine (hh.gives_redisAppendCommandArgv hargs.1 hctx).bind ?_
    rcases hr : redisAppendCommand redis i (shown args).args w with ⟨ok, w₁⟩
    have hctx₁ : w₁.ctx_.isSome := by
      simpa [hr, hctx] using isSome_redisAppendCommand redis i (shown args).args w
    rintro ⟨ok', h₁⟩ ⟨rfl, hh₁⟩
    cases ok' with
    | true => exact ih hh₁ hargs.2 hctx₁
    | false =>
      refine (hh₁.gives_getCmdStr hargs.1).bind fun _ _ => ?_
      refine hh₁.gives_close.bind fun h₂ hh₂ => ?_
      exact ⟨rfl, hh₂, by simp⟩

theorem gives_redisGetReply (hh : Holds m₀ h w e) (hctx : w.ctx_.isSome) :
    Gives (h.redisGetReply redis alloc h.ctx_ q) fun x =>
      x.1 = (RedisProxy.redisGetReply redis none w).1 ∧
      if (RedisProxy.redisGetReply redis none w).1 then
        (x.2.1 ≠ nullptr ↔ (RedisProxy.redisGetReply redis none w).2.1.isSome) ∧
          Holds m₀ x.2.2 (RedisProxy.redisGetReply redis none w).2.2
            (replyCells x.2.1 (RedisProxy.redisGetReply redis none w).2.1 ++ e)
      else Holds m₀ x.2.2 (RedisProxy.redisGetReply redis none w).2.2 e := by
  refine (hh.gives_onContext hctx (by simp [isSome_redisGetReply, hctx])).bind ?_
  rcases RedisProxy.redisGetReply redis none w with ⟨ok, r, w₁⟩
  rintro ⟨⟨ok', r'⟩, h₁⟩ ⟨heq, hh₁⟩
  cases heq
  cases ok with
  | false => exact ⟨rfl, hh₁⟩
  | true =>
    refine hh₁.gives_newReply.bind ?_
    rintro ⟨p, h₂⟩ ⟨hp, hh₂⟩
    exact ⟨rfl, hp, hh₂⟩

/-- The variable may hold the address of a reply that was freed: it is looked at
only if it was set again. -/
theorem gives_replyLoop (hh : Holds m₀ h w e) (hargs : ∀ args ∈ argss, argCells args ⊆ e)
    (hctx : w.ctx_.isSome) (old : Option RedisReply) :
    Gives (h.replyLoop redis alloc q (argss.map fun args => .ofArgs args nullptr)) fun x =>
      x.1 = (RedisProxy.replyLoop redis old argss.length w).1 ∧
      x.2.1 = (RedisProxy.replyLoop redis old argss.length w).2.1 ∧
        Holds m₀ x.2.2 (RedisProxy.replyLoop redis old argss.length w).2.2 e := by
  induction argss generalizing h w q old with
  | nil => exact ⟨rfl, rfl, hh⟩
  | cons args argss ih =>
    rw [List.forall_mem_cons] at hargs
    simp only [List.map_cons, List.length_cons, Heap.replyLoop, RedisProxy.replyLoop]
    rw [redisGetReply_old]
    refine (hh.gives_redisGetReply hctx).bind ?_
    rcases hr : RedisProxy.redisGetReply redis none w with ⟨ok, r, w₁⟩
    have hctx₁ : w₁.ctx_.isSome := by
      simpa [hr, hctx] using isSome_redisGetReply redis none w
    rintro ⟨ok', p, h₁⟩ ⟨rfl, hp⟩
    cases ok' with
    | false =>
      simp only [Bool.not_false, or_true, if_true]
      refine hp.gives_close.bind fun h₂ hh₂ => ?_
      exact ⟨rfl, rfl, hh₂⟩
    | true =>
      obtain ⟨hset, hh₁⟩ := hp
      cases r with
      | none =>
        have hnull : p = nullptr := by simpa using hset
        simp only [hnull, true_or, if_true]
        refine hh₁.gives_close.bind fun h₂ hh₂ => ?_
        exact ⟨rfl, rfl, hh₂⟩
      | some r =>
        have hnot : ¬ (p = nullptr ∨ (!true) = true) := by simpa using hset
        simp only [if_neg hnot]
        have hargs₁ : argCells args ⊆ replyCells p (some r) ++ e := fun c hc =>
          List.mem_append_right _ (hargs.1 hc)
        refine (hh₁.gives_getCmdStr hargs₁).bind fun _ _ => ?_
        refine (hh₁.gives_parseRedisReply hset).bind ?_
        rintro ⟨resp, h₂⟩ ⟨rfl, hh₂⟩
        refine (gives_freeReplyObject hh₂).bind fun h₃ hh₃ => ?_
        refine (ih hh₃ hargs.2 hctx₁ (some r)).bind ?_
        simp only [RedisProxy.parseRedisReply, if_true]
        rcases RedisProxy.replyLoop redis (some r) argss.length w₁ with ⟨done, resps, w₂⟩
        rintro ⟨done', resps', h₄⟩ ⟨rfl, rfl, hh₄⟩
        exact ⟨rfl, rfl, hh₄⟩

theorem gives_pipeExecute (hh : Holds m₀ h w e) (hargs : ∀ args ∈ argss, argCells args ⊆ e) :
    Gives (h.pipeExecute redis alloc (argss.map fun args => .ofArgs args nullptr)) fun x =>
      x.1 = (RedisProxy.pipeExecute redis (argss.map shown) w).1 ∧
      x.2.1 = (RedisProxy.pipeExecute redis (argss.map shown) w).2.1 ∧
        Holds m₀ x.2.2 (RedisProxy.pipeExecute redis (argss.map shown) w).2.2 e := by
  rw [Heap.pipeExecute, RedisProxy.pipeExecute, List.length_map]
  refine hh.gives_connect.bind ?_
  rcases hc : RedisProxy.connect redis w with ⟨ok, w₁⟩
  have hsome : ok = w₁.ctx_.isSome := by simpa [hc] using isSome_connect redis w
  rintro ⟨ok', h₁⟩ ⟨rfl, hh₁⟩
  cases ok' with
  | false => exact ⟨rfl, rfl, hh₁⟩
  | true =>
    simp only [if_true]
    refine (hh₁.gives_appendLoop hargs hsome.symm).bind ?_
    rcases RedisProxy.appendLoop redis 0 (argss.map shown) w₁ with ⟨ok, w₂⟩
    rintro ⟨ok', h₂⟩ ⟨rfl, hh₂, hctx₂⟩
    cases ok' with
    | false => exact ⟨rfl, rfl, hh₂⟩
    | true => exact hh₂.gives_replyLoop hargs (hctx₂ rfl) none

theorem gives_pipe (hh : Holds m₀ h w e) (cmds : List RedisCommand) :
    Gives (h.pipe redis alloc cmds) fun x =>
      x.1 = (RedisProxy.pipeExecute redis cmds w).1 ∧
      x.2.1 = (RedisProxy.pipeExecute redis cmds w).2.1 ∧
        Holds m₀ x.2.2 (RedisProxy.pipeExecute redis cmds w).2.2 e := by
  refine (hh.gives_commands cmds).bind ?_
  rintro ⟨cs, h₁⟩ ⟨argss, rfl, rfl, hh₁⟩
  have hargs : ∀ args ∈ argss, argCells args ⊆ argss.flatMap argCells ++ e := fun args hmem c hc =>
    List.mem_append_left _ (List.mem_flatMap.mpr ⟨args, hmem, hc⟩)
  refine (hh₁.gives_pipeExecute hargs).bind ?_
  rcases RedisProxy.pipeExecute redis (argss.map shown) w with ⟨ok, resps, w₂⟩
  rintro ⟨ok', resps', h₂⟩ ⟨rfl, rfl, hh₂⟩
  refine hh₂.gives_destroyAll.bind fun h₃ hh₃ => ?_
  exact ⟨rfl, rfl, hh₃⟩

-- ---------------------------------------------------------------------------
-- Operations
-- ---------------------------------------------------------------------------

theorem gives_set (hh : Holds m₀ h w e) :
    Gives (h.set redis alloc key value expireTimeSec) fun x =>
      x.1 = (RedisProxy.set redis key value expireTimeSec w).1 ∧
        Holds m₀ x.2 (RedisProxy.set redis key value expireTimeSec w).2 e := by
  rw [Heap.set, RedisProxy.set]
  split
  · refine (hh.gives_executeArgv _).bind ?_
    rintro ⟨resp, h₁⟩ ⟨rfl, hh₁⟩
    exact ⟨rfl, hh₁⟩
  · refine (hh.gives_executeArgv _).bind ?_
    rintro ⟨resp, h₁⟩ ⟨rfl, hh₁⟩
    exact ⟨rfl, hh₁⟩

theorem gives_get (hh : Holds m₀ h w e) : Gives (h.get redis alloc key) fun x =>
    x.1 = (RedisProxy.get redis key w).1 ∧ Holds m₀ x.2 (RedisProxy.get redis key w).2 e := by
  refine (hh.gives_executeArgv _).bind ?_
  rintro ⟨resp, h₁⟩ ⟨rfl, hh₁⟩
  exact ⟨rfl, hh₁⟩

theorem gives_pipeSet (hh : Holds m₀ h w e) :
    Gives (h.pipeSet redis alloc keys values expireTimeSecs) fun x =>
      x.1 = (RedisProxy.pipeSet redis keys values expireTimeSecs w).1 ∧
        Holds m₀ x.2 (RedisProxy.pipeSet redis keys values expireTimeSecs w).2 e := by
  rw [Heap.pipeSet, RedisProxy.pipeSet]
  split
  · exact ⟨rfl, hh⟩
  · simp only
    generalize List.map _ (keys.zip (values.zip expireTimeSecs)) = cmds
    refine (hh.gives_pipe cmds).bind ?_
    rcases RedisProxy.pipeExecute redis cmds w with ⟨ok, resps, w₁⟩
    rintro ⟨ok', resps', h₁⟩ ⟨rfl, rfl, hh₁⟩
    cases ok' <;> exact ⟨rfl, hh₁⟩

theorem gives_pipeGet (hh : Holds m₀ h w e) :
    Gives (h.pipeGet redis alloc keys) fun x =>
      x.1 = (RedisProxy.pipeGet redis keys w).1 ∧
      x.2.1 = (RedisProxy.pipeGet redis keys w).2.1 ∧
        Holds m₀ x.2.2 (RedisProxy.pipeGet redis keys w).2.2 e := by
  rw [RedisProxy.pipeGet]
  refine (hh.gives_pipe _).bind ?_
  rcases RedisProxy.pipeExecute redis (keys.map getCommand) w with ⟨ok, resps, w₁⟩
  rintro ⟨ok', resps', h₁⟩ ⟨rfl, rfl, hh₁⟩
  cases ok' <;> exact ⟨rfl, rfl, hh₁⟩

theorem gives_operate (hh : Holds m₀ h w e) (op : Op) : Gives (h.operate redis alloc op) fun x =>
    x.1 = (op.run redis w).1 ∧ Holds m₀ x.2 (op.run redis w).2 e := by
  cases op with
  | execute args =>
    refine hh.gives_executeFormat.bind ?_
    rintro ⟨resp, h₁⟩ ⟨rfl, hh₁⟩
    exact ⟨rfl, hh₁⟩
  | executeArgv vals =>
    refine (hh.gives_executeArgv vals).bind ?_
    rintro ⟨resp, h₁⟩ ⟨rfl, hh₁⟩
    exact ⟨rfl, hh₁⟩
  | set key value expireTimeSec =>
    refine hh.gives_set.bind ?_
    rintro ⟨ok, h₁⟩ ⟨rfl, hh₁⟩
    exact ⟨rfl, hh₁⟩
  | get key =>
    refine hh.gives_get.bind ?_
    rintro ⟨v, h₁⟩ ⟨rfl, hh₁⟩
    exact ⟨rfl, hh₁⟩
  | pipeExecute cmds =>
    refine (hh.gives_pipe cmds).bind ?_
    rintro ⟨ok, resps, h₁⟩ ⟨rfl, rfl, hh₁⟩
    exact ⟨rfl, hh₁⟩
  | pipeSet keys values expireTimeSecs =>
    refine hh.gives_pipeSet.bind ?_
    rintro ⟨ok, h₁⟩ ⟨rfl, hh₁⟩
    exact ⟨rfl, hh₁⟩
  | pipeGet keys =>
    refine hh.gives_pipeGet.bind ?_
    rintro ⟨ok, values, h₁⟩ ⟨rfl, rfl, hh₁⟩
    exact ⟨rfl, hh₁⟩

theorem gives_operateAll (hh : Holds m₀ h w e) (ops : List Op) :
    Gives (h.operateAll redis alloc ops) fun x => ∃ w',
      (machine redis).run w ops = some (w', x.1) ∧ Holds m₀ x.2 w' e := by
  induction ops generalizing h w with
  | nil => exact ⟨w, rfl, hh⟩
  | cons op ops ih =>
    refine (hh.gives_operate op).bind ?_
    rintro ⟨result, h₁⟩ ⟨rfl, hh₁⟩
    have hworld : h₁.world = { (op.run redis w).2 with ctx_ := none } := hh₁.world
    have hh₂ : Holds m₀ { h₁ with world := { h₁.world with op := h₁.world.op + 1 } }
        { (op.run redis w).2 with op := (op.run redis w).2.op + 1 } e :=
      ⟨by simp [hworld], hh₁.set, hh₁.cells⟩
    refine (ih hh₂).bind ?_
    rintro ⟨outs, h₃⟩ ⟨w', hrun, hh₃⟩
    refine ⟨w', Machine.run_cons_iff.mpr ⟨_, _, _, rfl, hrun, ?_⟩, hh₃⟩
    rw [hh.world, hworld]
    rfl

end Holds

end Heap

/-- A proxy never uses what is not there, returns what it should, and leaves the
memory as it was. -/
theorem session_frees {σ : Type} (redis : Hiredis σ) (alloc : Nat → Ptr) (m : Memory Object)
    (server : σ) (ops : List Op) :
    session redis alloc m server ops ≠ .error .undefined ∧
    ∀ outs m', session redis alloc m server ops = .ok (outs, m') →
      m' = m ∧ ∃ w, (machine redis).run (.init server) ops = some (w, outs) := by
  have h : Gives (session redis alloc m server ops) fun x =>
      x.2 = m ∧ ∃ w, (machine redis).run (.init server) ops = some (w, x.1) := by
    have hinit : Heap.Holds m { memory := m, news := 0, ctx_ := nullptr, world := .init server }
        (.init server) [] := ⟨rfl, by simp [World.init], .nil m⟩
    refine (hinit.gives_operateAll ops).bind ?_
    rintro ⟨outs, h₁⟩ ⟨w, hrun, hh₁⟩
    refine hh₁.gives_close.bind fun h₂ hh₂ => ?_
    have hcells := hh₂.cells
    simp only [Heap.own, close_ctx] at hcells
    exact ⟨hcells.eq, w, hrun⟩
  exact ⟨h.not_undefined, fun outs m' hok => h.of_eq_ok hok⟩

def droppedRedis : Hiredis Unit where
  process _ _ := ((), .status "OK".toList)
  outcome n := if n = 5 then .error () else .ok

/-- The second reply is not there, and its variable still holds the first. -/
theorem session_frees_dropped :
    let alloc := fun n => BitVec.ofNat 64 (16 * n + 16)
    let ops := [Op.pipeSet ["a".toList, "b".toList] ["1".toList, "2".toList] [0, 0]]
    ∃ m', session droppedRedis alloc (fun _ => none) () ops = .ok ([⟨0, 0, 6, .flag false⟩], m') ∧
      m' = fun _ => none := by
  intro alloc ops
  have hok : (session droppedRedis alloc (fun _ => none) () ops).map Prod.fst =
      .ok [⟨0, 0, 6, .flag false⟩] := by rfl
  cases hs : session droppedRedis alloc (fun _ => none) () ops with
  | error stop =>
    rw [hs] at hok
    cases hok
  | ok r =>
    obtain ⟨outs, m'⟩ := r
    rw [hs] at hok
    cases hok
    exact ⟨m', rfl, ((session_frees ..).2 _ _ hs).1⟩

end CppUtil.RedisProxy

import CppUtil.RedisProxy.Replies

/-!
# What is lost on the way

A key goes to the server through `RedisCommand`, whose buffers hiredis reads as
C strings, and a value comes back through a C string as well. So `Set` and
`Get` are about the part before the first NUL: `set_get_iff` says that they
work as on a map exactly for keys and values without NUL.

The elements of an array are taken as strings, whatever their type is:
`array_kept_iff` says that an array comes through exactly if its elements are
strings that are not empty.
-/

namespace CppUtil.RedisProxy

open Lang

-- ---------------------------------------------------------------------------
-- Without failures
-- ---------------------------------------------------------------------------

variable {σ : Type} {redis : Hiredis σ} {w : World σ}

theorem call_ok (hok : ∀ n, redis.outcome n = .ok) (w : World σ) :
    call redis w = (.ok, { w with calls := w.calls + 1 }) := by
  simp [call, hok]

theorem connect_ok (hok : ∀ n, redis.outcome n = .ok) (h : Idle w) :
    ∃ w', connect redis w = (true, w') ∧ w'.server = w.server ∧ w'.ctx_ = some ⟨[], false⟩ := by
  rcases h with h | h
  · simp only [connect, h, redisConnectWithTimeout, redisSetTimeout, call_ok hok]
    exact ⟨_, rfl, rfl, rfl⟩
  · simp only [connect, h]
    exact ⟨_, rfl, rfl, h⟩

theorem executeArgs_ok (hok : ∀ n, redis.outcome n = .ok) (h : Idle w) (args : List Str) :
    ∃ w', executeArgs redis args w = ((redis.process w.server args).2.toResponse, w') ∧
      w'.server = (redis.process w.server args).1 ∧ Idle w' := by
  obtain ⟨w₁, hconn, hserver, hctx⟩ := connect_ok hok h
  simp only [executeArgs, hconn, redisCommand, redisAppendCommand, redisGetReply, call_ok hok, hctx,
    List.nil_append, parseRedisReply, hserver]
  exact ⟨_, rfl, rfl, .inr rfl⟩

@[simp] theorem RedisCommand.args_append (cmd : RedisCommand) (val : Str) :
    (cmd.append val).args = cmd.args ++ [cString val] := by
  simp [append, args, cString_strncpy]

-- ---------------------------------------------------------------------------
-- A map as the server
-- ---------------------------------------------------------------------------

def store (db : Str → Option Str) : List Str → (Str → Option Str) × RedisReply
  | [cmd, key, value] =>
    if cmd = "set".toList then (Function.update db key (some value), .status "OK".toList)
    else (db, .error "ERR".toList)
  | [cmd, key] =>
    if cmd = "get".toList then (db, (db key).elim .nil .string) else (db, .error "ERR".toList)
  | _ => (db, .error "ERR".toList)

def storeRedis : Hiredis (Str → Option Str) where
  process := store
  outcome _ := .ok

theorem set_store {w : World (Str → Option Str)} (h : Idle w) (key value : Str) :
    ∃ w', set storeRedis key value 0 w = (true, w') ∧ Idle w' ∧
      w'.server = Function.update w.server (cString key) (some (cString value)) := by
  have hargs : (setCommand key value 0).args = ["set".toList, cString key, cString value] := by
    have hnone : ¬ (0 : UInt32) > 0 := by decide
    simp only [setCommand, if_neg hnone, RedisCommand.args_append]
    rfl
  obtain ⟨w', hexec, hserver, hidle⟩ :=
    @executeArgs_ok _ storeRedis w (fun _ => rfl) h (setCommand key value 0).args
  rw [set_eq, hexec]
  rw [hargs] at hserver ⊢
  exact ⟨w', rfl, hidle, hserver⟩

theorem get_store {w : World (Str → Option Str)} (h : Idle w) (key : Str) :
    (get storeRedis key w).1 = (w.server (cString key)).map cString := by
  have hargs : (getCommand key).args = ["get".toList, cString key] := by
    simp only [getCommand, RedisCommand.args_append]
    rfl
  obtain ⟨w', hexec, -, -⟩ :=
    @executeArgs_ok _ storeRedis w (fun _ => rfl) h (getCommand key).args
  show (executeArgs storeRedis (getCommand key).args w).1.value = _
  rw [hexec, hargs]
  simp only [storeRedis, store, if_true]
  cases w.server (cString key) <;> rfl

/-- After `Set(key, value)`, `Get(key)` returns the value and the other keys are
as they were, exactly if neither has a NUL in it. -/
theorem set_get_iff (key value : Str) :
    (∀ w, Idle w → (set storeRedis key value 0 w).1 = true →
      (get storeRedis key (set storeRedis key value 0 w).2).1 = some value ∧
      ∀ other, other ≠ key → (set storeRedis key value 0 w).2.server other = w.server other) ↔
    nul ∉ key ∧ nul ∉ value := by
  constructor
  · intro h
    have hidle : Idle (World.init fun _ => none : World (Str → Option Str)) := .inl rfl
    obtain ⟨w', hset, hidle', hserver⟩ := set_store hidle key value
    have hget := h _ hidle (by rw [hset])
    rw [hset, get_store hidle', hserver, Function.update_self] at hget
    obtain ⟨hvalue, hothers⟩ := hget
    have hkey : cString key = key := by
      by_contra hne
      have hother := hothers _ hne
      rw [Function.update_self] at hother
      cases hother
    rw [Option.map_some, Option.some.injEq] at hvalue
    refine ⟨cString_eq_self_iff.mp hkey, ?_⟩
    rw [← hvalue]
    exact nul_notMem_cString _
  · rintro ⟨hkey, hvalue⟩ w hidle -
    obtain ⟨w', hset, hidle', hserver⟩ := set_store hidle key value
    rw [cString_eq_self_iff.mpr hkey, cString_eq_self_iff.mpr hvalue] at hserver
    rw [hset, get_store hidle', hserver, cString_eq_self_iff.mpr hkey, Function.update_self,
      Option.map_some, cString_eq_self_iff.mpr hvalue]
    exact ⟨rfl, fun other hne => Function.update_of_ne hne ..⟩

/-- The value `a\0b` comes back as `a`. -/
theorem set_get_fails_nul :
    let w : World (Str → Option Str) := .init fun _ => none
    let w₁ := (set storeRedis "k".toList ['a', nul, 'b'] 0 w).2
    Idle w ∧ (set storeRedis "k".toList ['a', nul, 'b'] 0 w).1 = true ∧
      (get storeRedis "k".toList w₁).1 = some ['a'] :=
  ⟨.inl rfl, by decide, by decide⟩

-- ---------------------------------------------------------------------------
-- Arrays
-- ---------------------------------------------------------------------------

def RedisReply.IsScalar : RedisReply → Prop
  | .string _ | .integer _ | .nil => True
  | .array _ | .status _ | .error _ | .other _ _ => False

def responseArray (elements : List RedisReply) (w : World σ) : List Str :=
  (parseRedisReply (some (.array elements)) w).1.array

/-- The response does not tell the two elements apart. -/
def RedisReply.Alike (e e' : RedisReply) : Prop := e = e' ∨ (e.chars = [] ∧ e'.chars = [])

theorem RedisReply.chars_eq_iff {e e' : RedisReply} (he : e.IsScalar) (he' : e'.IsScalar) :
    e.chars = e'.chars ↔ e.Alike e' := by
  constructor
  · intro h
    cases e with
    | string str =>
      cases e' with
      | string str' => exact .inl (congrArg _ h)
      | integer n => exact .inr ⟨h, rfl⟩
      | nil => exact .inr ⟨h, rfl⟩
      | array | status | error | other => cases he'
    | integer n => exact .inr ⟨rfl, h.symm⟩
    | nil => exact .inr ⟨rfl, h.symm⟩
    | array | status | error | other => cases he
  · rintro (rfl | ⟨h, h'⟩)
    · rfl
    · exact h.trans h'.symm

theorem map_chars_eq_iff {es es' : List RedisReply} (h : ∀ e ∈ es, e.IsScalar)
    (h' : ∀ e ∈ es', e.IsScalar) :
    es.map RedisReply.chars = es'.map RedisReply.chars ↔ List.Forall₂ RedisReply.Alike es es' := by
  induction es generalizing es' with
  | nil => cases es' <;> simp
  | cons e es ih =>
    cases es' with
    | nil => simp
    | cons e' es' =>
      obtain ⟨he, hes⟩ := List.forall_mem_cons.mp h
      obtain ⟨he', hes'⟩ := List.forall_mem_cons.mp h'
      rw [List.map_cons, List.map_cons, List.cons.injEq, List.forall₂_cons, ih hes hes',
        RedisReply.chars_eq_iff he he']

theorem eq_of_alike {es es' : List RedisReply} (halike : List.Forall₂ RedisReply.Alike es es')
    (h : ∀ e ∈ es', e.chars ≠ []) : es = es' := by
  induction halike with
  | nil => rfl
  | cons hone _ ih =>
    obtain ⟨he, hes⟩ := List.forall_mem_cons.mp h
    rw [ih hes, hone.resolve_right fun hempty => he hempty.2]

/-- Another element that is taken for the empty string. -/
def RedisReply.mistaken : RedisReply → RedisReply
  | .nil => .integer 0
  | _ => .nil

theorem RedisReply.mistaken_spec {e : RedisReply} (h : e.chars = []) :
    e.mistaken.IsScalar ∧ e.mistaken ≠ e ∧ e.mistaken.chars = e.chars := by
  cases e with
  | nil => exact ⟨trivial, by simp [mistaken], rfl⟩
  | string | array | integer | status | error | other =>
    exact ⟨trivial, by simp [mistaken], h.symm⟩

/-- Two arrays give the same response exactly if they differ in elements that
are taken for the empty string: integers, nils and empty strings. So an array
can be told from its response exactly if it has none of these. -/
theorem array_kept_iff (w : World σ) {elements : List RedisReply}
    (h : ∀ e ∈ elements, e.IsScalar) :
    (∀ elements', (∀ e ∈ elements', e.IsScalar) →
      (responseArray elements' w = responseArray elements w ↔
        List.Forall₂ RedisReply.Alike elements' elements)) ∧
    ((∀ elements', (∀ e ∈ elements', e.IsScalar) →
      responseArray elements' w = responseArray elements w → elements' = elements) ↔
        ∀ e ∈ elements, ∃ str, str ≠ [] ∧ e = .string str) := by
  refine ⟨fun elements' h' => map_chars_eq_iff h' h, fun hkept e he => ?_,
    fun hstrings elements' h' heq => ?_⟩
  · have hchars : e.chars ≠ [] := by
      intro hempty
      obtain ⟨hscalar, hne, hsame⟩ := e.mistaken_spec hempty
      obtain ⟨before, behind, rfl⟩ := List.append_of_mem he
      have hother := hkept (before ++ e.mistaken :: behind) ?_ ?_
      · simp [hne] at hother
      · simp only [List.forall_mem_append, List.forall_mem_cons] at h ⊢
        exact ⟨h.1, hscalar, h.2.2⟩
      · simp [responseArray, parseRedisReply, RedisReply.toResponse, hsame]
    have hscalar := h e he
    cases e with
    | string str => exact ⟨str, hchars, rfl⟩
    | integer | nil => exact absurd rfl hchars
    | array | status | error | other => cases hscalar
  · refine eq_of_alike ((map_chars_eq_iff h' h).mp heq) fun e he => ?_
    obtain ⟨str, hstr, rfl⟩ := hstrings e he
    exact hstr

theorem array_kept_strings :
    let w : World (Str → Option Str) := .init fun _ => none
    responseArray [.string "a".toList, .string ['b', nul]] w = ["a".toList, ['b', nul]] ∧
      ∀ elements', (∀ e ∈ elements', e.IsScalar) →
        responseArray elements' w = responseArray [.string "a".toList, .string ['b', nul]] w →
        elements' = [.string "a".toList, .string ['b', nul]] := by
  intro w
  refine ⟨rfl, (array_kept_iff w ?_).2.mpr ?_⟩
  · simp [RedisReply.IsScalar]
  · simp

/-- The integer 5 and a nil, both taken for the empty string. -/
theorem array_lost_integer :
    let w : World (Str → Option Str) := .init fun _ => none
    RedisReply.IsScalar (.integer 5) ∧ RedisReply.IsScalar .nil ∧
      RedisReply.integer 5 ≠ .nil ∧ responseArray [.integer 5] w = responseArray [.nil] w :=
  ⟨trivial, trivial, by simp, rfl⟩

end CppUtil.RedisProxy

import Mathlib.Data.Option.Basic

/-!
# Computations that log

A computation logs and may fail, and what it has logged until then is kept.
Without its log it is a computation in `Option` (`result_bind`).

`Ok P Q x`: all that `x` logs meets `P`, and it returns a value that meets `Q`.
There is one rule for each way to make a computation.
-/

namespace CppUtil.Lib

structure Logged (E α : Type) where
  log : List E
  result : Option α

namespace Logged

variable {E α β : Type} {P : E → Prop} {Q : α → Prop} {R : β → Prop}

instance instMonad : Monad (Logged E) where
  pure a := ⟨[], some a⟩
  bind x f :=
    match x.result with
    | none => ⟨x.log, none⟩
    | some a => ⟨x.log ++ (f a).log, (f a).result⟩

def emit (e : E) : Logged E Unit := ⟨[e], some ()⟩

def ofOption (o : Option α) : Logged E α := ⟨[], o⟩

-- ---------------------------------------------------------------------------
-- Without the log
-- ---------------------------------------------------------------------------

@[simp] theorem result_pure (a : α) : (pure a : Logged E α).result = some a := rfl

@[simp] theorem result_bind (x : Logged E α) (f : α → Logged E β) :
    (x >>= f).result = x.result.bind fun a => (f a).result := by
  obtain ⟨log, _ | a⟩ := x <;> rfl

@[simp] theorem result_ite {c : Prop} [Decidable c] (x y : Logged E α) :
    (if c then x else y).result = if c then x.result else y.result :=
  apply_ite result c x y

theorem result_foldlM (f : α → β → Logged E α) (a : α) (l : List β) :
    (l.foldlM f a).result = l.foldlM (fun a b => (f a b).result) a := by
  induction l generalizing a with
  | nil => rfl
  | cons b l ih => simp only [List.foldlM_cons, result_bind, ih, Option.bind_eq_bind]

-- ---------------------------------------------------------------------------
-- Rules
-- ---------------------------------------------------------------------------

structure Ok (P : E → Prop) (Q : α → Prop) (x : Logged E α) : Prop where
  log : ∀ e ∈ x.log, P e
  result : ∃ a, x.result = some a ∧ Q a

theorem Ok.pure (h : Q a) : Ok P Q (pure a) :=
  ⟨fun _ he => absurd he List.not_mem_nil, a, rfl, h⟩

theorem Ok.emit (h : P e) : Ok P (fun _ => True) (emit e) :=
  ⟨fun _ he => List.mem_singleton.mp he ▸ h, (), rfl, trivial⟩

theorem Ok.ofOption (h : o = some a) (hQ : Q a) : Ok P Q (ofOption o) :=
  ⟨fun _ he => absurd he List.not_mem_nil, a, h, hQ⟩

theorem Ok.bind {x : Logged E α} {f : α → Logged E β} (h : Ok P Q x)
    (hf : ∀ a, Q a → Ok P R (f a)) : Ok P R (x >>= f) := by
  obtain ⟨log, result⟩ := x
  obtain ⟨hlog, a, rfl, hQ⟩ := h
  obtain ⟨hlog', hresult'⟩ := hf a hQ
  refine ⟨fun e he => ?_, hresult'⟩
  rcases List.mem_append.mp he with he | he
  · exact hlog e he
  · exact hlog' e he

theorem Ok.foldlM {f : α → β → Logged E α} {l : List β} (h : Q a)
    (hf : ∀ a, Q a → ∀ b ∈ l, Ok P Q (f a b)) : Ok P Q (l.foldlM f a) := by
  induction l generalizing a with
  | nil => exact .pure h
  | cons b l ih =>
    rw [List.foldlM_cons]
    refine .bind (hf a h b List.mem_cons_self) fun a ha => ih ha fun a ha b hb => ?_
    exact hf a ha b (List.mem_cons_of_mem _ hb)

theorem Ok.ite {c : Prop} [Decidable c] {x y : Logged E α} (hx : c → Ok P Q x)
    (hy : ¬ c → Ok P Q y) : Ok P Q (if c then x else y) := by
  split
  · exact hx (by assumption)
  · exact hy (by assumption)

end Logged

end CppUtil.Lib

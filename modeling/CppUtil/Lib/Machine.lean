import Mathlib.Algebra.Order.BigOperators.Group.Finset
import Mathlib.Data.Fintype.Basic

/-!
# Machines, their runs, and totals over threads

A machine takes one action at a time and emits what it did; an action that is
not enabled has no step. Threads that interleave are a machine whose actions
name the thread that moves (`Machine.interleave`), and its runs are the
interleavings.

`Machine.run_keeps` is the rule for invariants: what every step keeps of the
actions taken, the outputs and the state holds after every run. The second
part counts over all threads when one of them moves.
-/

namespace CppUtil.Lib

-- For the numerals of `Fin` in closed runs, at the zero that `Fin` takes.

theorem neZero_two : @NeZero Nat Zero.ofOfNat0 2 := ⟨Nat.succ_ne_zero 1⟩

theorem neZero_three : @NeZero Nat Zero.ofOfNat0 3 := ⟨Nat.succ_ne_zero 2⟩

theorem neZero_four : @NeZero Nat Zero.ofOfNat0 4 := ⟨Nat.succ_ne_zero 3⟩

structure Machine (State Act Out : Type*) where
  step : State → Act → Option (State × List Out)

namespace Machine

variable {State Act Out : Type*} (M : Machine State Act Out)

def run (s : State) : List Act → Option (State × List Out)
  | [] => some (s, [])
  | a :: as =>
    (M.step s a).bind fun (s₁, o₁) => (run s₁ as).map fun (s₂, o₂) => (s₂, o₁ ++ o₂)

variable {M}

theorem run_cons_iff : M.run s (a :: as) = some (s', o) ↔
    ∃ s₁ o₁ o₂, M.step s a = some (s₁, o₁) ∧ M.run s₁ as = some (s', o₂) ∧ o = o₁ ++ o₂ := by
  simp only [run, Option.bind_eq_some_iff, Option.map_eq_some_iff, Prod.exists, Prod.mk.injEq]
  constructor
  · rintro ⟨s₁, o₁, h₁, _, o₂, h₂, rfl, rfl⟩
    exact ⟨s₁, o₁, o₂, h₁, h₂, rfl⟩
  · rintro ⟨s₁, o₁, o₂, h₁, h₂, rfl⟩
    exact ⟨s₁, o₁, h₁, s', o₂, h₂, rfl, rfl⟩

theorem run_append_iff : M.run s (as ++ bs) = some (s', o) ↔
    ∃ s₁ o₁ o₂, M.run s as = some (s₁, o₁) ∧ M.run s₁ bs = some (s', o₂) ∧ o = o₁ ++ o₂ := by
  induction as generalizing s o with
  | nil => simp [run]
  | cons a as ih =>
    rw [List.cons_append, run_cons_iff]
    constructor
    · rintro ⟨s₁, o₁, o₂, h₁, h₂, rfl⟩
      obtain ⟨s₂, o₃, o₄, h₃, h₄, rfl⟩ := ih.mp h₂
      exact ⟨s₂, o₁ ++ o₃, o₄, run_cons_iff.mpr ⟨s₁, o₁, o₃, h₁, h₃, rfl⟩, h₄, by simp⟩
    · rintro ⟨s₁, o₁, o₂, h₁, h₂, rfl⟩
      obtain ⟨s₂, o₃, o₄, h₃, h₄, rfl⟩ := run_cons_iff.mp h₁
      exact ⟨s₂, o₃, o₄ ++ o₂, h₃, ih.mpr ⟨s₁, o₄, o₂, h₄, h₂, rfl⟩, by simp⟩

theorem run_total (h : ∀ s a, (M.step s a).isSome) : ∃ r, M.run s as = some r := by
  induction as generalizing s with
  | nil => exact ⟨_, rfl⟩
  | cons a as ih =>
    obtain ⟨⟨s₁, o₁⟩, h₁⟩ := Option.isSome_iff_exists.mp (h s a)
    obtain ⟨⟨s₂, o₂⟩, h₂⟩ := @ih s₁
    exact ⟨_, run_cons_iff.mpr ⟨s₁, o₁, o₂, h₁, h₂, rfl⟩⟩

-- ---------------------------------------------------------------------------
-- Invariants
-- ---------------------------------------------------------------------------

variable (M) in
/-- Every step of the run meets `G`, a condition on the state before it. -/
def Meets (G : State → Act → Prop) (s : State) : List Act → Prop
  | [] => True
  | a :: as => G s a ∧ ∀ s₁ o₁, M.step s a = some (s₁, o₁) → Meets G s₁ as

instance Meets.decidable (G : State → Act → Prop) [∀ s a, Decidable (G s a)] :
    ∀ as s, Decidable (M.Meets G s as)
  | [], _ => isTrue True.intro
  | a :: as, s =>
    match h : M.step s a with
    | none => decidable_of_iff (G s a) ⟨fun hg => ⟨hg, by simp [h]⟩, And.left⟩
    | some (s₁, o₁) =>
      have := Meets.decidable G as s₁
      decidable_of_iff (G s a ∧ M.Meets G s₁ as)
        ⟨fun hg => ⟨hg.1, by rintro _ _ h₁; cases h.symm.trans h₁; exact hg.2⟩,
         fun hg => ⟨hg.1, hg.2 _ _ h⟩⟩

theorem Meets.of_forall {G : Act → Prop} (h : ∀ a ∈ as, G a) : M.Meets (fun _ a => G a) s as := by
  induction as generalizing s with
  | nil => trivial
  | cons a as ih =>
    rw [List.forall_mem_cons] at h
    exact ⟨h.1, fun _ _ _ => ih h.2⟩

theorem Meets.trivial : M.Meets (fun _ _ => True) s as :=
  Meets.of_forall fun _ _ => True.intro

theorem Meets.of_invariant (Inv : State → Prop) (gives : ∀ s a, Inv s → G s a)
    (keeps : ∀ s a o s', Inv s → M.step s a = some (s', o) → Inv s') (h₀ : Inv s) :
    M.Meets G s as := by
  induction as generalizing s with
  | nil => trivial
  | cons a as ih => exact ⟨gives s a h₀, fun s₁ o₁ h₁ => ih (keeps s a o₁ s₁ h₀ h₁)⟩

theorem run_keeps (G : State → Act → Prop) (Inv : List Act → List Out → State → Prop)
    (keeps : ∀ as os s a o s', Inv as os s → G s a → M.step s a = some (s', o) →
      Inv (as ++ [a]) (os ++ o) s')
    (h₀ : Inv as₀ os₀ s) (hG : M.Meets G s as) (h : M.run s as = some (s', os)) :
    Inv (as₀ ++ as) (os₀ ++ os) s' := by
  induction as generalizing s as₀ os₀ os with
  | nil =>
    cases h
    simpa using h₀
  | cons a as ih =>
    obtain ⟨s₁, o₁, o₂, h₁, h₂, rfl⟩ := run_cons_iff.mp h
    have h := ih (keeps _ _ _ _ _ _ h₀ hG.1 h₁) (hG.2 _ _ h₁) h₂
    simpa using h

theorem run_invariant (G : State → Act → Prop) (Inv : State → Prop)
    (keeps : ∀ s a o s', Inv s → G s a → M.step s a = some (s', o) → Inv s')
    (h₀ : Inv s) (hG : M.Meets G s as) (h : M.run s as = some (s', os)) : Inv s' :=
  @run_keeps _ _ _ M [] [] _ _ _ _ G (fun _ _ => Inv) (fun _ _ => keeps) h₀ hG h

/-- A machine that can answer every step of `N` with the same outputs, and stay
related to it, can answer its runs. -/
theorem run_simulates {State' : Type*} {N : Machine State' Act Out} {t t' : State'}
    (R : State → State' → Prop)
    (answers : ∀ s t a t' o, R s t → N.step t a = some (t', o) →
      ∃ s', M.step s a = some (s', o) ∧ R s' t')
    (h₀ : R s t) (h : N.run t as = some (t', os)) :
    ∃ s', M.run s as = some (s', os) ∧ R s' t' := by
  induction as generalizing s t os with
  | nil =>
    cases h
    exact ⟨s, rfl, h₀⟩
  | cons a as ih =>
    obtain ⟨t₁, o₁, o₂, h₁, h₂, rfl⟩ := run_cons_iff.mp h
    obtain ⟨s₁, hs₁, hR⟩ := answers s t a t₁ o₁ h₀ h₁
    obtain ⟨s', hs', hR'⟩ := ih hR h₂
    exact ⟨s', run_cons_iff.mpr ⟨s₁, o₁, o₂, hs₁, hs', rfl⟩, hR'⟩

variable (M) in
def observed {β : Type*} (f : State → Act → List β) (s : State) : List Act → List β
  | [] => []
  | a :: as => f s a ++ ((M.step s a).map fun r => observed f r.1 as).getD []

theorem run_keeps_observed {β : Type*} {bs₀ : List β} (f : State → Act → List β) (G : State → Act → Prop)
    (Inv : List β → List Out → State → Prop)
    (keeps : ∀ bs os s a o s', Inv bs os s → G s a → M.step s a = some (s', o) →
      Inv (bs ++ f s a) (os ++ o) s')
    (h₀ : Inv bs₀ os₀ s) (hG : M.Meets G s as) (h : M.run s as = some (s', os)) :
    Inv (bs₀ ++ M.observed f s as) (os₀ ++ os) s' := by
  induction as generalizing s bs₀ os₀ os with
  | nil =>
    cases h
    simpa [observed] using h₀
  | cons a as ih =>
    obtain ⟨s₁, o₁, o₂, h₁, h₂, rfl⟩ := run_cons_iff.mp h
    have h := ih (keeps _ _ _ _ _ _ h₀ hG.1 h₁) (hG.2 _ _ h₁) h₂
    simpa [observed, h₁] using h

variable (M) in
/-- `P` holds of the outputs and the state before the run and after each step. -/
def Throughout (P : List Out → State → Prop) (os : List Out) (s : State) : List Act → Prop
  | [] => P os s
  | a :: as => P os s ∧ ∀ s₁ o₁, M.step s a = some (s₁, o₁) → Throughout P (os ++ o₁) s₁ as

theorem Throughout.holds (h : M.Throughout P os s as) : P os s := by
  cases as with
  | nil => exact h
  | cons a as => exact h.1

theorem Throughout.last (h : M.Throughout P os₀ s as) (hrun : M.run s as = some (s', os)) :
    P (os₀ ++ os) s' := by
  induction as generalizing s os₀ os with
  | nil =>
    cases hrun
    simpa using h.holds
  | cons a as ih =>
    obtain ⟨s₁, o₁, o₂, h₁, h₂, rfl⟩ := run_cons_iff.mp hrun
    simpa using ih (h.2 _ _ h₁) h₂

/-- When the steps that meet `G` keep an invariant that gives `P`, and a step
that does not meet it breaks `P`, then `P` holds throughout exactly the runs
whose steps all meet `G`. -/
theorem throughout_iff_meets (G : State → Act → Prop) (Inv P : List Out → State → Prop)
    (gives : ∀ os s, Inv os s → P os s)
    (keeps : ∀ os s a o s', Inv os s → G s a → M.step s a = some (s', o) → Inv (os ++ o) s')
    (breaks : ∀ os s a o s', Inv os s → ¬ G s a → M.step s a = some (s', o) → ¬ P (os ++ o) s')
    (h₀ : Inv os₀ s) (h : M.run s as = some (s', os)) :
    M.Throughout P os₀ s as ↔ M.Meets G s as := by
  induction as generalizing s os₀ os with
  | nil => exact ⟨fun _ => True.intro, fun _ => gives _ _ h₀⟩
  | cons a as ih =>
    obtain ⟨s₁, o₁, o₂, h₁, h₂, rfl⟩ := run_cons_iff.mp h
    constructor
    · rintro ⟨-, hP⟩
      have hg : G s a := by
        by_contra hn
        exact breaks _ _ _ _ _ h₀ hn h₁ (hP _ _ h₁).holds
      refine ⟨hg, fun s₂ o₃ h₃ => ?_⟩
      cases h₁.symm.trans h₃
      exact (ih (keeps _ _ _ _ _ h₀ hg h₁) h₂).mp (hP _ _ h₁)
    · rintro ⟨hg, hG⟩
      refine ⟨gives _ _ h₀, fun s₂ o₃ h₃ => ?_⟩
      cases h₁.symm.trans h₃
      exact (ih (keeps _ _ _ _ _ h₀ hg h₁) h₂).mpr (hG _ _ h₁)

/-- When a step that does not meet `G` spoils something that no later step puts
right, then `P` holds in the end of exactly the runs whose steps all meet `G`. -/
theorem last_iff_meets (G : State → Act → Prop) (Inv Spoiled P : List Out → State → Prop)
    (gives : ∀ os s, Inv os s → P os s)
    (keeps : ∀ os s a o s', Inv os s → G s a → M.step s a = some (s', o) → Inv (os ++ o) s')
    (spoils : ∀ os s a o s', Inv os s → ¬ G s a → M.step s a = some (s', o) →
      Spoiled (os ++ o) s')
    (stays : ∀ os s a o s', Spoiled os s → M.step s a = some (s', o) → Spoiled (os ++ o) s')
    (excludes : ∀ os s, Spoiled os s → ¬ P os s)
    (h₀ : Inv os₀ s) (h : M.run s as = some (s', os)) : P (os₀ ++ os) s' ↔ M.Meets G s as := by
  induction as generalizing s os₀ os with
  | nil =>
    cases h
    rw [List.append_nil]
    exact ⟨fun _ => True.intro, fun _ => gives _ _ h₀⟩
  | cons a as ih =>
    obtain ⟨s₁, o₁, o₂, h₁, h₂, rfl⟩ := run_cons_iff.mp h
    rw [← List.append_assoc]
    by_cases hg : G s a
    · rw [ih (keeps _ _ _ _ _ h₀ hg h₁) h₂]
      constructor
      · refine fun hG => ⟨hg, fun s₂ o₃ h₃ => ?_⟩
        cases h₁.symm.trans h₃
        exact hG
      · exact fun hG => hG.2 _ _ h₁
    · have hlast : Spoiled (os₀ ++ o₁ ++ o₂) s' :=
        @run_keeps _ _ _ M [] _ _ _ _ _ (fun _ _ => True) (fun _ => Spoiled)
          (fun _ _ _ _ _ _ hs _ hstep => stays _ _ _ _ _ hs hstep)
          (spoils _ _ _ _ _ h₀ hg h₁) (Meets.of_forall fun _ _ => True.intro) h₂
      exact ⟨fun hP => absurd hP (excludes _ _ hlast), fun hG => absurd hG.1 hg⟩

theorem Meets.append (h : M.Meets G s (as ++ bs)) (hrun : M.run s as = some (s₁, o)) :
    M.Meets G s as ∧ M.Meets G s₁ bs := by
  induction as generalizing s o with
  | nil =>
    cases hrun
    exact ⟨True.intro, h⟩
  | cons a as ih =>
    obtain ⟨s₂, o₁, o₂, h₁, h₂, rfl⟩ := run_cons_iff.mp hrun
    refine ⟨⟨h.1, fun s₃ o₃ h₃ => ?_⟩, (ih (h.2 _ _ h₁) h₂).2⟩
    cases h₁.symm.trans h₃
    exact (ih (h.2 _ _ h₁) h₂).1

variable (M) in
/-- In the run from `s` a step emitted `out`, and `stop` has not happened since. -/
def Since (s : State) (as : List Act) (out : Out) (stop : Act) : Prop :=
  ∃ as₁ a as₂ s₁ o₁ s₂, as = as₁ ++ a :: as₂ ∧ M.run s as₁ = some (s₁, o₁) ∧
    M.step s₁ a = some (s₂, [out]) ∧ stop ∉ as₂

theorem Meets.and_not_mem (h : M.Meets G s as) (hb : b ∉ as) :
    M.Meets (fun s a => G s a ∧ a ≠ b) s as := by
  induction as generalizing s with
  | nil => trivial
  | cons a as ih =>
    rw [List.mem_cons, not_or] at hb
    exact ⟨⟨h.1, Ne.symm hb.1⟩, fun s₁ o₁ h₁ => ih (h.2 s₁ o₁ h₁) hb.2⟩

/-- What the emitting step brings about, and every step but `stop` keeps, holds
as long as `stop` has not happened. -/
theorem run_since (G : State → Act → Prop) (Inv P : State → Prop)
    (keeps : ∀ s a o s', Inv s → G s a → M.step s a = some (s', o) → Inv s')
    (starts : ∀ s a s', Inv s → G s a → M.step s a = some (s', [out]) → P s')
    (stays : ∀ s a o s', Inv s → P s → G s a → a ≠ stop → M.step s a = some (s', o) → P s')
    (h₀ : Inv s) (hG : M.Meets G s as) (h : M.run s as = some (s', os))
    (hs : M.Since s as out stop) : P s' := by
  obtain ⟨as₁, a, as₂, s₁, o₁, s₂, rfl, h₁, h₂, hstop⟩ := hs
  obtain ⟨s₁', o₁', o₂', h₁', h₂', -⟩ := run_append_iff.mp h
  cases h₁.symm.trans h₁'
  obtain ⟨s₂', o₃, o₄, h₃, h₄, -⟩ := run_cons_iff.mp h₂'
  cases h₂.symm.trans h₃
  obtain ⟨hG₁, hGa, hG₂⟩ := hG.append h₁
  have hInv := run_invariant G Inv keeps h₀ hG₁ h₁
  refine (run_invariant (fun s a => G s a ∧ a ≠ stop) (fun s => Inv s ∧ P s) ?_
    ⟨keeps _ _ _ _ hInv hGa h₂, starts _ _ _ hInv hGa h₂⟩
    ((hG₂ _ _ h₂).and_not_mem hstop) h₄).2
  rintro s a o s' ⟨hi, hp⟩ ⟨hg, hne⟩ hstep
  exact ⟨keeps _ _ _ _ hi hg hstep, stays _ _ _ _ hi hp hg hne hstep⟩

end Machine

-- ---------------------------------------------------------------------------
-- Threads
-- ---------------------------------------------------------------------------

structure Config (Tid Shared Local : Type*) where
  shared : Shared
  threads : Tid → Local

/-- One thread at a time takes a step of its own. -/
def Machine.interleave {Tid Shared Local Act Out : Type*} [DecidableEq Tid]
    (step : Tid → Shared → Local → Act → Option (Shared × Local × List Out)) :
    Machine (Config Tid Shared Local) (Tid × Act) (Tid × Out) where
  step s := fun (t, act) =>
    (step t s.shared (s.threads t) act).map fun (sh, th, o) =>
      (⟨sh, Function.update s.threads t th⟩, o.map fun e => (t, e))

theorem Machine.interleave_step_iff {Tid Shared Local Act Out : Type*} [DecidableEq Tid]
    {step : Tid → Shared → Local → Act → Option (Shared × Local × List Out)}
    {s s' : Config Tid Shared Local} {t : Tid} {act : Act} {os : List (Tid × Out)} :
    (Machine.interleave step).step s (t, act) = some (s', os) ↔
      ∃ sh th o, step t s.shared (s.threads t) act = some (sh, th, o) ∧
        s' = ⟨sh, Function.update s.threads t th⟩ ∧ os = o.map fun e => (t, e) := by
  simp only [interleave, Option.map_eq_some_iff, Prod.exists, Prod.mk.injEq]
  constructor
  · rintro ⟨sh, th, o, h, rfl, rfl⟩
    exact ⟨sh, th, o, h, rfl, rfl⟩
  · rintro ⟨sh, th, o, h, rfl, rfl⟩
    exact ⟨sh, th, o, h, rfl, rfl⟩

theorem Machine.step_of_emits_one {Tid Shared Local Act Out : Type*} [DecidableEq Tid]
    {step : Tid → Shared → Local → Act → Option (Shared × Local × List Out)}
    {s s' : Config Tid Shared Local} {t : Tid} {x : Tid × Act} {e : Out}
    (h : (Machine.interleave step).step s x = some (s', [(t, e)])) :
    ∃ sh th, step t s.shared (s.threads t) x.2 = some (sh, th, [e]) ∧
      s' = ⟨sh, Function.update s.threads t th⟩ := by
  obtain ⟨u, act⟩ := x
  obtain ⟨sh, th, o, hstep, rfl, ho⟩ := interleave_step_iff.mp h
  obtain ⟨e', rfl, he⟩ := List.map_eq_singleton_iff.mp ho.symm
  cases he
  exact ⟨sh, th, hstep, rfl⟩

/-- One of the threads, while the others do nothing. -/
def Machine.solo {Tid Shared Local Act Out : Type*}
    (step : Tid → Shared → Local → Act → Option (Shared × Local × List Out)) (t : Tid) :
    Machine (Shared × Local) Act Out where
  step s act := (step t s.1 s.2 act).map fun (sh, th, o) => ((sh, th), o)

theorem Machine.run_of_solo {Tid Shared Local Act Out : Type*} [DecidableEq Tid]
    {step : Tid → Shared → Local → Act → Option (Shared × Local × List Out)}
    {s : Config Tid Shared Local} {t : Tid} {as : List Act} {r : Shared × Local} {o : List Out}
    (h : (Machine.solo step t).run (s.shared, s.threads t) as = some (r, o)) :
    (Machine.interleave step).run s (as.map fun act => (t, act)) =
      some (⟨r.1, Function.update s.threads t r.2⟩, o.map fun e => (t, e)) := by
  induction as generalizing s o with
  | nil =>
    obtain ⟨rfl, rfl⟩ := Prod.mk.inj (Option.some.inj h)
    simp only [List.map_nil, run, Function.update_eq_self]
  | cons act as ih =>
    obtain ⟨s₁, o₁, o₂, hstep, hrest, rfl⟩ := run_cons_iff.mp h
    obtain ⟨⟨sh, th, o₁⟩, hact, heq⟩ := Option.map_eq_some_iff.mp hstep
    obtain ⟨rfl, rfl⟩ := Prod.mk.inj heq
    have hfirst := interleave_step_iff.mpr ⟨sh, th, o₁, hact, rfl, rfl⟩
    have hmore := @ih ⟨sh, Function.update s.threads t th⟩ o₂ (by simpa using hrest)
    rw [Function.update_idem] at hmore
    exact run_cons_iff.mpr ⟨_, _, _, hfirst, hmore, by rw [List.map_append]⟩

-- ---------------------------------------------------------------------------
-- What one thread did
-- ---------------------------------------------------------------------------

section OfThread

variable {Tid α : Type*} [DecidableEq Tid]

def ofThread (t : Tid) (l : List (Tid × α)) : List α := (l.filter fun x => x.1 = t).map Prod.snd

theorem ofThread_append (t : Tid) (l l' : List (Tid × α)) :
    ofThread t (l ++ l') = ofThread t l ++ ofThread t l' := by
  simp [ofThread]

theorem ofThread_map (t u : Tid) (l : List α) :
    ofThread t (l.map fun e => (u, e)) = if u = t then l else [] := by
  by_cases h : u = t <;> simp [ofThread, List.filter_map, Function.comp_def, h]

theorem flatMap_ofThread_concat (f : α → List β) (t u : Tid) (l : List (Tid × α)) (a : α) :
    (ofThread t (l ++ [(u, a)])).flatMap f =
      (ofThread t l).flatMap f ++ if u = t then f a else [] := by
  have h := ofThread_map t u [a]
  rw [List.map_singleton] at h
  rw [ofThread_append, List.flatMap_append, h]
  split <;> simp

theorem map_ofThread_append (f : α → β) (t u : Tid) (l : List (Tid × α)) (o : List α) :
    (ofThread t (l ++ o.map fun e => (u, e))).map f =
      (ofThread t l).map f ++ if u = t then o.map f else [] := by
  rw [ofThread_append, List.map_append, ofThread_map]
  split <;> rfl

/-- Lists in which every thread has the same entries are the same up to the
order of different threads. -/
theorem perm_of_ofThread {l l' : List (Tid × α)} (h : ∀ t, ofThread t l = ofThread t l') :
    l.Perm l' := by
  classical
  rw [List.perm_iff_count]
  rintro ⟨t, e⟩
  have hcount : ∀ m : List (Tid × α), m.count (t, e) = (ofThread t m).count e := by
    intro m
    induction m with
    | nil => rfl
    | cons x m ih =>
      obtain ⟨u, f⟩ := x
      by_cases hu : u = t
      · subst hu
        simpa [ofThread, List.count_cons] using ih
      · simpa [ofThread, List.count_cons, hu] using ih
  rw [hcount, hcount, h]

end OfThread

-- ---------------------------------------------------------------------------
-- Totals over threads
-- ---------------------------------------------------------------------------

section Threads

variable {Tid L : Type*} [Fintype Tid] [DecidableEq Tid] {f : L → Nat} {ths : Tid → L} {t u : Tid}

def total (f : L → Nat) (ths : Tid → L) : Nat := ∑ u, f (ths u)

def others (f : L → Nat) (ths : Tid → L) (t : Tid) : Nat := ∑ u ∈ Finset.univ.erase t, f (ths u)

variable (f ths) in
theorem total_eq (t : Tid) : total f ths = f (ths t) + others f ths t :=
  (Finset.add_sum_erase _ _ (Finset.mem_univ t)).symm

theorem others_update : others f (Function.update ths t x) t = others f ths t := by
  apply Finset.sum_congr rfl
  intro u hu
  rw [Function.update_of_ne (Finset.ne_of_mem_erase hu)]

theorem total_update : total f (Function.update ths t x) = f x + others f ths t := by
  rw [total_eq f _ t, others_update, Function.update_self]

theorem add_others_update (h : u ≠ t) :
    f (ths u) + others f (Function.update ths t x) u = f x + others f ths t := by
  have hu := total_eq f (Function.update ths t x) u
  rw [Function.update_of_ne h, total_update] at hu
  exact hu.symm

theorem others_eq_zero (h : ∀ u, u ≠ t → f (ths u) = 0) : others f ths t = 0 :=
  Finset.sum_eq_zero fun u hu => h u (Finset.ne_of_mem_erase hu)

theorem le_others (h : u ≠ t) : f (ths u) ≤ others f ths t :=
  Finset.single_le_sum (f := fun u => f (ths u)) (fun _ _ => Nat.zero_le _)
    (Finset.mem_erase.mpr ⟨h, Finset.mem_univ u⟩)

end Threads

end CppUtil.Lib

import CppUtil.RcuPtr.RcuPtrLaws

/-!
# Runs of an `rcu_ptr`

Any number of threads load, store and update in any interleaving of their
steps. `updates_linearize`: the published value is at every moment what the
completed calls, in the order of their successful exchanges and stores, make
of the first value; every call takes effect once; and an object a `Load`
returned stays as it was for as long as the pointer is held.
-/

namespace CppUtil.RcuPtr

open Lang Lib

attribute [local instance] neZero_two

variable {Tid T : Type} [DecidableEq Tid]

-- ---------------------------------------------------------------------------
-- All threads
-- ---------------------------------------------------------------------------

section

variable [Fintype Tid]

def State.rest (s : State Tid T) (t : Tid) (a : Addr) : Nat :=
  others (fun th => th.owns a) s.threads t

def State.Ok (s : State Tid T) : Prop :=
  ∀ t, (s.threads t).Ok s.shared (s.rest t)

variable {s s' : State Tid T}

theorem State.uses_eq (t u : Tid) (a : Addr) :
    (s.threads t).uses s.shared (s.rest t) a = (s.threads u).uses s.shared (s.rest u) a := by
  have ht := total_eq (fun th => Thread.owns th a) s.threads t
  have hu := total_eq (fun th => Thread.owns th a) s.threads u
  unfold Thread.uses State.rest
  omega

theorem State.owns_le_rest (h : u ≠ t) : (s.threads u).owns a ≤ s.rest t a :=
  le_others (f := fun th => Thread.owns th a) h

/-- A thread that does not move stays as it should be: what it refers to has
not changed, and its deep copy is still its own. -/
theorem Frame.Ok.keep {fr : Frame T} (hfr : fr.Ok sh held n)
    (hval : ∀ a, 0 < fr.owns a → sh'.heap.value a = sh.heap.value a)
    (hone : ∀ a, 0 < fr.owns a → n a = 1 → n' a = 1) : fr.Ok sh' held n' := by
  cases fr with
  | idle | called | copying | fault => exact hfr
  | applying func c d | exchanging func c d =>
    obtain ⟨a, b, rfl, rfl, h1, hv⟩ := hfr
    have ha : 0 < refs (some a) a + refs (some b) a := by simp
    have hb : 0 < refs (some a) b + refs (some b) b := by simp
    refine ⟨a, b, rfl, rfl, hone b hb h1, ?_⟩
    rw [hval a ha, hval b hb, hv]

theorem State.Ok.moves (h : s.Ok)
    (hm : (s.threads t).Moves s.shared (s.rest t) act sh' th' o) :
    State.Ok ⟨sh', Function.update s.threads t th'⟩ := by
  intro u
  by_cases hu : u = t
  · subst hu
    have hrest : State.rest ⟨sh', Function.update s.threads u th'⟩ u = s.rest u :=
      funext fun a => others_update
    simp only [hrest, Function.update_self]
    exact hm.ok
  · have hth : Function.update s.threads t th' u = s.threads u := Function.update_of_ne hu ..
    have hle : ∀ a, (s.threads u).owns a ≤ s.rest t a := fun a => State.owns_le_rest hu
    have hle' : ∀ a, (s.threads t).owns a ≤ s.rest u a := fun a => State.owns_le_rest (Ne.symm hu)
    have htot : ∀ a, (s.threads u).owns a +
        State.rest ⟨sh', Function.update s.threads t th'⟩ u a = th'.owns a + s.rest t a :=
      fun a => add_others_update (f := fun th => Thread.owns th a) hu
    simp only [hth]
    refine ⟨hm.ok.counts.congr fun a => ?_, hm.ok.nonNull, (h u).frame.keep ?_ ?_⟩
    · have := htot a
      unfold Thread.uses
      omega
    · intro a ha
      apply hm.keeps a (.inl _)
      have := hle a
      unfold Thread.owns at this
      omega
    · intro a ha hone
      have huses := State.uses_eq (s := s) t u a
      have h₁ := hle a
      have h₂ := htot a
      have h₃ := hm.alone a
      have hpos : 0 < (s.threads u).owns a := Nat.lt_of_lt_of_le ha (Nat.le_add_left _ _)
      have h₄ := hle' a
      unfold Thread.uses at huses hone ⊢
      omega

theorem State.Ok.step {x : Tid × Act T} (h : s.Ok) (hx : x.2.NonNull)
    (hs : (machine Tid T).step s x = some (s', o)) : s'.Ok := by
  obtain ⟨sh, th, es, hstep, rfl, -⟩ := Machine.interleave_step_iff.mp hs
  exact h.moves (Thread.step_moves (h x.1) hx hstep)

theorem State.init_ok (t : Tid) (a : Addr) (v : T) : (State.init t a v).Ok := by
  have howns : ∀ b, ((State.init t a v).threads t).owns b = refs (some a) b := by
    intro b
    simp [State.init, Thread.owns, Frame.owns, count_cons_eq]
  have hrest : ∀ b, (State.init t a v).rest t b = 0 := by
    intro b
    apply others_eq_zero
    intro u hu
    simp [State.init, Thread.owns, Frame.owns, hu]
  have huses : ∀ u b, ((State.init t a v).threads u).uses (State.init t a v).shared
      ((State.init t a v).rest u) b = if b = a then 2 else 0 := by
    intro u b
    rw [State.uses_eq u t, Thread.uses, howns, hrest]
    by_cases hb : b = a
    · simp [hb, State.init]
    · simp [hb, State.init, refs_of_ne, Ne.symm hb]
  intro u
  refine ⟨⟨fun b => (huses u b).symm, fun b => ?_⟩, by simp [State.init], by simp [State.init, Frame.Ok]⟩
  rw [huses]
  by_cases hb : b = a <;> simp [hb, State.init]

-- ---------------------------------------------------------------------------
-- Histories
-- ---------------------------------------------------------------------------

theorem Legal.append {es es' : List (Event T)} (h : Legal x es)
    (h' : Legal (es.foldl Event.apply x) es') : Legal x (es ++ es') := by
  induction es generalizing x with
  | nil => exact h'
  | cons e es ih =>
    cases e with
    | loaded p v => exact ⟨h.1, ih h.2 h'⟩
    | stored p v => exact ih h h'
    | updated func => exact ih h h'

omit [Fintype Tid] in
theorem callsOf_append (t : Tid) (as : List (Tid × Act T)) :
    callsOf t (as ++ [(u, act)]) = callsOf t as ++ if u = t then act.calls else [] :=
  flatMap_ofThread_concat ..

omit [Fintype Tid] in
theorem effectsOf_append (t : Tid) (os : List (Tid × Event T)) (o : List (Event T)) :
    effectsOf t (os ++ o.map fun e => (u, e)) =
      effectsOf t os ++ if u = t then o.map Event.call else [] :=
  map_ofThread_append ..

structure Linearized (v : T) (as : List (Tid × Act T)) (os : List (Tid × Event T))
    (s : State Tid T) : Prop where
  ok : s.Ok
  published : s.shared.published = (os.map Prod.snd).foldl Event.apply (some v)
  legal : Legal (some v) (os.map Prod.snd)
  calls : ∀ t, callsOf t as = effectsOf t os ++ (s.threads t).frame.pending

theorem Linearized.init (t : Tid) (a : Addr) (v : T) : Linearized v [] [] (State.init t a v) := by
  refine ⟨State.init_ok t a v, ?_, trivial, fun u => rfl⟩
  simp [State.init, Shared.published]

theorem Linearized.step {x : Tid × Act T} (h : Linearized v as os s) (hx : x.2.NonNull)
    (hs : (machine Tid T).step s x = some (s', o)) :
    Linearized v (as ++ [x]) (os ++ o) s' := by
  obtain ⟨t, act⟩ := x
  obtain ⟨sh, th, es, hstep, rfl, rfl⟩ := Machine.interleave_step_iff.mp hs
  have hm := Thread.step_moves (h.ok t) hx hstep
  have hes : (es.map fun e => (t, e)).map Prod.snd = es := by simp [Function.comp_def]
  refine ⟨h.ok.moves hm, ?_, ?_, fun u => ?_⟩
  · rw [List.map_append, hes, List.foldl_append, ← h.published]
    exact hm.published
  · rw [List.map_append, hes]
    exact h.legal.append (h.published ▸ hm.legal)
  · rw [callsOf_append, effectsOf_append, h.calls]
    by_cases hu : t = u
    · subst hu
      simp [hm.calls]
    · simp [hu, Function.update_of_ne (Ne.symm hu)]

theorem Linearized.run {as bs : List (Tid × Act T)} (h : Linearized v as os s)
    (hnn : ∀ x ∈ bs, x.2.NonNull) (hrun : (machine Tid T).run s bs = some (s', o)) :
    Linearized v (as ++ bs) (os ++ o) s' :=
  Machine.run_keeps (fun _ x => x.2.NonNull) (Linearized v)
    (fun _ _ _ _ _ _ hi hx hs => hi.step hx hs) h (Machine.Meets.of_forall hnn) hrun

-- ---------------------------------------------------------------------------
-- Pointers that are held
-- ---------------------------------------------------------------------------

theorem State.Ok.step_loaded {x : Tid × Act T} (h : s.Ok) (hx : x.2.NonNull)
    (hs : (machine Tid T).step s x = some (s', [(t, .loaded (some p) v)])) :
    p ∈ (s'.threads t).held ∧ s'.shared.heap.value p = v := by
  obtain ⟨sh, th, hstep, rfl⟩ := Machine.step_of_emits_one hs
  simp only [Function.update_self]
  exact (Thread.step_moves (h t) hx hstep).returns p v (List.mem_singleton_self _)

theorem State.Ok.held_step {x : Tid × Act T} (h : s.Ok) (hx : x.2.NonNull)
    (hs : (machine Tid T).step s x = some (s', o)) (hp : p ∈ (s.threads t).held)
    (hne : x ≠ (t, .drop p)) :
    p ∈ (s'.threads t).held ∧ s'.shared.heap.value p = s.shared.heap.value p := by
  obtain ⟨u, act⟩ := x
  obtain ⟨sh, th, es, hstep, rfl, rfl⟩ := Machine.interleave_step_iff.mp hs
  have hm := Thread.step_moves (h u) hx hstep
  by_cases hu : t = u
  · subst hu
    have hp' : p ∈ th.held := by
      rcases hm.held p hp with hp' | rfl
      · exact hp'
      · exact absurd rfl hne
    simp only [Function.update_self]
    exact ⟨hp', hm.keeps p (.inr ⟨hp, hp'⟩)⟩
  · simp only [Function.update_of_ne hu]
    have hpos := List.count_pos_iff.mpr hp
    have hle := State.owns_le_rest (s := s) (a := p) hu
    unfold Thread.owns at hle
    exact ⟨hp, hm.keeps p (.inl (by omega))⟩

-- ---------------------------------------------------------------------------
-- Every interleaving
-- ---------------------------------------------------------------------------

/-- From a non-null pointer and with non-null stores: the published value is
the first one after all completed calls, every load saw the value of its
moment, each thread's calls took effect once each and in order, except for the
one it is still in, no thread faults, and what a held pointer points to is what
its `Load` returned. -/
theorem updates_linearize (t₀ : Tid) (a₀ : Addr) (v₀ : T) (as : List (Tid × Act T))
    (hnn : ∀ x ∈ as, x.2.NonNull)
    (hrun : (machine Tid T).run (State.init t₀ a₀ v₀) as = some (s, os)) :
    s.shared.published = (os.map Prod.snd).foldl Event.apply (some v₀) ∧
    Legal (some v₀) (os.map Prod.snd) ∧
    (∀ t, callsOf t as = effectsOf t os ++ (s.threads t).frame.pending) ∧
    (∀ t, (s.threads t).frame ≠ .fault) ∧
    ∀ t p v, (machine Tid T).Since (State.init t₀ a₀ v₀) as (t, .loaded (some p) v) (t, .drop p) →
      p ∈ (s.threads t).held ∧ s.shared.heap.value p = v := by
  have h := (Linearized.init t₀ a₀ v₀).run hnn hrun
  refine ⟨h.published, h.legal, h.calls, fun t hf => ?_, ?_⟩
  · have := (h.ok t).frame
    rwa [hf] at this
  · intro t p v hsince
    refine Machine.run_since (fun _ x => x.2.NonNull) State.Ok
      (fun s => p ∈ (s.threads t).held ∧ s.shared.heap.value p = v)
      (fun _ _ _ _ hok hx hs => hok.step hx hs) (fun _ _ _ hok hx hs => hok.step_loaded hx hs) ?_
      (State.init_ok t₀ a₀ v₀) (Machine.Meets.of_forall hnn) hrun hsince
    rintro s₁ x o s₂ hok ⟨hp, hv⟩ hx hne hs
    obtain ⟨hp', hv'⟩ := hok.held_step hx hs hp hne
    exact ⟨hp', hv'.trans hv⟩

end

/-- Thread 0 is between its load and its exchange while thread 1 stores another
pointer and then the old one again: the exchange goes through. Later thread 1
loses an exchange to thread 0 and starts again. -/
def storedAgain : List (Fin 2 × Act Nat) :=
  [(0, .call (.update (· + 1))), (0, .next 9), (1, .call .load), (1, .next 9), (1, .make 1 7),
   (1, .call (.store (some 1))), (1, .next 9), (0, .next 2), (0, .next 9),
   (1, .call (.store (some 0))), (1, .next 9), (0, .next 9),
   (1, .call (.update (· * 2))), (1, .next 9), (1, .next 3), (0, .call (.update (· + 1))),
   (0, .next 9), (0, .next 4), (0, .next 9), (0, .next 9), (1, .next 9), (1, .next 9),
   (1, .next 3), (1, .next 9), (1, .next 9)]

theorem storedAgain_nonNull : ∀ x ∈ storedAgain, x.2.NonNull := by
  simp [storedAgain, Act.NonNull, Call.NonNull]

set_option maxRecDepth 4000 in
theorem updates_linearize_storedAgain :
    ∃ s os, (machine (Fin 2) Nat).run (State.init 0 0 5) storedAgain = some (s, os) ∧
      s.shared.published = some 14 ∧
      s.shared.published = (os.map Prod.snd).foldl Event.apply (some 5) := by
  have hv : ((machine (Fin 2) Nat).run (State.init 0 0 5) storedAgain).map
      (fun r => r.1.shared.published) = some (some 14) := by decide
  obtain ⟨⟨s, os⟩, hrun, hs⟩ := Option.map_eq_some_iff.mp hv
  exact ⟨s, os, hrun, hs, (updates_linearize 0 0 5 _ storedAgain_nonNull hrun).1⟩

end CppUtil.RcuPtr

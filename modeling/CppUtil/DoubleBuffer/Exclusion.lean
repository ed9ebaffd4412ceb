import CppUtil.DoubleBuffer.DoubleBufferLaws

/-!
# Readers and writers of a `DoubleBuffer`

An updater is let on a buffer when nobody refers to it, and readers that come
later are sent to the other one. What is left is a reader that read the index
before the swap and has not copied the pointer yet: the use count does not
show it. In every run in which a passing check meets no such reader, an updater
has its buffer to itself and what a reader holds does not change
(`update_exclusive`); wherever a check does meet one, the reader can get in
(`stale_reader_gets_in`).
-/

namespace CppUtil.DoubleBuffer

open Lang Lib

attribute [local instance] neZero_two

variable {Tid T : Type} [DecidableEq Tid]

/-- No reader has a pointer to a buffer that an updater was let on, or is about
to get one. -/
def State.Exclusive (s : State Tid T) : Prop :=
  ∀ t b, (s.threads t).frame.target = some b →
    ∀ u, b ∉ (s.threads u).held ∧ (s.threads u).frame.copies ≠ some b

/-- If this step is a use count check that passes, no reader stands between
reading that index and copying the pointer. -/
def Settled (s : State Tid T) : Tid × Act T → Prop
  | (t, .next) => ∀ i, (s.threads t).frame.checks = some i → s.shared.heap.useCount i = 1 →
      ∀ u, (s.threads u).frame.copies ≠ some i
  | _ => True

instance [Fintype Tid] (s : State Tid T) : (x : Tid × Act T) → Decidable (Settled s x)
  | (t, .next) => inferInstanceAs (Decidable (∀ i, (s.threads t).frame.checks = some i → _))
  | (_, .call _) | (_, .drop _) | (_, .throw) => isTrue trivial

theorem other_ne (i : Idx) : 1 - i ≠ i := by
  revert i
  decide

theorem Frame.Ok.target_eq {fr : Frame T} (h : fr.Ok t sh) (hb : fr.target = some b) :
    b = 1 - sh.readIdx_ := by
  cases fr <;> simp only [Frame.target, Option.some.injEq, reduceCtorEq] at hb
  · exact hb ▸ h.2
  · exact hb ▸ h.2

theorem Frame.Ok.checks_eq {fr : Frame T} (h : fr.Ok t sh) (hb : fr.checks = some b) :
    b = 1 - sh.readIdx_ := by
  cases fr <;> simp only [Frame.checks, Option.some.injEq, reduceCtorEq] at hb
  exact hb ▸ h.2

theorem Frame.Ok.keep {fr : Frame T} (h : fr.Ok u sh)
    (hex : sh.writeMtx_ = some u → sh'.writeMtx_ = some u ∧ sh'.readIdx_ = sh.readIdx_) :
    fr.Ok u sh' := by
  cases fr with
  | idle | loading | copying | locking => trivial
  | choosing => exact (hex h).1
  | checking | taking | updating | swapping =>
    obtain ⟨hm, hr⟩ := hex h.1
    exact ⟨hm, by rw [hr]; exact h.2⟩

-- ---------------------------------------------------------------------------
-- All threads
-- ---------------------------------------------------------------------------

section

variable [Fintype Tid]

def State.rest (s : State Tid T) (t : Tid) (b : Idx) : Nat :=
  others (fun th => th.owns b) s.threads t

def State.Ok (s : State Tid T) : Prop := ∀ t, (s.threads t).Ok t s.shared (s.rest t)

variable {s s' : State Tid T}

theorem State.init_ok (data : T) : (State.init data : State Tid T).Ok := by
  intro t
  have hrest : ∀ b, (State.init data : State Tid T).rest t b = 0 :=
    fun b => others_eq_zero fun u _ => rfl
  refine ⟨⟨fun b => ?_, fun b => ?_⟩, trivial⟩ <;> rw [Thread.uses, hrest]
  · rfl
  · exact ⟨fun _ => Nat.zero_lt_one, fun _ => rfl⟩

theorem State.Ok.moves (h : s.Ok)
    (hm : (s.threads t).Moves t s.shared (s.rest t) act sh' th' o) :
    State.Ok ⟨sh', Function.update s.threads t th'⟩ := by
  intro u
  by_cases hu : u = t
  · subst hu
    have hrest : State.rest ⟨sh', Function.update s.threads u th'⟩ u = s.rest u :=
      funext fun b => others_update
    simp only [hrest, Function.update_self]
    exact hm.ok
  · have hth : Function.update s.threads t th' u = s.threads u := Function.update_of_ne hu ..
    simp only [hth]
    refine ⟨hm.ok.counts.congr fun b => ?_, (h u).frame.keep (hm.excludes u hu)⟩
    have htot : (s.threads u).owns b +
        State.rest ⟨sh', Function.update s.threads t th'⟩ u b = th'.owns b + s.rest t b :=
      add_others_update (f := fun th => Thread.owns th b) hu
    unfold Thread.uses
    omega

theorem State.Ok.not_held (h : s.Ok) (hone : s.shared.heap.useCount b = 1) (u : Tid) :
    b ∉ (s.threads u).held := by
  intro hb
  have huses := (h u).counts.useCount b
  have hpos := List.count_pos_iff.mpr hb
  rw [hone, Thread.uses, Thread.owns] at huses
  omega

theorem State.Exclusive.step {x : Tid × Act T} (he : s.Exclusive) (h : s.Ok) (hx : Settled s x)
    (hs : (machine Tid T).step s x = some (s', o)) : s'.Exclusive := by
  obtain ⟨t, act⟩ := x
  obtain ⟨sh, th, es, hstep, rfl, -⟩ := Machine.interleave_step_iff.mp hs
  have hm := Thread.step_moves (h t) hstep
  intro v b hv
  -- before the step nobody could get at `b` either
  have hbefore : b ≠ s.shared.readIdx_ ∧
      ∀ u, b ∉ (s.threads u).held ∧ (s.threads u).frame.copies ≠ some b := by
    have hcases : (s.threads v).frame.target = some b ∨
        v = t ∧ act = .next ∧ (s.threads t).frame.checks = some b ∧
          s.shared.heap.useCount b = 1 := by
      by_cases hvt : v = t
      · subst hvt
        simp only [Function.update_self] at hv
        exact (hm.targets b hv).imp_right fun hc => ⟨rfl, hc⟩
      · simp only [Function.update_of_ne hvt] at hv
        exact .inl hv
    rcases hcases with htarget | ⟨rfl, rfl, hchecks, hone⟩
    · exact ⟨(h v).frame.target_eq htarget ▸ other_ne _, he v b htarget⟩
    · exact ⟨(h v).frame.checks_eq hchecks ▸ other_ne _,
        fun u => ⟨h.not_held hone u, hx b hchecks hone u⟩⟩
  obtain ⟨hne, hfree⟩ := hbefore
  intro u
  by_cases hu : u = t
  · subst hu
    simp only [Function.update_self]
    constructor
    · intro hb
      exact (hm.gains b hb).elim (hfree u).1 (hfree u).2
    · intro hb
      exact (hm.reads b hb).elim (hfree u).2 hne
  · simp only [Function.update_of_ne hu]
    exact hfree u

theorem State.Ok.step {x : Tid × Act T} (h : s.Ok)
    (hs : (machine Tid T).step s x = some (s', o)) : s'.Ok := by
  obtain ⟨sh, th, es, hstep, rfl, -⟩ := Machine.interleave_step_iff.mp hs
  exact h.moves (Thread.step_moves (h x.1) hstep)

-- ---------------------------------------------------------------------------
-- Pointers that are held
-- ---------------------------------------------------------------------------

theorem State.Ok.step_loaded {x : Tid × Act T} (h : s.Ok)
    (hs : (machine Tid T).step s x = some (s', [(t, .loaded b v)])) :
    b ∈ (s'.threads t).held ∧ s'.shared.heap.value b = v := by
  obtain ⟨sh, th, hstep, rfl⟩ := Machine.step_of_emits_one hs
  simp only [Function.update_self]
  exact (Thread.step_moves (h t) hstep).returns b v (List.mem_singleton_self _)

theorem State.Ok.held_step {x : Tid × Act T} (h : s.Ok) (he : s.Exclusive)
    (hs : (machine Tid T).step s x = some (s', o)) (hb : b ∈ (s.threads t).held)
    (hne : x ≠ (t, .drop b)) :
    b ∈ (s'.threads t).held ∧ s'.shared.heap.value b = s.shared.heap.value b := by
  obtain ⟨u, act⟩ := x
  obtain ⟨sh, th, es, hstep, rfl, rfl⟩ := Machine.interleave_step_iff.mp hs
  have hm := Thread.step_moves (h u) hstep
  refine ⟨?_, hm.keeps b fun htarget => (he u b htarget t).1 hb⟩
  by_cases hu : t = u
  · subst hu
    simp only [Function.update_self]
    exact (hm.held b hb).resolve_right fun hdrop => hne (by rw [hdrop])
  · simp only [Function.update_of_ne hu]
    exact hb

-- ---------------------------------------------------------------------------
-- Every interleaving
-- ---------------------------------------------------------------------------

/-- As long as no passing check overlooks a reader on its way to the buffer, an
updater has its buffer to itself, and what a `Load` returned stays as it was
while it is held. -/
theorem update_exclusive (data : T) (as : List (Tid × Act T))
    (hsettled : (machine Tid T).Meets Settled (State.init data) as)
    (hrun : (machine Tid T).run (State.init data) as = some (s, os)) :
    s.Exclusive ∧
    ∀ t b v, (machine Tid T).Since (State.init data) as (t, .loaded b v) (t, .drop b) →
      b ∈ (s.threads t).held ∧ s.shared.heap.value b = v := by
  have hinit : (State.init data : State Tid T).Ok ∧ (State.init data : State Tid T).Exclusive :=
    ⟨State.init_ok data, nofun⟩
  have hkeeps : ∀ s x o s', State.Ok s ∧ State.Exclusive s → Settled s x →
      (machine Tid T).step s x = some (s', o) → State.Ok s' ∧ State.Exclusive s' :=
    fun _ _ _ _ hi hx hs => ⟨hi.1.step hs, hi.2.step hi.1 hx hs⟩
  refine ⟨(Machine.run_invariant Settled _ hkeeps hinit hsettled hrun).2, fun t b v hsince => ?_⟩
  refine Machine.run_since Settled (fun s => s.Ok ∧ s.Exclusive)
    (fun s => b ∈ (s.threads t).held ∧ s.shared.heap.value b = v) hkeeps
    (fun _ _ _ hi _ hs => hi.1.step_loaded hs) ?_ hinit hsettled hrun hsince
  rintro s₁ x o s₂ hi ⟨hb, hv⟩ - hne hs
  obtain ⟨hb', hv'⟩ := hi.1.held_step hi.2 hs hb hne
  exact ⟨hb', hv'.trans hv⟩

end

def promptLoad : List (Fin 2 × Act Nat) :=
  [(0, .call .load), (0, .next), (0, .next), (1, .call (.update [(· + 1)]))] ++
    List.replicate 9 (1, .next) ++ [(0, .drop 0)] ++ List.replicate 4 (1, .next) ++
    [(0, .call .load), (0, .next), (1, .call (.reset 9)), (0, .next)] ++ List.replicate 4 (1, .next)

theorem update_exclusive_promptLoad :
    ∃ s os, (machine (Fin 2) Nat).run (State.init 5) promptLoad = some (s, os) ∧ s.Exclusive ∧
      (s.threads 1).frame.target = some 0 ∧ (s.threads 0).held = [1] := by
  have h : ((machine (Fin 2) Nat).run (State.init 5) promptLoad).map
      (fun r => ((r.1.threads 1).frame.target, (r.1.threads 0).held)) =
      some (some 0, [1]) := by decide +kernel
  obtain ⟨⟨s, os⟩, hrun, hs⟩ := Option.map_eq_some_iff.mp h
  simp only [Prod.mk.injEq] at hs
  exact ⟨s, os, hrun, (update_exclusive 5 _ (by decide +kernel) hrun).1, hs⟩

-- ---------------------------------------------------------------------------
-- Readers that are overlooked
-- ---------------------------------------------------------------------------

theorem Frame.copies_iff {fr : Frame T} : fr.copies = some i ↔ fr = .copying i := by
  cases fr <;> simp [Frame.copies]

theorem Frame.checks_iff {fr : Frame T} :
    fr.checks = some i ↔ ∃ u half wb, fr = .checking u half wb i := by
  cases fr <;> simp [Frame.checks]

/-- Where a passing check overlooks a reader, the reader gets its pointer to
the buffer the updater was let on. -/
theorem stale_reader_gets_in {s : State Tid T} (hchecks : (s.threads t).frame.checks = some i)
    (hone : s.shared.heap.useCount i = 1) (hcopies : (s.threads u).frame.copies = some i) :
    ∃ s' os, (machine Tid T).run s [(t, .next), (u, .next)] = some (s', os) ∧
      (s'.threads t).frame.target = some i ∧ i ∈ (s'.threads u).held := by
  rw [Frame.copies_iff] at hcopies
  obtain ⟨up, half, wb, hfr⟩ := Frame.checks_iff.mp hchecks
  have hne : u ≠ t := by
    rintro rfl
    rw [hcopies] at hfr
    cases hfr
  have hcheck : (s.threads t).step t s.shared .next =
      some (s.shared, ⟨(s.threads t).held, .taking up half wb i⟩, []) := by
    simp only [Thread.step, Thread.next, hfr, hone, ↓reduceIte]
  have hcopy : (s.threads u).step u s.shared .next =
      some ({ s.shared with heap := s.shared.heap.acquire (some i) },
        ⟨i :: (s.threads u).held, .idle⟩, [.loaded i (s.shared.heap.value i)]) := by
    simp only [Thread.step, Thread.next, hcopies]
  rw [← Function.update_of_ne hne ⟨(s.threads t).held, .taking up half wb i⟩ s.threads] at hcopy
  refine ⟨_, _, Machine.run_cons_iff.mpr ⟨_, _, _, Machine.interleave_step_iff.mpr
    ⟨_, _, _, hcheck, rfl, rfl⟩, Machine.run_cons_iff.mpr ⟨_, _, _, Machine.interleave_step_iff.mpr
      ⟨_, _, _, hcopy, rfl, rfl⟩, rfl, rfl⟩, rfl⟩, ?_, ?_⟩
  · simp [Function.update_of_ne (Ne.symm hne), Frame.target]
  · simp

/-- Thread 1 updates by adding one, while thread 0 loads: thread 0 reads the
index before the swap. -/
def staleLoad : List (Fin 2 × Act Nat) :=
  [(0, .call .load), (0, .next), (1, .call (.update [(· + 1)]))] ++
    List.replicate 10 (1, .next) ++ [(0, .next)]

/-- The reader has a pointer to the buffer while the updater is on it, and with
the next step the object changes under it. -/
theorem update_not_exclusive :
    ∃ s os s' os', (machine (Fin 2) Nat).run (State.init 5) staleLoad = some (s, os) ∧
      (machine (Fin 2) Nat).run (State.init 5) (staleLoad ++ [(1, .next)]) = some (s', os') ∧
      ((s.threads 1).frame.target = some 0 ∧ 0 ∈ (s.threads 0).held) ∧
      s.shared.heap.value 0 = some 5 ∧
      0 ∈ (s'.threads 0).held ∧ s'.shared.heap.value 0 = some 6 := by
  have h : ((machine (Fin 2) Nat).run (State.init 5) staleLoad).map
      (fun r => ((r.1.threads 1).frame.target, (r.1.threads 0).held, r.1.shared.heap.value 0)) =
      some (some 0, [0], some 5) := by decide
  have h' : ((machine (Fin 2) Nat).run (State.init 5) (staleLoad ++ [(1, .next)])).map
      (fun r => ((r.1.threads 0).held, r.1.shared.heap.value 0)) = some ([0], some 6) := by decide
  obtain ⟨⟨s, os⟩, hrun, hs⟩ := Option.map_eq_some_iff.mp h
  obtain ⟨⟨s', os'⟩, hrun', hs'⟩ := Option.map_eq_some_iff.mp h'
  simp only [Prod.mk.injEq] at hs hs'
  exact ⟨s, os, s', os', hrun, hrun', ⟨hs.1, by simp [hs.2.1]⟩, hs.2.2, by simp [hs'.1], hs'.2⟩

end CppUtil.DoubleBuffer

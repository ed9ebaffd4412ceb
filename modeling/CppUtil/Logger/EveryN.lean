import CppUtil.Lib.Machine

/-!
# `LOG_*_EVERY(N)`

The macro counts its executions at one call site and logs when the counter is
back at one. The counter is atomic, but the macro makes up to four accesses to
it: it increments, compares with `N`, subtracts `N`, and compares with one.

Between the comparison and the subtraction another thread can compare as well,
and then `N` is subtracted twice. `counter_bounded_iff` says that this is the
only way to leave the bounds, and that it is there for any two threads.
-/

namespace CppUtil.Logger.EveryN

open Lib

inductive Frame
  | outside
  | comparing
  | subtracting
  | testing
  deriving DecidableEq

inductive Act
  | call
  | next
  deriving DecidableEq

inductive Event
  /-- `cnt -= N`, with the value it finds. -/
  | subtracted (cnt : UInt32)
  | logged
  deriving DecidableEq

def step (N cnt : UInt32) : Frame → Act → Option (UInt32 × Frame × List Event)
  | .outside, .call => some (cnt + 1, .comparing, [])
  | .comparing, .next => some (cnt, if cnt > N then .subtracting else .testing, [])
  | .subtracting, .next => some (cnt - N, .testing, [.subtracted cnt])
  | .testing, .next => some (cnt, .outside, if cnt = 1 then [.logged] else [])
  | _, _ => none

inductive Moves (N cnt : UInt32) : Frame → Act → UInt32 → Frame → List Event → Prop
  | increment : Moves N cnt .outside .call (cnt + 1) .comparing []
  | exceeds (h : N < cnt) : Moves N cnt .comparing .next cnt .subtracting []
  | fits (h : cnt ≤ N) : Moves N cnt .comparing .next cnt .testing []
  | subtract : Moves N cnt .subtracting .next (cnt - N) .testing [.subtracted cnt]
  | logs (h : cnt = 1) : Moves N cnt .testing .next cnt .outside [.logged]
  | skips (h : cnt ≠ 1) : Moves N cnt .testing .next cnt .outside []

theorem step_moves (h : step N cnt fr act = some (cnt', fr', es)) :
    Moves N cnt fr act cnt' fr' es := by
  cases fr <;> cases act <;>
    simp only [step, Option.some.injEq, Prod.mk.injEq, reduceCtorEq] at h
  case outside.call =>
    obtain ⟨rfl, rfl, rfl⟩ := h
    exact .increment
  case comparing.next =>
    obtain ⟨rfl, hfr, rfl⟩ := h
    split at hfr <;> subst hfr
    case isTrue hgt => exact .exceeds hgt
    case isFalse hle => exact .fits (UInt32.not_lt.mp hle)
  case subtracting.next =>
    obtain ⟨rfl, rfl, rfl⟩ := h
    exact .subtract
  case testing.next =>
    obtain ⟨rfl, rfl, hes⟩ := h
    split at hes <;> subst hes
    case isTrue hone => exact .logs hone
    case isFalse hne => exact .skips hne

abbrev State (Tid : Type) := Config Tid UInt32 Frame

def machine (Tid : Type) [DecidableEq Tid] (N : UInt32) :
    Machine (State Tid) (Tid × Act) (Tid × Event) :=
  .interleave fun _ cnt fr => step N cnt fr

def State.init {Tid : Type} : State Tid where
  shared := 0
  threads _ := .outside

section

variable {Tid : Type} {N : UInt32} {s s' : State Tid}

/-- If this step is a subtraction, the counter is large enough. -/
def Covered (N : UInt32) (s : State Tid) (x : Tid × Act) : Prop :=
  s.threads x.1 = .subtracting → N ≤ s.shared

variable [DecidableEq Tid]

-- ---------------------------------------------------------------------------
-- One thread
-- ---------------------------------------------------------------------------

/-- A thread that is about to subtract was right to do so. -/
def Justified (N : UInt32) (s : State Tid) : Prop := ∀ t, s.threads t = .subtracting → N < s.shared

theorem step_to_subtracting (h : step N cnt fr act = some (cnt', .subtracting, o)) :
    cnt' = cnt ∧ N < cnt := by
  cases step_moves h with
  | exceeds hgt => exact ⟨rfl, hgt⟩

theorem not_max_lt (cnt : UInt32) : ¬ 0xffffffff < cnt := by
  have hcnt := cnt.toNat_lt
  rw [UInt32.lt_iff_toNat_lt]
  simp only [UInt32.reduceToNat]
  omega

theorem Justified.step (hone : Subsingleton Tid ∨ N = 0xffffffff) (h : Justified N s)
    (hs : (machine Tid N).step s x = some (s', o)) : Justified N s' := by
  obtain ⟨t, act⟩ := x
  obtain ⟨cnt, fr, es, hstep, rfl, rfl⟩ := Machine.interleave_step_iff.mp hs
  intro u hu
  by_cases hut : u = t
  · subst hut
    simp only [Function.update_self] at hu
    subst hu
    obtain ⟨rfl, hlt⟩ := step_to_subtracting hstep
    exact hlt
  · simp only [Function.update_of_ne hut] at hu
    rcases hone with hone | rfl
    · exact absurd (Subsingleton.elim u t) hut
    · exact absurd (h u hu) (not_max_lt _)

theorem meets_covered (hone : Subsingleton Tid ∨ N = 0xffffffff) :
    (machine Tid N).Meets (Covered N) State.init as := by
  refine Machine.Meets.of_invariant (Justified N) (fun s x h hsub => ?_)
    (fun _ _ _ _ h hs => h.step hone hs) ?_
  · exact UInt32.le_of_lt (h x.1 hsub)
  · intro t ht
    cases ht

-- ---------------------------------------------------------------------------
-- Two threads
-- ---------------------------------------------------------------------------

def calls (t : Tid) : Nat → List (Tid × Act)
  | 0 => []
  | k + 1 => calls t k ++ [(t, .call), (t, .next), (t, .next)]

def race (t u : Tid) : List (Tid × Act) :=
  [(t, .call), (u, .call), (t, .next), (u, .next), (t, .next), (u, .next)]

def State.quiet (cnt : UInt32) : State Tid := ⟨cnt, fun _ => .outside⟩

theorem run_access (hfr : s.threads t = fr) (hstep : step N s.shared fr act = some (cnt, fr', es))
    (h : ∃ s', (machine Tid N).run ⟨cnt, Function.update s.threads t fr'⟩ as = some (s', os))
    (hos : os' = es.map (t, ·) ++ os) :
    ∃ s', (machine Tid N).run s ((t, act) :: as) = some (s', os') := by
  subst hfr
  obtain ⟨s', h⟩ := h
  exact ⟨s', Machine.run_cons_iff.mpr
    ⟨_, _, _, Machine.interleave_step_iff.mpr ⟨cnt, fr', es, hstep, rfl, rfl⟩, h, hos⟩⟩

theorem run_call (t : Tid) (h : cnt < N) :
    ∃ o, (machine Tid N).run (.quiet cnt) [(t, .call), (t, .next), (t, .next)] =
      some (.quiet (cnt + 1), o) := by
  have hle : ¬ cnt + 1 > N := by
    have := N.toNat_lt
    rw [UInt32.lt_iff_toNat_lt] at h
    rw [gt_iff_lt, UInt32.lt_iff_toNat_lt, UInt32.toNat_add]
    simp only [UInt32.reduceToNat]
    omega
  simp [Machine.run, machine, Machine.interleave, State.quiet, step, hle]

theorem run_calls (t : Tid) (hk : k < N.toNat) :
    ∃ o, (machine Tid N).run State.init (calls t k) = some (.quiet (.ofNat k), o) := by
  induction k with
  | zero => exact ⟨[], rfl⟩
  | succ k ih =>
    obtain ⟨o₁, h₁⟩ := ih (Nat.lt_of_succ_lt hk)
    have hlt : UInt32.ofNat k < N := by
      rw [UInt32.lt_iff_toNat_lt,
        UInt32.toNat_ofNat_of_lt' (Nat.lt_trans (Nat.lt_of_succ_lt hk) N.toNat_lt)]
      exact Nat.lt_of_succ_lt hk
    obtain ⟨o₂, h₂⟩ := run_call t hlt
    rw [← UInt32.ofNat_one, ← UInt32.ofNat_add] at h₂
    exact ⟨o₁ ++ o₂, Machine.run_append_iff.mpr ⟨_, _, _, h₁, h₂, rfl⟩⟩

theorem run_race (htu : t ≠ u) (hcnt : cnt + 1 = N) (hN : N < 0xffffffff) :
    ∃ s, (machine Tid N).run (.quiet cnt) (race t u) =
      some (s, [(t, .subtracted (N + 1)), (u, .subtracted 1)]) := by
  subst hcnt
  have hgt : cnt + 1 + 1 > cnt + 1 := by
    rw [UInt32.lt_iff_toNat_lt] at hN
    rw [gt_iff_lt, UInt32.lt_iff_toNat_lt, UInt32.toNat_add (cnt + 1)]
    simp only [UInt32.reduceToNat] at hN ⊢
    omega
  have hsub : cnt + 1 + 1 - (cnt + 1) = 1 := by
    rw [UInt32.add_comm (cnt + 1) 1, UInt32.add_sub_cancel]
  have hcall (c : UInt32) : step (cnt + 1) c .outside .call = some (c + 1, .comparing, []) := rfl
  have hcompare : step (cnt + 1) (cnt + 1 + 1) .comparing .next =
      some (cnt + 1 + 1, .subtracting, []) := by
    rw [step, if_pos hgt]
  have hfirst : step (cnt + 1) (cnt + 1 + 1) .subtracting .next =
      some (1, .testing, [.subtracted (cnt + 1 + 1)]) := by
    rw [step, hsub]
  have hsecond : step (cnt + 1) 1 .subtracting .next =
      some (1 - (cnt + 1), .testing, [.subtracted 1]) := rfl
  -- Two increments, two comparisons, two subtractions.
  refine run_access rfl (hcall cnt) ?_ rfl
  refine run_access (by simp [State.quiet, htu.symm]) (hcall (cnt + 1)) ?_ rfl
  refine run_access (by simp [htu]) hcompare ?_ rfl
  refine run_access (by simp [htu.symm]) hcompare ?_ rfl
  refine run_access (by simp [htu]) hfirst ?_ rfl
  exact run_access (by simp [htu.symm]) hsecond ⟨_, rfl⟩ rfl

/-- Any two threads can make a subtraction find the counter at one. -/
theorem two_threads_race (htu : t ≠ u) (hN : 0 < N.toNat) (hmax : N ≠ 0xffffffff) :
    ∃ as s os, (machine Tid N).run State.init as = some (s, os) ∧ (u, .subtracted 1) ∈ os := by
  obtain ⟨o₁, h₁⟩ := @run_calls _ N _ (N.toNat - 1) t (by omega)
  have hcnt : UInt32.ofNat (N.toNat - 1) + 1 = N := by
    rw [← UInt32.ofNat_one, ← UInt32.ofNat_add, Nat.sub_add_cancel hN, UInt32.ofNat_toNat]
  obtain ⟨s, h₂⟩ := run_race htu hcnt (UInt32.lt_of_le_of_ne (UInt32.not_lt.mp (not_max_lt _)) hmax)
  exact ⟨_, _, _, Machine.run_append_iff.mpr ⟨_, _, _, h₁, h₂, rfl⟩, by simp⟩

-- ---------------------------------------------------------------------------
-- Bounds
-- ---------------------------------------------------------------------------

def Frame.inside : Frame → Nat
  | .outside => 0
  | .comparing | .subtracting | .testing => 1

def Frame.pending : Frame → Nat
  | .outside | .testing => 0
  | .comparing | .subtracting => 1

variable [Fintype Tid]

/-- No subtraction has wrapped, and the counter exceeds `N` by no more than the
threads inside the macro. -/
def Bounded (N : UInt32) (os : List (Tid × Event)) (s : State Tid) : Prop :=
  (∀ t cnt, (t, .subtracted cnt) ∈ os → N ≤ cnt) ∧
    s.shared.toNat ≤ N.toNat + total Frame.inside s.threads

structure Tight (N : UInt32) (os : List (Tid × Event)) (s : State Tid) : Prop where
  covered : ∀ t cnt, (t, .subtracted cnt) ∈ os → N ≤ cnt
  bound : s.shared.toNat ≤ N.toNat + total Frame.pending s.threads

omit [DecidableEq Tid] in
theorem Tight.bounded (h : Tight N os s) : Bounded N os s := by
  refine ⟨h.covered, h.bound.trans (Nat.add_le_add_left (Finset.sum_le_sum fun t _ => ?_) _)⟩
  cases s.threads t <;> decide

omit [DecidableEq Tid] in
theorem State.init_tight : Tight N [] (State.init : State Tid) where
  covered := by simp
  bound := Nat.zero_le _

theorem step_bound (hN : 0 < N.toNat) (h : step N cnt fr act = some (cnt', fr', o))
    (hcov : fr = .subtracting → N ≤ cnt) (hcnt : cnt.toNat ≤ N.toNat + (fr.pending + r)) :
    cnt'.toNat ≤ N.toNat + (fr'.pending + r) := by
  cases step_moves h with
  | increment =>
    have hle : (cnt + 1).toNat ≤ cnt.toNat + 1 := by
      rw [UInt32.toNat_add]
      exact Nat.mod_le _ _
    simp only [Frame.pending] at hcnt ⊢
    omega
  | exceeds => exact hcnt
  | fits hle =>
    have := UInt32.le_iff_toNat_le.mp hle
    omega
  | subtract =>
    have hle := UInt32.le_iff_toNat_le.mp (hcov rfl)
    rw [UInt32.toNat_sub_of_le _ _ (hcov rfl)]
    simp only [Frame.pending] at hcnt ⊢
    omega
  | logs | skips => exact hcnt

theorem subtracted_mem_iff (h : step N cnt fr act = some (cnt', fr', o)) :
    .subtracted c ∈ o ↔ fr = .subtracting ∧ c = cnt := by
  cases step_moves h <;> simp

theorem Tight.step (hN : 0 < N.toNat) (h : Tight N os s) (hcov : Covered N s x)
    (hs : (machine Tid N).step s x = some (s', o)) : Tight N (os ++ o) s' := by
  obtain ⟨t, act⟩ := x
  obtain ⟨cnt, fr, es, hstep, rfl, rfl⟩ := Machine.interleave_step_iff.mp hs
  constructor
  · intro u c hc
    rcases List.mem_append.mp hc with hc | hc
    · exact h.covered u c hc
    · obtain ⟨e, he, heq⟩ := List.mem_map.mp hc
      cases heq
      obtain ⟨hsub, rfl⟩ := (subtracted_mem_iff hstep).mp he
      exact hcov hsub
  · rw [total_update]
    exact step_bound hN hstep hcov (total_eq Frame.pending s.threads t ▸ h.bound)

theorem not_bounded_of_not_covered (hcov : ¬ Covered N s x)
    (hs : (machine Tid N).step s x = some (s', o)) : ¬ Bounded N (os ++ o) s' := by
  obtain ⟨t, act⟩ := x
  obtain ⟨cnt, fr, es, hstep, rfl, rfl⟩ := Machine.interleave_step_iff.mp hs
  rintro ⟨hb, -⟩
  refine hcov fun hsub => hb t s.shared (List.mem_append_right _ (List.mem_map.mpr ⟨_, ?_, rfl⟩))
  exact (subtracted_mem_iff hstep).mpr ⟨hsub, rfl⟩

theorem throughout_bounded_iff (hN : 0 < N.toNat)
    (h : (machine Tid N).run State.init as = some (s, os)) :
    (machine Tid N).Throughout (Bounded N) [] State.init as ↔
      (machine Tid N).Meets (Covered N) State.init as :=
  Machine.throughout_iff_meets (Covered N) (Tight N) (Bounded N) (fun _ _ h => h.bounded)
    (fun _ _ _ _ _ h hcov hs => h.step hN hcov hs)
    (fun _ _ _ _ _ _ hcov hs => not_bounded_of_not_covered hcov hs) State.init_tight h

/-- In a run the counter stays within its bounds exactly if every subtraction
finds it large enough; in all runs it does exactly for a single thread, or
where the comparison never passes. -/
theorem counter_bounded_iff (hN : 2 ≤ N) :
    (∀ as s os, (machine Tid N).run State.init as = some (s, os) →
      ((machine Tid N).Throughout (Bounded N) [] State.init as ↔
        (machine Tid N).Meets (Covered N) State.init as)) ∧
    ((∀ as s os, (machine Tid N).run State.init as = some (s, os) →
        (machine Tid N).Throughout (Bounded N) [] State.init as) ↔
      Subsingleton Tid ∨ N = 0xffffffff) := by
  have hlt : 1 < N := UInt32.lt_of_lt_of_le (by decide) hN
  have hpos : 0 < N.toNat := Nat.lt_trans Nat.zero_lt_one (UInt32.lt_iff_toNat_lt.mp hlt)
  refine ⟨fun as s os h => throughout_bounded_iff hpos h, fun hall => ?_, fun hone as s os h => ?_⟩
  · by_contra hmany
    rw [not_or, not_subsingleton_iff_nontrivial] at hmany
    obtain ⟨⟨t, u, htu⟩, hmax⟩ := hmany
    obtain ⟨as, s, os, hrun, hmem⟩ := two_threads_race htu hpos hmax
    have hle : N ≤ 1 := ((hall as s os hrun).last hrun).1 u 1 hmem
    exact absurd hlt (UInt32.not_lt.mpr hle)
  · exact (throughout_bounded_iff hpos h).mpr (meets_covered hone)

end

def fourCalls : List (Unit × Act) := calls () 3 ++ [((), .call), ((), .next), ((), .next), ((), .next)]

theorem counter_bounded_iff_one_thread :
    (machine Unit 3).Throughout (Bounded 3) [] State.init fourCalls ∧
      ((machine Unit 3).run State.init fourCalls).map (fun r => (r.1.shared, r.2)) =
        some (1, [((), .logged), ((), .subtracted 4), ((), .logged)]) := by
  have h : ((machine Unit 3).run State.init fourCalls).isSome := by decide
  obtain ⟨⟨s, os⟩, hrun⟩ := Option.isSome_iff_exists.mp h
  exact ⟨(counter_bounded_iff (by decide)).2.mpr (.inl inferInstance) _ s os hrun, by decide⟩

/-- With the counter at one, two threads execute `LOG_INFO_EVERY(2)`. -/
theorem counter_wraps_two_threads :
    ∃ s os, (machine Bool 2).run State.init (calls true 1 ++ race true false) = some (s, os) ∧
      (false, .subtracted 1) ∈ os ∧ s.shared = 0xffffffff ∧
      ¬ (machine Bool 2).Throughout (Bounded 2) [] State.init (calls true 1 ++ race true false) := by
  have h : ((machine Bool 2).run State.init (calls true 1 ++ race true false)).map
      (fun r => (r.1.shared, r.2)) = some (0xffffffff,
        [(true, .logged), (true, .subtracted 3), (false, .subtracted 1)]) := by decide
  obtain ⟨⟨s, os⟩, hrun, hs⟩ := Option.map_eq_some_iff.mp h
  simp only [Prod.mk.injEq] at hs
  obtain ⟨hcnt, rfl⟩ := hs
  refine ⟨s, _, hrun, by simp, hcnt, fun hb => ?_⟩
  exact absurd ((hb.last hrun).1 false 1 (by simp)) (by decide)

end CppUtil.Logger.EveryN

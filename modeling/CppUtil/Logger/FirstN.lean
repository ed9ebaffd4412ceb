import CppUtil.Logger.EveryNRuns

/-!
# `LOG_*_FIRST_N(N)`

The macro increments its counter and logs while the counter is at most `N`. In
any interleaving the lines and the threads about to compare are no more than the
executions that have begun (`Emitted`), so a line is one of the first `N` as long
as the counter is the number of executions.

The counter has 32 bits and is incremented after the limit as well. When it
wraps around, the statement logs again (`lines_le_iff`).
-/

namespace CppUtil.Logger.FirstN

open Lib
open EveryN (begun begun_append begun_concat)

inductive Frame
  | outside
  | testing
  deriving DecidableEq

inductive Event
  | logged
  deriving DecidableEq

/-- `__LOG_FIRST_N__`. The limit is an expression of any unsigned type. -/
def step (N : Nat) (cnt : UInt32) : Frame → EveryN.Act → Option (UInt32 × Frame × List Event)
  | .outside, .call => some (cnt + 1, .testing, [])
  | .testing, .next => some (cnt, .outside, if cnt.toNat ≤ N then [.logged] else [])
  | _, _ => none

abbrev State (Tid : Type) := Config Tid UInt32 Frame

def machine (Tid : Type) [DecidableEq Tid] (N : Nat) :
    Machine (State Tid) (Tid × EveryN.Act) (Tid × Event) :=
  .interleave fun _ cnt fr => step N cnt fr

def State.init {Tid : Type} : State Tid where
  shared := 0
  threads _ := .outside

variable {Tid : Type} [DecidableEq Tid] {N : Nat} {s s' : State Tid}

-- ---------------------------------------------------------------------------
-- Every interleaving
-- ---------------------------------------------------------------------------

structure Emitted (N : Nat) (as : List (Tid × EveryN.Act)) (os : List (Tid × Event))
    (s : State Tid) : Prop where
  counter : s.shared = .ofNat (begun as)
  lines : ∃ waiting : Finset Tid, (∀ t, t ∈ waiting ↔ s.threads t = .testing) ∧
    os.length + waiting.card ≤ begun as
  bound : begun as < UInt32.size → os.length ≤ N

omit [DecidableEq Tid] in
theorem State.init_emitted : Emitted N [] [] (State.init : State Tid) where
  counter := rfl
  lines := ⟨∅, by simp [State.init], Nat.le_refl 0⟩
  bound _ := Nat.zero_le N

theorem Emitted.call (h : Emitted N as os s) (hout : s.threads t = .outside) :
    Emitted N (as ++ [(t, .call)]) os ⟨s.shared + 1, Function.update s.threads t .testing⟩ := by
  obtain ⟨hcnt, ⟨waiting, hmem, hcard⟩, hbound⟩ := h
  have hnew : t ∉ waiting := by simp [hmem, hout]
  refine ⟨?_, ⟨insert t waiting, ?_, ?_⟩, ?_⟩
  · rw [begun_concat, hcnt, EveryN.Act.begins, UInt32.ofNat_add]
    rfl
  · intro u
    by_cases hu : u = t <;> simp [hu, hmem]
  · rw [begun_concat, Finset.card_insert_of_notMem hnew, EveryN.Act.begins]
    omega
  · intro hlt
    rw [begun_concat] at hlt
    exact hbound (Nat.lt_of_le_of_lt (Nat.le_add_right _ _) hlt)

theorem Emitted.next (h : Emitted N as os s) (htest : s.threads t = .testing) :
    Emitted N (as ++ [(t, .next)])
      (os ++ (if s.shared.toNat ≤ N then [.logged] else []).map fun e => (t, e))
      ⟨s.shared, Function.update s.threads t .outside⟩ := by
  obtain ⟨hcnt, ⟨waiting, hmem, hcard⟩, hbound⟩ := h
  have ht : t ∈ waiting := (hmem t).mpr htest
  have hlines : (os ++ (if s.shared.toNat ≤ N then [Event.logged] else []).map
      fun e => (t, e)).length ≤ os.length + 1 := by
    split <;> simp
  have hone := Finset.card_erase_add_one ht
  have hbegun : begun (as ++ [(t, EveryN.Act.next)]) = begun as := begun_concat
  refine ⟨?_, ⟨waiting.erase t, ?_, ?_⟩, ?_⟩
  · rw [hbegun, hcnt]
  · intro u
    by_cases hu : u = t <;> simp [hu, hmem]
  · rw [hbegun]
    omega
  · rw [hbegun]
    intro hlt
    split
    · -- The counter is the number of executions, and this one has not logged yet.
      rename_i hle
      rw [hcnt, UInt32.toNat_ofNat_of_lt' hlt] at hle
      simp only [List.map_cons, List.map_nil, List.length_append, List.length_singleton]
      omega
    · simpa using hbound hlt

theorem Emitted.step (h : Emitted N as os s) (hs : (machine Tid N).step s x = some (s', o)) :
    Emitted N (as ++ [x]) (os ++ o) s' := by
  obtain ⟨t, act⟩ := x
  obtain ⟨cnt, fr, es, hstep, rfl, rfl⟩ := Machine.interleave_step_iff.mp hs
  cases hfr : s.threads t <;> cases act <;>
    simp only [hfr, FirstN.step, Option.some.injEq, Prod.mk.injEq, reduceCtorEq] at hstep
  case outside.call =>
    obtain ⟨rfl, rfl, rfl⟩ := hstep
    simpa using h.call hfr
  case testing.next =>
    obtain ⟨rfl, rfl, rfl⟩ := hstep
    exact h.next hfr

theorem run_emitted (h : (machine Tid N).run State.init as = some (s, os)) : Emitted N as os s :=
  @Machine.run_keeps _ _ _ (machine Tid N) [] [] _ _ _ _ (fun _ _ => True) (Emitted N)
    (fun _ _ _ _ _ _ hi _ hs => hi.step hs) State.init_emitted .trivial h

-- ---------------------------------------------------------------------------
-- Around the counter
-- ---------------------------------------------------------------------------

def calls (t : Tid) : Nat → List (Tid × EveryN.Act)
  | 0 => []
  | k + 1 => calls t k ++ [(t, .call), (t, .next)]

omit [DecidableEq Tid] in
theorem begun_calls (t : Tid) (k : Nat) : begun (calls t k) = k := by
  induction k with
  | zero => rfl
  | succ k ih =>
    rw [calls, begun_append, ih]
    rfl

def State.quiet (cnt : UInt32) : State Tid := ⟨cnt, fun _ => .outside⟩

theorem run_call (t : Tid) (cnt : UInt32) :
    (machine Tid N).run (.quiet cnt) [(t, .call), (t, .next)] =
      some (.quiet (cnt + 1), if (cnt + 1).toNat ≤ N then [(t, .logged)] else []) := by
  by_cases hle : (cnt + 1).toNat ≤ N <;>
    simp [Machine.run, machine, Machine.interleave, State.quiet, step, hle, -UInt32.toNat_add]

theorem succ_toNat (k : Nat) : (UInt32.ofNat k + 1).toNat = (k + 1) % UInt32.size := by
  rw [← UInt32.ofNat_one, ← UInt32.ofNat_add, UInt32.toNat_ofNat']

theorem run_calls (t : Tid) (k : Nat) :
    ∃ os, (machine Tid N).run State.init (calls t k) = some (.quiet (.ofNat k), os) ∧
      min k N ≤ os.length := by
  induction k with
  | zero => exact ⟨[], rfl, Nat.min_le_left 0 N⟩
  | succ k ih =>
    obtain ⟨os, hrun, hlines⟩ := ih
    have hmore := @run_call _ _ N t (.ofNat k)
    rw [succ_toNat, ← UInt32.ofNat_one, ← UInt32.ofNat_add] at hmore
    refine ⟨_, Machine.run_append_iff.mpr ⟨_, _, _, hrun, hmore, rfl⟩, ?_⟩
    have hle := Nat.mod_le (k + 1) UInt32.size
    rw [List.length_append]
    split
    · rw [List.length_singleton]
      omega
    · omega

theorem run_exceeds (t : Tid) (N : Nat) :
    ∃ s os, (machine Tid N).run State.init (calls t (max UInt32.size (N + 1))) = some (s, os) ∧
      N < os.length := by
  obtain ⟨k, hk⟩ : ∃ k, max UInt32.size (N + 1) = k + 1 :=
    ⟨max UInt32.size (N + 1) - 1, by omega⟩
  obtain ⟨os, hrun, hlines⟩ := @run_calls _ _ N t k
  have hmore := @run_call _ _ N t (.ofNat k)
  have hlog : (k + 1) % UInt32.size ≤ N := by
    rcases Nat.lt_or_ge N UInt32.size with hN | hN
    · rw [show k + 1 = UInt32.size by omega, Nat.mod_self]
      exact Nat.zero_le N
    · exact Nat.le_trans (Nat.le_of_lt (Nat.mod_lt _ (by decide))) hN
  rw [succ_toNat, if_pos hlog] at hmore
  rw [hk, calls]
  refine ⟨_, _, Machine.run_append_iff.mpr ⟨_, _, _, hrun, hmore, rfl⟩, ?_⟩
  rw [List.length_append, List.length_singleton]
  omega

/-- At most `N` lines, exactly for fewer than `2 ^ 32` executions or for no more
executions than `N`. -/
theorem lines_le_iff [Nonempty Tid] (N K : Nat) :
    (∀ as s os, (machine Tid N).run State.init as = some (s, os) → begun as ≤ K → os.length ≤ N) ↔
      K < UInt32.size ∨ K ≤ N := by
  constructor
  · intro hall
    obtain ⟨t⟩ := ‹Nonempty Tid›
    obtain ⟨s, os, hrun, hmany⟩ := run_exceeds t N
    have hfew := mt (hall _ s os hrun) (Nat.not_le.mpr hmany)
    rw [begun_calls] at hfew
    omega
  · intro hK as s os hrun hbegun
    obtain ⟨-, ⟨waiting, -, hlines⟩, hbound⟩ := run_emitted hrun
    rcases hK with hK | hK
    · exact hbound (Nat.lt_of_le_of_lt hbegun hK)
    · omega

theorem lines_le_million : (∀ as s os, (machine Unit 3).run State.init as = some (s, os) →
    begun as ≤ 1000000 → os.length ≤ 3) ↔ 1000000 < UInt32.size ∨ 1000000 ≤ 3 :=
  lines_le_iff 3 1000000

/-- Three lines are asked for, and a fourth is logged. -/
theorem fourth_line : ∃ as s os, (machine Unit 3).run State.init as = some (s, os) ∧
    begun as = UInt32.size ∧ 3 < os.length := by
  obtain ⟨s, os, hrun, hmany⟩ := run_exceeds () 3
  exact ⟨_, s, os, hrun, begun_calls () _, hmany⟩

end CppUtil.Logger.FirstN

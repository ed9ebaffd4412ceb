import CppUtil.Logger.EveryN

/-!
# `LOG_*_EVERY(N)` in one thread

`Counted` says where the counter and the lines are after any number of
executions and in the middle of one. Every access keeps it, so the execution
after `k` others logs exactly if `N` divides `k` (`logs_every_nth`); the counter
is back at one before it could wrap around.
-/

namespace CppUtil.Logger.EveryN

open Lib

-- ---------------------------------------------------------------------------
-- Counting
-- ---------------------------------------------------------------------------

def Act.begins : Act → Nat
  | .call => 1
  | .next => 0

def begun {Tid : Type} (as : List (Tid × Act)) : Nat := as.countP fun x => x.2 = .call

def lines (os : List (Unit × Event)) : Nat := os.countP fun x => x.2 = .logged

theorem begun_append : begun (as ++ bs) = begun as + begun bs := List.countP_append ..

theorem begun_concat : begun (as ++ [(t, act)]) = begun as + act.begins := by
  cases act <;> simp [begun, Act.begins]

theorem lines_append : lines (os ++ os') = lines os + lines os' := List.countP_append ..

theorem lines_map {es : List Event} {t : Unit} :
    lines (es.map fun e => (t, e)) = es.countP (· = .logged) := by
  simp [lines, List.countP_map, Function.comp_def]

/-- The counter after a number of executions. -/
def cntAfter (N : Nat) : Nat → Nat
  | 0 => 0
  | k + 1 => k % N + 1

def linesAfter (N : Nat) : Nat → Nat
  | 0 => 0
  | k + 1 => linesAfter N k + if k % N = 0 then 1 else 0

theorem cntAfter_le (hN : 0 < N) : cntAfter N k ≤ N := by
  cases k with
  | zero => exact Nat.zero_le N
  | succ k => exact Nat.mod_lt k hN

theorem cntAfter_succ (hN : 0 < N) : cntAfter N (k + 1) =
    if cntAfter N k + 1 > N then cntAfter N k + 1 - N else cntAfter N k + 1 := by
  cases k with
  | zero =>
    rw [if_neg (show ¬cntAfter N 0 + 1 > N from Nat.not_lt.mpr hN)]
    simp [cntAfter]
  | succ k =>
    have hlt : k % N < N := Nat.mod_lt k hN
    have hnext : cntAfter N (k + 1 + 1) = (k % N + 1) % N + 1 := by
      rw [cntAfter, Nat.mod_add_mod]
    rw [hnext]
    by_cases hlast : k % N + 1 = N
    · have hgt : cntAfter N (k + 1) + 1 > N := by
        rw [cntAfter, hlast]
        exact Nat.lt_succ_self N
      rw [if_pos hgt, cntAfter, hlast, Nat.mod_self, Nat.add_sub_cancel_left]
    · have hlt' : k % N + 1 < N := Nat.lt_of_le_of_ne hlt hlast
      have hle : ¬ cntAfter N (k + 1) + 1 > N := Nat.not_lt.mpr hlt'
      rw [if_neg hle, cntAfter, Nat.mod_eq_of_lt hlt']

-- ---------------------------------------------------------------------------
-- One execution
-- ---------------------------------------------------------------------------

/-- Of `k` executions the last is at `fr`, and there have been `n` lines. -/
def Counted (N cnt : UInt32) (k n : Nat) : Frame → Prop
  | .outside => cnt.toNat = cntAfter N.toNat k ∧ n = linesAfter N.toNat k
  | .comparing => ∃ j, k = j + 1 ∧ cnt.toNat = cntAfter N.toNat j + 1 ∧ n = linesAfter N.toNat j
  | .subtracting =>
    ∃ j, k = j + 1 ∧ N < cnt ∧ cnt.toNat = cntAfter N.toNat j + 1 ∧ n = linesAfter N.toNat j
  | .testing => ∃ j, k = j + 1 ∧ cnt.toNat = cntAfter N.toNat k ∧ n = linesAfter N.toNat j

variable {N : UInt32}

theorem Counted.increment (hN : 0 < N.toNat) (hmax : N ≤ 0xfffffffe)
    (h : Counted N cnt k n .outside) : Counted N (cnt + 1) (k + 1) n .comparing := by
  obtain ⟨hcnt, hn⟩ := h
  have hle := @cntAfter_le N.toNat k hN
  have hroom := UInt32.le_iff_toNat_le.mp hmax
  refine ⟨k, rfl, ?_, hn⟩
  rw [UInt32.toNat_add]
  simp only [UInt32.reduceToNat] at hroom ⊢
  omega

theorem Counted.fits (hN : 0 < N.toNat) (h : Counted N cnt k n .comparing) (hle : cnt ≤ N) :
    Counted N cnt k n .testing := by
  obtain ⟨j, rfl, hcnt, hn⟩ := h
  have hle := UInt32.le_iff_toNat_le.mp hle
  refine ⟨j, rfl, ?_, hn⟩
  rw [cntAfter_succ hN, if_neg (by omega), hcnt]

theorem Counted.subtract (hN : 0 < N.toNat) (h : Counted N cnt k n .subtracting) :
    Counted N (cnt - N) k n .testing := by
  obtain ⟨j, rfl, hgt, hcnt, hn⟩ := h
  have hlt := UInt32.lt_iff_toNat_lt.mp hgt
  refine ⟨j, rfl, ?_, hn⟩
  rw [UInt32.toNat_sub_of_le _ _ (UInt32.le_of_lt hgt), cntAfter_succ hN, if_pos (by omega), hcnt]

/-- The counter is at one after the executions that should log. -/
theorem Counted.test (h : Counted N cnt k n .testing) :
    Counted N cnt k (n + if cnt = 1 then 1 else 0) .outside := by
  obtain ⟨j, rfl, hcnt, rfl⟩ := h
  have hone : cnt = 1 ↔ j % N.toNat = 0 := by
    rw [← UInt32.toNat_inj, hcnt]
    simp [cntAfter]
  refine ⟨hcnt, ?_⟩
  simp only [linesAfter, hone]

theorem Counted.step (hN : 0 < N.toNat) (hmax : N ≤ 0xfffffffe) (h : Counted N cnt k n fr)
    (hstep : step N cnt fr act = some (cnt', fr', es)) :
    Counted N cnt' (k + act.begins) (n + es.countP (· = .logged)) fr' := by
  cases step_moves hstep with
  | increment => exact h.increment hN hmax
  | exceeds hgt =>
    obtain ⟨j, rfl, hcnt, hn⟩ := h
    exact ⟨j, rfl, hgt, hcnt, hn⟩
  | fits hle => exact h.fits hN hle
  | subtract => exact h.subtract hN
  | logs hone => simpa [hone, Act.begins] using h.test
  | skips hne => simpa [hne, Act.begins] using h.test

theorem init_counted : Counted N 0 0 0 .outside := ⟨rfl, rfl⟩

theorem run_counted (hN : 0 < N.toNat) (hmax : N ≤ 0xfffffffe)
    (h : (machine Unit N).run State.init as = some (s, os)) :
    Counted N s.shared (begun as) (lines os) (s.threads ()) := by
  refine @Machine.run_keeps _ _ _ (machine Unit N) [] [] _ _ _ _ (fun _ _ => True)
    (fun as os s => Counted N s.shared (begun as) (lines os) (s.threads ())) ?_ init_counted
    .trivial h
  rintro as os s ⟨t, act⟩ o s' hi - hs
  obtain ⟨cnt, fr, es, hstep, rfl, rfl⟩ := Machine.interleave_step_iff.mp hs
  have hnext := hi.step hN hmax hstep
  simpa only [begun_concat, lines_append, lines_map, Function.update_self] using hnext

-- ---------------------------------------------------------------------------
-- The k-th execution
-- ---------------------------------------------------------------------------

structure Execution (N : UInt32) (k : Nat) (s : State Unit) (os : List (Unit × Event))
    (s' : State Unit) : Prop where
  reached : ∃ as os₀, (machine Unit N).run State.init as = some (s, os₀) ∧ begun as + 1 = k
  starts : s.threads () = .outside
  runs : ∃ as, (machine Unit N).run s as = some (s', os) ∧ begun as = 1
  ends : s'.threads () = .outside

theorem run_execution (h : s.threads () = .outside) :
    ∃ as s' os, (machine Unit N).run s as = some (s', os) ∧ begun as = 1 ∧
      s'.threads () = .outside := by
  have hsolo : ∃ as r o, (Machine.solo (fun (_ : Unit) cnt fr => step N cnt fr) ()).run
      (s.shared, s.threads ()) as = some ((r, .outside), o) ∧
      begun (as.map fun act => ((), act)) = 1 := by
    -- Whether there is a subtraction to make.
    by_cases hgt : s.shared + 1 > N
    · refine ⟨[.call, .next, .next, .next], s.shared + 1 - N, ?_⟩
      simp [Machine.run, Machine.solo, step, begun, h, hgt]
    · refine ⟨[.call, .next, .next], s.shared + 1, ?_⟩
      simp [Machine.run, Machine.solo, step, begun, h, hgt]
  obtain ⟨as, r, o, hrun, hone⟩ := hsolo
  exact ⟨_, _, _, Machine.run_of_solo hrun, hone, rfl⟩

theorem run_executions (N : UInt32) (k : Nat) :
    ∃ as s os, (machine Unit N).run State.init as = some (s, os) ∧ begun as = k ∧
      s.threads () = .outside := by
  induction k with
  | zero => exact ⟨[], _, _, rfl, rfl, rfl⟩
  | succ k ih =>
    obtain ⟨as, s, os, hrun, rfl, hout⟩ := ih
    obtain ⟨bs, s', os', hrun', hone, hout'⟩ := run_execution hout
    refine ⟨as ++ bs, s', os ++ os', ?_, ?_, hout'⟩
    · exact Machine.run_append_iff.mpr ⟨_, _, _, hrun, hrun', rfl⟩
    · rw [begun_append, hone]

theorem Execution.exists (N : UInt32) (hk : 1 ≤ k) : ∃ s os s', Execution N k s os s' := by
  obtain ⟨as, s, os, hrun, hbegun, hout⟩ := run_executions N (k - 1)
  obtain ⟨bs, s', os', hrun', hone, hout'⟩ := run_execution hout
  exact ⟨s, os', s', ⟨as, os, hrun, by omega⟩, hout, ⟨bs, hrun', hone⟩, hout'⟩

/-- The executions that log are the first and every `N`-th after it, and between
executions the counter is at most `N`. -/
theorem logs_every_nth (hN : 1 ≤ N) (hmax : N ≤ 0xfffffffe) (hk : 1 ≤ k) :
    (∃ s os s', Execution N k s os s') ∧
    ∀ s os s', Execution N k s os s' → s.shared ≤ N ∧ s'.shared ≤ N ∧
      lines os = if (k - 1) % N.toNat = 0 then 1 else 0 := by
  refine ⟨Execution.exists N hk, ?_⟩
  rintro s os s' ⟨⟨as, os₀, hrun, rfl⟩, hstarts, ⟨bs, hrun', hone⟩, hends⟩
  have hpos : 0 < N.toNat := UInt32.le_iff_toNat_le.mp hN
  have hbefore := run_counted hpos hmax hrun
  have hafter := run_counted hpos hmax (Machine.run_append_iff.mpr ⟨_, _, _, hrun, hrun', rfl⟩)
  rw [hstarts] at hbefore
  rw [hends, begun_append, hone] at hafter
  obtain ⟨hcnt, hlines⟩ := hbefore
  obtain ⟨hcnt', hlines'⟩ := hafter
  refine ⟨?_, ?_, ?_⟩
  · exact UInt32.le_iff_toNat_le.mpr (hcnt ▸ cntAfter_le hpos)
  · exact UInt32.le_iff_toNat_le.mpr (hcnt' ▸ cntAfter_le hpos)
  · rw [lines_append, hlines, linesAfter] at hlines'
    exact Nat.add_left_cancel hlines'

theorem logs_every_third : ∃ s os s', Execution 3 4 s os s' ∧ lines os = 1 := by
  obtain ⟨⟨s, os, s', hex⟩, hall⟩ := @logs_every_nth 3 4 (by decide) (by decide) (by decide)
  exact ⟨s, os, s', hex, (hall s os s' hex).2.2⟩

end CppUtil.Logger.EveryN

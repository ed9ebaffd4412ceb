import CppUtil.RcuPtr.RcuPtrRuns
import CppUtil.Lib.Progress

/-!
# How often an `Update` starts again

`Update` is optimistic: its function works on a copy, and the copy is thrown
away if the pointer is not the one it was made from any more. `updates_retried_le`:
a thread is refused at most once for each `Store` or `Update` that another
thread has completed. So as long as threads retry, calls complete.
-/

namespace CppUtil.RcuPtr

open Lang Lib

attribute [local instance] neZero_two

variable {Tid T : Type}

/-- The pointer an `Update` in progress has copied, or is about to copy, from. -/
def Thread.expects (th : Thread T) : Option (SharedPtr Addr) :=
  match th.frame with
  | .copying _ spCopy | .applying _ spCopy _ | .exchanging _ spCopy _ => some spCopy
  | .idle | .called _ | .fault => none

def Thread.refused (sh : Shared T) (th : Thread T) : Act T → Bool
  | .next _ =>
    match th.frame with
    | .exchanging _ spCopy _ => sh.sp_ ≠ spCopy
    | _ => false
  | _ => false

def Event.publishes : Event T → Bool
  | .stored _ _ | .updated _ => true
  | .loaded _ _ => false

theorem Thread.refused_of_frame (sh : Shared T) {th : Thread T}
    (h : ∀ func c d, th.frame ≠ .exchanging func c d) (act : Act T) : th.refused sh act = false := by
  cases act with
  | next =>
    unfold Thread.refused
    cases hfr : th.frame with
    | exchanging func c d => exact absurd hfr (h func c d)
    | _ => rfl
  | _ => rfl

theorem Thread.quiet_frame {sh sh' : Shared T} {th th' : Thread T} (hsp : sh'.sp_ = sh.sp_)
    (hfr : ∀ func c d, th.frame ≠ .exchanging func c d)
    (hth : th'.expects = th.expects ∨ th'.expects = none ∨ th'.expects = some sh.sp_) :
    sh'.sp_ = sh.sp_ ∧ (th.refused sh act).toNat + stale Shared.sp_ Thread.expects sh' th' ≤
      stale Shared.sp_ Thread.expects sh th := by
  refine ⟨hsp, ?_⟩
  rw [Thread.refused_of_frame sh hfr, stale_congr hsp]
  rcases hth with hth | hth | hth <;> simp [stale, hth]

theorem Thread.quiet_refuse {sh : Shared T} {th : Thread T} (hfr : th.frame = .exchanging func c d)
    (hne : sh.sp_ ≠ c) :
    (th.refused sh (.next fresh)).toNat +
        stale Shared.sp_ Thread.expects (sh.refuse c d) { th with frame := .copying func sh.sp_ } ≤
      stale Shared.sp_ Thread.expects sh th := by
  simp [Thread.refused, stale, Thread.expects, Shared.refuse, hfr, hne]

theorem Thread.quiet_next {sh sh' : Shared T} {th th' : Thread T}
    (hs : th.next sh fresh = some (sh', th', o)) (ho : ∀ e ∈ o, e.publishes = false) :
    sh'.sp_ = sh.sp_ ∧ (th.refused sh (.next fresh)).toNat +
        stale Shared.sp_ Thread.expects sh' th' ≤ stale Shared.sp_ Thread.expects sh th := by
  unfold Thread.next at hs
  cases hfr : th.frame with
  | idle | fault =>
    rw [hfr] at hs
    cases hs
  | called c =>
    have hnot : ∀ func c d, th.frame ≠ .exchanging func c d := by simp [hfr]
    cases c with
    | load =>
      rw [hfr] at hs
      cases hs
      exact Thread.quiet_frame rfl hnot (.inr (.inl rfl))
    | store r =>
      rw [hfr] at hs
      cases hs
      exact absurd (ho _ List.mem_cons_self) (by simp [Event.publishes])
    | update func =>
      rw [hfr] at hs
      cases hs
      exact Thread.quiet_frame rfl hnot (.inr (.inr rfl))
  | copying func c =>
    have hnot : ∀ func c d, th.frame ≠ .exchanging func c d := by simp [hfr]
    rw [hfr] at hs
    dsimp only [Thread.copy] at hs
    split at hs
    · cases hs
      exact Thread.quiet_frame rfl hnot (.inl (by simp [Thread.expects, hfr]))
    · split at hs
      · cases hs
        exact Thread.quiet_frame rfl hnot (.inr (.inl rfl))
      · simp only [Option.ite_none_right_eq_some] at hs
        obtain ⟨-, ⟨⟩⟩ := hs
        exact Thread.quiet_frame rfl hnot (.inl (by simp [Thread.expects, hfr]))
  | applying func c d =>
    have hnot : ∀ func c d, th.frame ≠ .exchanging func c d := by simp [hfr]
    cases d with
    | none =>
      rw [hfr] at hs
      cases hs
      exact Thread.quiet_frame rfl hnot (.inr (.inl rfl))
    | some d =>
      rw [hfr] at hs
      cases hs
      exact Thread.quiet_frame rfl hnot (.inl (by simp [Thread.expects, hfr]))
  | exchanging func c d =>
    rw [hfr] at hs
    dsimp only at hs
    split at hs
    · cases hs
      exact absurd (ho _ List.mem_cons_self) (by simp [Event.publishes])
    · rename_i hne
      cases hs
      exact ⟨rfl, Thread.quiet_refuse hfr hne⟩

theorem Thread.loud_next {sh sh' : Shared T} {th th' : Thread T}
    (hs : th.next sh fresh = some (sh', th', o)) (ho : ∃ e ∈ o, e.publishes = true) :
    th.refused sh (.next fresh) = false ∧ th'.expects = none := by
  obtain ⟨e, he, hp⟩ := ho
  unfold Thread.next at hs
  cases hfr : th.frame with
  | idle | fault =>
    rw [hfr] at hs
    cases hs
  | called c =>
    cases c with
    | load =>
      rw [hfr] at hs
      cases hs
      cases List.mem_singleton.mp he
      cases hp
    | store r =>
      rw [hfr] at hs
      cases hs
      exact ⟨by simp [Thread.refused, hfr], rfl⟩
    | update func =>
      rw [hfr] at hs
      cases hs
      cases he
  | copying func c =>
    rw [hfr] at hs
    dsimp only [Thread.copy] at hs
    split at hs
    · cases hs
      cases he
    · split at hs
      · cases hs
        cases he
      · simp only [Option.ite_none_right_eq_some] at hs
        obtain ⟨-, ⟨⟩⟩ := hs
        cases he
  | applying func c d =>
    cases d <;> rw [hfr] at hs <;> cases hs <;> cases he
  | exchanging func c d =>
    rw [hfr] at hs
    dsimp only at hs
    split at hs
    · rename_i heq
      cases hs
      exact ⟨by simp [Thread.refused, hfr, heq], rfl⟩
    · cases hs
      cases he

theorem Thread.silent_step {sh sh' : Shared T} {th th' : Thread T} (hact : ∀ fresh, act ≠ .next fresh)
    (hs : th.step sh act = some (sh', th', o)) :
    o = [] ∧ sh'.sp_ = sh.sp_ ∧ th.frame = .idle ∧ th'.expects = none := by
  unfold Thread.step at hs
  cases act with
  | next fresh => exact absurd rfl (hact fresh)
  | call | make | drop =>
    simp only [Option.ite_none_right_eq_some] at hs
    obtain ⟨⟨hidle, -⟩, ⟨⟩⟩ := hs
    have hidle := Frame.isIdle_iff.mp hidle
    exact ⟨rfl, rfl, hidle, by simp [Thread.expects, hidle]⟩

theorem optimistic : Optimistic (fun (_ : Tid) (sh : Shared T) th => th.step sh) Shared.sp_
    Thread.expects Thread.refused Event.publishes where
  quiet _ sh th act sh' th' o hs ho := by
    by_cases hact : ∃ fresh, act = .next fresh
    · obtain ⟨fresh, rfl⟩ := hact
      exact Thread.quiet_next hs ho
    · obtain ⟨-, hsp, hidle, hth⟩ := Thread.silent_step (not_exists.mp hact) hs
      exact Thread.quiet_frame hsp (by simp [hidle]) (.inr (.inl hth))
  loud _ sh th act sh' th' o hs ho := by
    by_cases hact : ∃ fresh, act = .next fresh
    · obtain ⟨fresh, rfl⟩ := hact
      exact Thread.loud_next hs ho
    · obtain ⟨rfl, -⟩ := Thread.silent_step (not_exists.mp hact) hs
      simp at ho

-- ---------------------------------------------------------------------------
-- Every interleaving
-- ---------------------------------------------------------------------------

variable [DecidableEq Tid] {s : State Tid T}

def retries (s : State Tid T) (t : Tid) (as : List (Tid × Act T)) : List (Act T) :=
  (machine Tid T).observed (refusals Thread.refused t) s as

def completed (t : Tid) (os : List (Tid × Event T)) : Nat := publications Event.publishes t os

/-- A thread is refused at most once for each `Store` or `Update` another thread
has completed. -/
theorem updates_retried_le (t₀ : Tid) (a₀ : Addr) (v₀ : T) (as : List (Tid × Act T))
    (hrun : (machine Tid T).run (State.init t₀ a₀ v₀) as = some (s, os)) (t : Tid) :
    (retries (State.init t₀ a₀ v₀) t as).length ≤ completed t os := by
  have hle := optimistic.run_refused_le t hrun
  have hfresh : stale Shared.sp_ Thread.expects (State.init t₀ a₀ v₀).shared
      ((State.init t₀ a₀ v₀).threads t) = 0 := rfl
  rwa [hfresh, Nat.zero_add] at hle

def overtaken : List (Fin 2 × Act Nat) :=
  [(1, .call (.update (· + 1))), (1, .next 1), (1, .next 1), (1, .next 1),
   (0, .call (.update (2 * ·))), (0, .next 2), (0, .next 2), (0, .next 2), (0, .next 2),
   (1, .next 3), (1, .next 3), (1, .next 3), (1, .next 3)]

theorem updates_retried_le_overtaken :
    ∃ s os, (machine (Fin 2) Nat).run (State.init 0 0 5) overtaken = some (s, os) ∧
      s.shared.published = some 11 ∧ (retries (State.init 0 0 5) 1 overtaken).length = 1 ∧
      1 ≤ completed 1 os := by
  have h : ((machine (Fin 2) Nat).run (State.init 0 0 5) overtaken).map
      (fun r => r.1.shared.published) = some (some 11) := by decide
  have hone : (retries (State.init 0 0 5) 1 overtaken).length = 1 := by decide
  obtain ⟨⟨s, os⟩, hrun, hs⟩ := Option.map_eq_some_iff.mp h
  exact ⟨s, os, hrun, hs, hone, hone.ge.trans (updates_retried_le 0 0 5 _ hrun 1)⟩

end CppUtil.RcuPtr

import CppUtil.Lockfree.LockFreeStackRuns
import CppUtil.Lib.Progress

/-!
# How often `Push` and `Pop` start again

`exchanges_refused_le`: apart from the failures that a weak compare-exchange has for
no reason, an exchange of a thread fails at most once for each `Push` and each
non-empty `Pop` that another thread has completed. This does not depend on
which nodes are pushed again.
-/

namespace CppUtil.Lockfree

open Lib

attribute [local instance] neZero_two

variable {Tid Node : Type} [DecidableEq Node]

def Thread.expects (th : Thread Node) : Option (Option Node) :=
  match th.frame with
  | .linking _ h | .pushExchange _ h => some h
  | .reading a | .popExchange a _ => some (some a)
  | .idle | .pushing _ | .popping => none

/-- An exchange that does not find the head it expects. -/
def Thread.refused (sh : Shared Node) (th : Thread Node) : Act Node → Bool
  | .next =>
    match th.frame with
    | .pushExchange _ h => sh.head_ ≠ h
    | .popExchange a _ => sh.head_ ≠ some a
    | _ => false
  | _ => false

/-- An empty `Pop` leaves the stack alone. -/
def Event.publishes : Event Node → Bool
  | .pushed _ | .popped (some _) => true
  | .popped none => false

theorem Thread.quiet_next {sh sh' : Shared Node} {th th' : Thread Node}
    (hs : th.next sh = some (sh', th', o)) (ho : ∀ e ∈ o, e.publishes = false) :
    sh'.head_ = sh.head_ ∧ (th.refused sh .next).toNat +
        stale Shared.head_ Thread.expects sh' th' ≤ stale Shared.head_ Thread.expects sh th := by
  unfold Thread.next at hs
  cases hfr : th.frame with
  | idle =>
    rw [hfr] at hs
    cases hs
  | pushing | linking | reading =>
    rw [hfr] at hs
    cases hs
    simp [Thread.refused, stale, Thread.expects, hfr]
  | popping =>
    rw [hfr] at hs
    dsimp only at hs
    split at hs <;> cases hs <;> simp_all [Thread.refused, stale, Thread.expects]
  | pushExchange n h =>
    rw [hfr] at hs
    dsimp only at hs
    split at hs
    · cases hs
      exact absurd (ho _ List.mem_cons_self) (by simp [Event.publishes])
    · rename_i hne
      cases hs
      simp [Thread.refused, stale, Thread.expects, hfr, hne]
  | popExchange a n =>
    rw [hfr] at hs
    dsimp only at hs
    split at hs
    · cases hs
      exact absurd (ho _ List.mem_cons_self) (by simp [Event.publishes])
    · rename_i hne
      cases hs
      simp [Thread.refused, stale, Thread.expects, hfr, hne]

theorem Thread.loud_next {sh sh' : Shared Node} {th th' : Thread Node}
    (hs : th.next sh = some (sh', th', o)) (ho : ∃ e ∈ o, e.publishes = true) :
    th.refused sh .next = false ∧ th'.expects = none := by
  obtain ⟨e, he, hp⟩ := ho
  unfold Thread.next at hs
  cases hfr : th.frame with
  | idle =>
    rw [hfr] at hs
    cases hs
  | pushing | linking | reading =>
    rw [hfr] at hs
    cases hs
    cases he
  | popping =>
    rw [hfr] at hs
    dsimp only at hs
    split at hs <;> cases hs
    · cases List.mem_singleton.mp he
      cases hp
    · cases he
  | pushExchange | popExchange =>
    rw [hfr] at hs
    dsimp only at hs
    split at hs
    · rename_i heq
      cases hs
      exact ⟨by simp [Thread.refused, hfr, heq], rfl⟩
    · cases hs
      cases he

theorem Thread.silent_step {sh sh' : Shared Node} {th th' : Thread Node} (hact : act ≠ .next)
    (hs : th.step sh act = some (sh', th', o)) :
    o = [] ∧ sh'.head_ = sh.head_ ∧ th.refused sh act = false ∧ th'.expects = none := by
  unfold Thread.step at hs
  cases act with
  | next => exact absurd rfl hact
  | push n =>
    cases hfr : th.frame <;> rw [hfr] at hs
    case idle =>
      simp only [Option.ite_none_right_eq_some] at hs
      obtain ⟨-, ⟨⟩⟩ := hs
      exact ⟨rfl, rfl, rfl, rfl⟩
    all_goals cases hs
  | pop | spurious =>
    cases hfr : th.frame <;> rw [hfr] at hs <;> cases hs
    all_goals exact ⟨rfl, rfl, rfl, rfl⟩

theorem optimistic : Optimistic (fun (_ : Tid) (sh : Shared Node) th => th.step sh) Shared.head_
    Thread.expects Thread.refused Event.publishes where
  quiet _ sh th act sh' th' o hs ho := by
    by_cases hact : act = .next
    · subst hact
      exact Thread.quiet_next hs ho
    · obtain ⟨-, hhead, hrefused, hth⟩ := Thread.silent_step hact hs
      exact ⟨hhead, by simp [hrefused, stale, hth]⟩
  loud _ sh th act sh' th' o hs ho := by
    by_cases hact : act = .next
    · subst hact
      exact Thread.loud_next hs ho
    · obtain ⟨rfl, -⟩ := Thread.silent_step hact hs
      simp at ho

-- ---------------------------------------------------------------------------
-- Every interleaving
-- ---------------------------------------------------------------------------

variable [DecidableEq Tid] {s : State Tid Node}

def retries (s : State Tid Node) (t : Tid) (as : List (Tid × Act Node)) : List (Act Node) :=
  (machine Tid Node).observed (refusals Thread.refused t) s as

def completed (t : Tid) (os : List (Tid × Event Node)) : Nat := publications Event.publishes t os

theorem exchanges_refused_le (next : Node → Option Node) (owned : Tid → List Node)
    (as : List (Tid × Act Node))
    (hrun : (machine Tid Node).run (State.init next owned) as = some (s, os)) (t : Tid) :
    (retries (State.init next owned) t as).length ≤ completed t os := by
  have hle := optimistic.run_refused_le t hrun
  have hfresh : stale Shared.head_ Thread.expects (State.init next owned).shared
      ((State.init next owned).threads t) = 0 := rfl
  rwa [hfresh, Nat.zero_add] at hle

theorem exchanges_refused_le_staleNext :
    ∃ s os, (machine (Fin 2) (Fin 2)).run (State.init (fun _ => none) twoNodes)
        (push 0 0 ++ [(1, .pop), (1, .next), (1, .next)] ++ pop 0 ++ [(1, .next)]) = some (s, os) ∧
      (retries (State.init (fun _ => none) twoNodes) 1
        (push 0 0 ++ [(1, .pop), (1, .next), (1, .next)] ++ pop 0 ++ [(1, .next)])).length = 1 ∧
      1 ≤ completed 1 os := by
  have h : ((machine (Fin 2) (Fin 2)).run (State.init (fun _ => none) twoNodes)
      (push 0 0 ++ [(1, .pop), (1, .next), (1, .next)] ++ pop 0 ++ [(1, .next)])).isSome := by decide
  have hone : (retries (State.init (fun _ => none) twoNodes) 1
      (push 0 0 ++ [(1, .pop), (1, .next), (1, .next)] ++ pop 0 ++ [(1, .next)])).length = 1 := by
    decide
  obtain ⟨⟨s, os⟩, hrun⟩ := Option.isSome_iff_exists.mp h
  exact ⟨s, os, hrun, hone, hone.ge.trans (exchanges_refused_le _ _ _ hrun 1)⟩

end CppUtil.Lockfree

import CppUtil.RcuPtr.RcuPtrRuns

/-!
# When the versions of an `rcu_ptr` are freed

Every `Update` makes a version of its own, and nobody frees one by hand.
`version_alive_iff`: in every interleaving an object is there exactly as long
as the `rcu_ptr` or a thread refers to it, and its use count is the number of
these references.
-/

namespace CppUtil.RcuPtr

open Lang Lib

attribute [local instance] neZero_two

variable {Tid T : Type} [DecidableEq Tid] [Fintype Tid] {s : State Tid T}

def State.owning (s : State Tid T) (a : Addr) : Nat := total (fun th => th.owns a) s.threads

theorem State.uses_eq_owning (t : Tid) (a : Addr) :
    (s.threads t).uses s.shared (s.rest t) a = refs s.shared.sp_ a + s.owning a := by
  rw [Thread.uses, State.owning, total_eq _ _ t, Nat.add_assoc]
  rfl

omit [DecidableEq Tid] in
theorem State.owning_pos_iff : 0 < s.owning a ↔ ∃ t, 0 < (s.threads t).owns a := by
  rw [Nat.pos_iff_ne_zero, State.owning, total, ne_eq, Finset.sum_eq_zero_iff]
  simp [Nat.pos_iff_ne_zero]

/-- In every run of threads that store no null pointer: an object is alive
exactly when it is published or a thread has a reference to it, so a version is
freed with the last reader and none is left behind; and the use count is exact. -/
theorem version_alive_iff (t₀ : Tid) (a₀ : Addr) (v₀ : T) (as : List (Tid × Act T))
    (hnull : ∀ x ∈ as, x.2.NonNull)
    (hrun : (machine Tid T).run (State.init t₀ a₀ v₀) as = some (s, os)) :
    (∀ a, (s.shared.heap.value a).isSome ↔
      s.shared.sp_ = some a ∨ ∃ t, 0 < (s.threads t).owns a) ∧
    ∀ a, s.shared.heap.useCount a = refs s.shared.sp_ a + s.owning a := by
  have hok : s.Ok := Machine.run_invariant (fun _ x => x.2.NonNull) State.Ok
    (fun _ _ _ _ hi hx hs => hi.step hx hs) (State.init_ok t₀ a₀ v₀) (.of_forall hnull) hrun
  refine ⟨fun a => ?_, fun a => ?_⟩
  · rw [(hok t₀).counts.alive, State.uses_eq_owning, Nat.add_pos_iff_pos_or_pos, refs_pos_iff,
      State.owning_pos_iff]
  · rw [(hok t₀).counts.useCount, State.uses_eq_owning]

theorem version_alive_iff_dropped :
    ∃ s os, (machine (Fin 2) Nat).run (State.init 0 0 5)
        [(1, .call .load), (1, .next 9), (0, .call (.update (· + 1))), (0, .next 9), (0, .next 2),
         (0, .next 9), (0, .next 9), (1, .drop 0), (0, .drop 0)] = some (s, os) ∧
      s.shared.sp_ = some 2 ∧ (s.shared.heap.value 2).isSome ∧
      ¬ (s.shared.sp_ = some 0 ∨ ∃ t, 0 < (s.threads t).owns 0) := by
  have h : ((machine (Fin 2) Nat).run (State.init 0 0 5)
      [(1, .call .load), (1, .next 9), (0, .call (.update (· + 1))), (0, .next 9), (0, .next 2),
       (0, .next 9), (0, .next 9), (1, .drop 0), (0, .drop 0)]).map
      (fun r => (r.1.shared.sp_, r.1.shared.heap.value 0)) = some (some 2, none) := by decide
  obtain ⟨⟨s, os⟩, hrun, hs⟩ := Option.map_eq_some_iff.mp h
  simp only [Prod.mk.injEq] at hs
  obtain ⟨halive, -⟩ :=
    version_alive_iff 0 0 5 _ (by simp [Act.NonNull, Call.NonNull]) hrun
  refine ⟨s, os, hrun, hs.1, (halive 2).mpr (.inl hs.1), fun href => ?_⟩
  simpa [hs.2] using (halive 0).mpr href

end CppUtil.RcuPtr

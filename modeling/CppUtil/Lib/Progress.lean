import CppUtil.Lib.Machine

/-!
# Runs that come to an end, and what runs cost

A rank that every step lowers bounds the length of runs. For operations that
may be refused and tried again the bound is an account: a step may spend what
earlier steps have earned, and the potential of a state is what is left.

An optimistic operation works on the value it saw, and its exchange is refused
if the value is another one by then. `run_refused_le`: a thread is refused at
most once for each time that another thread has published a value.
-/

namespace CppUtil.Lib

namespace Machine

variable {State Act Out : Type*} {M : Machine State Act Out}

theorem run_length_le (G : State → Act → Prop) (Inv : State → Prop) (rank : State → Nat)
    (keeps : ∀ s a o s', Inv s → G s a → M.step s a = some (s', o) → Inv s')
    (lowers : ∀ s a o s', Inv s → G s a → M.step s a = some (s', o) → rank s' < rank s)
    (h₀ : Inv s) (hG : M.Meets G s as) (h : M.run s as = some (s', os)) :
    as.length + rank s' ≤ rank s := by
  induction as generalizing s os with
  | nil =>
    cases h
    simp
  | cons a as ih =>
    obtain ⟨s₁, o₁, o₂, h₁, h₂, -⟩ := run_cons_iff.mp h
    have hlow := lowers s a o₁ s₁ h₀ hG.1 h₁
    have hrest := ih (keeps s a o₁ s₁ h₀ hG.1 h₁) (hG.2 _ _ h₁) h₂
    rw [List.length_cons]
    omega

/-- What the steps of a run spend is covered by what their outputs earn and by
the potential of the state the run starts from. -/
theorem run_spends_le {β : Type*} (spends : State → Act → List β) (earned : List Out → Nat)
    (hadd : ∀ os os', earned (os ++ os') = earned os + earned os') (potential : State → Nat)
    (covered : ∀ s a o s', M.step s a = some (s', o) →
      (spends s a).length + potential s' ≤ potential s + earned o)
    (h : M.run s as = some (s', os)) :
    (M.observed spends s as).length + potential s' ≤ potential s + earned os := by
  induction as generalizing s os with
  | nil =>
    cases h
    simp [observed]
  | cons a as ih =>
    obtain ⟨s₁, o₁, o₂, h₁, h₂, rfl⟩ := run_cons_iff.mp h
    have hstep := covered s a o₁ s₁ h₁
    have hrest := ih h₂
    simp only [observed, h₁, Option.map_some, Option.getD_some, List.length_append, hadd]
    omega

end Machine

-- ---------------------------------------------------------------------------
-- Optimistic operations
-- ---------------------------------------------------------------------------

section Optimistic

variable {Tid Shared Local Act Out V : Type*} [DecidableEq V]

def stale (current : Shared → V) (expects : Local → Option V) (sh : Shared) (th : Local) : Nat :=
  match expects th with
  | none => 0
  | some v => if current sh = v then 0 else 1

/-- How threads that go by the value they saw take their steps. -/
structure Optimistic (step : Tid → Shared → Local → Act → Option (Shared × Local × List Out))
    (current : Shared → V) (expects : Local → Option V) (refused : Shared → Local → Act → Bool)
    (publishes : Out → Bool) : Prop where
  /-- A step that publishes nothing leaves the value alone, and a thread that is
  refused gives up the value that was out of date. -/
  quiet : ∀ t sh th act sh' th' o, step t sh th act = some (sh', th', o) →
    (∀ e ∈ o, publishes e = false) → current sh' = current sh ∧
      (refused sh th act).toNat + stale current expects sh' th' ≤ stale current expects sh th
  /-- A thread publishes at the end of its operation. -/
  loud : ∀ t sh th act sh' th' o, step t sh th act = some (sh', th', o) →
    (∃ e ∈ o, publishes e = true) → refused sh th act = false ∧ expects th' = none

variable [DecidableEq Tid]
  {step : Tid → Shared → Local → Act → Option (Shared × Local × List Out)}
  {current : Shared → V} {expects : Local → Option V} {refused : Shared → Local → Act → Bool}
  {publishes : Out → Bool} {s s' : Config Tid Shared Local}

/-- The steps of `t` in which it is refused. -/
def refusals (refused : Shared → Local → Act → Bool) (t : Tid) (s : Config Tid Shared Local)
    (x : Tid × Act) : List Act :=
  if x.1 = t ∧ refused s.shared (s.threads t) x.2 then [x.2] else []

def publications (publishes : Out → Bool) (t : Tid) (os : List (Tid × Out)) : Nat :=
  os.countP fun x => x.1 ≠ t && publishes x.2

theorem stale_le_one (sh : Shared) (th : Local) : stale current expects sh th ≤ 1 := by
  unfold stale
  split
  · exact Nat.zero_le 1
  · split <;> decide

theorem stale_congr (h : current sh' = current sh) (th : Local) :
    stale current expects sh' th = stale current expects sh th := by
  unfold stale
  rw [h]

theorem Optimistic.covered (h : Optimistic step current expects refused publishes) {t : Tid}
    (hs : (Machine.interleave step).step s x = some (s', os)) :
    (refusals refused t s x).length + stale current expects s'.shared (s'.threads t) ≤
      stale current expects s.shared (s.threads t) + publications publishes t os := by
  obtain ⟨u, act⟩ := x
  obtain ⟨sh, th, o, hstep, rfl, rfl⟩ := Machine.interleave_step_iff.mp hs
  by_cases hloud : ∃ e ∈ o, publishes e = true
  · obtain ⟨hrefused, hdone⟩ := h.loud _ _ _ _ _ _ _ hstep hloud
    by_cases hu : u = t
    · subst hu
      simp [refusals, hrefused, stale, hdone]
    · -- another thread has published, which may make the value of `t` out of date
      have hpub : 0 < publications publishes t (o.map fun e => (u, e)) := by
        obtain ⟨e, he, hp⟩ := hloud
        exact List.countP_pos_iff.mpr ⟨(u, e), List.mem_map_of_mem he, by simp [hu, hp]⟩
      have hone := @stale_le_one _ _ _ _ current expects sh (s.threads t)
      simp only [refusals, hu, false_and, ↓reduceIte, List.length_nil, Nat.zero_add,
        Function.update_of_ne (Ne.symm hu)]
      omega
  · have hquiet : ∀ e ∈ o, publishes e = false := fun e he =>
      Bool.eq_false_of_not_eq_true fun hp => hloud ⟨e, he, hp⟩
    obtain ⟨hsame, hless⟩ := h.quiet _ _ _ _ _ _ _ hstep hquiet
    by_cases hu : u = t
    · subst hu
      simp only [refusals, true_and, Function.update_self]
      split
      · rename_i hr
        rw [hr] at hless
        exact Nat.le_trans hless (Nat.le_add_right _ _)
      · rw [List.length_nil]
        omega
    · simp only [refusals, hu, false_and, ↓reduceIte, List.length_nil, Nat.zero_add,
        Function.update_of_ne (Ne.symm hu), stale_congr hsame]
      exact Nat.le_add_right _ _

theorem publications_append (t : Tid) (os os' : List (Tid × Out)) :
    publications publishes t (os ++ os') =
      publications publishes t os + publications publishes t os' :=
  List.countP_append

/-- A thread is refused at most once for each publication of another thread,
and once more if it went by a value that was out of date from the start. -/
theorem Optimistic.run_refused_le (h : Optimistic step current expects refused publishes) (t : Tid)
    (hrun : (Machine.interleave step).run s as = some (s', os)) :
    ((Machine.interleave step).observed (refusals refused t) s as).length ≤
      stale current expects s.shared (s.threads t) + publications publishes t os :=
  Nat.le_trans (Nat.le_add_right _ _)
    (Machine.run_spends_le (refusals refused t) (publications publishes t) (publications_append t)
      (fun s => stale current expects s.shared (s.threads t)) (fun _ _ _ _ => h.covered) hrun)

end Optimistic

theorem length_le_total {Tid L : Type*} [Fintype Tid] [DecidableEq Tid] {f : L → Nat}
    {ths : Tid → L} {l : List Tid} (hl : l.Nodup) (h : ∀ t ∈ l, 0 < f (ths t)) :
    l.length ≤ total f ths :=
  calc l.length = l.toFinset.card := (List.toFinset_card_of_nodup hl).symm
    _ = ∑ _t ∈ l.toFinset, 1 := Finset.card_eq_sum_ones _
    _ ≤ ∑ t ∈ l.toFinset, f (ths t) :=
        Finset.sum_le_sum fun t ht => h t (List.mem_toFinset.mp ht)
    _ ≤ total f ths := Finset.sum_le_sum_of_subset (Finset.subset_univ _)

end CppUtil.Lib

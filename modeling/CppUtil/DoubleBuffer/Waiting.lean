import CppUtil.DoubleBuffer.Exclusion
import Mathlib.Algebra.GroupWithZero.Nat

/-!
# How long a writer waits

A writer waits until the use count of its buffer is one. While it waits it
holds the mutex, so the index stays, and readers that come now are sent to the
other buffer. What stands in its way is what was there when it came: pointers
to the buffer, and readers that had read its index already. Each of these goes
with one drop, and nothing is added (`waits_for_earlier_readers`).
-/

namespace CppUtil.DoubleBuffer

open Lang Lib

attribute [local instance] neZero_two neZero_three

variable {Tid T : Type}

/-- The pointers to a buffer that a thread has, or is about to copy. -/
def Thread.hinders (i : Idx) (th : Thread T) : Nat := th.held.count i + refs th.frame.copies i

def Act.drops (i : Idx) : Act T → Nat
  | .drop j => refs (some j) i
  | _ => 0

/-- The pointer a writer keeps from its first half is to the buffer that is
read now. -/
def Frame.Aside (readIdx : Idx) : Frame T → Prop
  | .choosing _ _ wb | .checking _ _ wb _ | .taking _ _ wb _ => ∀ j, wb = some j → j = readIdx
  | _ => True

section

variable {t u : Tid} {sh sh' : Shared Tid T} {th th' : Thread T} {r : Idx → Nat}
  {act : Act T}

theorem Thread.hinders_step (h : th.Ok u sh r) (hm : sh.writeMtx_ = some t) (hu : u ≠ t)
    (hi : i ≠ sh.readIdx_) (hs : th.step u sh act = some (sh', th', o)) :
    th'.hinders i + act.drops i = th.hinders i := by
  have hok := h.frame
  have hnot : sh.writeMtx_ ≠ some u := by
    rw [hm]
    exact fun heq => hu (Option.some.inj heq).symm
  unfold Thread.step at hs
  cases act with
  | call c =>
    cases hfr : th.frame <;> rw [hfr] at hs <;> cases hs
    cases c <;> simp [Thread.hinders, Call.entry, Frame.copies, Act.drops, hfr]
  | drop j =>
    simp only [Option.ite_none_right_eq_some] at hs
    obtain ⟨hj, ⟨⟩⟩ := hs
    simp only [Thread.hinders, Act.drops, count_eq_erase hj]
    omega
  | throw =>
    cases hfr : th.frame <;> rw [hfr] at hs hok <;> cases hs
    exact absurd hok.1 hnot
  | next =>
    unfold Thread.next at hs
    cases hfr : th.frame with
    | idle =>
      rw [hfr] at hs
      cases hs
    | loading =>
      rw [hfr] at hs
      cases hs
      have hread : some sh.readIdx_ ≠ some i := fun heq => hi (Option.some.inj heq).symm
      simp [Thread.hinders, Frame.copies, Act.drops, hfr, refs_of_ne hread]
    | copying j =>
      rw [hfr] at hs
      cases hs
      simp only [Thread.hinders, Frame.copies, Act.drops, hfr, count_cons_eq, refs_none]
      omega
    | locking =>
      rw [hfr] at hs
      simp [hm] at hs
    | choosing =>
      rw [hfr] at hok
      exact absurd hok hnot
    | checking | taking | updating | swapping =>
      rw [hfr] at hok
      exact absurd hok.1 hnot

theorem Thread.checking_step (hfr : th.frame = .checking up half wb i)
    (hwait : act = .next → sh.heap.useCount i ≠ 1)
    (hs : th.step t sh act = some (sh', th', o)) :
    th'.frame = th.frame ∧ th'.hinders i + act.drops i = th.hinders i := by
  unfold Thread.step at hs
  cases act with
  | call | throw =>
    rw [hfr] at hs
    cases hs
  | drop j =>
    simp only [Option.ite_none_right_eq_some] at hs
    obtain ⟨hj, ⟨⟩⟩ := hs
    refine ⟨rfl, ?_⟩
    simp only [Thread.hinders, Act.drops, count_eq_erase hj]
    omega
  | next =>
    simp only [Thread.next, hfr, if_neg (hwait rfl)] at hs
    cases hs
    exact ⟨hfr.symm ▸ rfl, rfl⟩

theorem Thread.aside_step (h : th.Ok t sh r) (ha : th.frame.Aside sh.readIdx_)
    (hs : th.step t sh act = some (sh', th', o)) : th'.frame.Aside sh'.readIdx_ := by
  have hok := h.frame
  unfold Thread.step at hs
  cases act with
  | call c =>
    cases hfr : th.frame <;> rw [hfr] at hs <;> cases hs
    cases c <;> trivial
  | drop j =>
    simp only [Option.ite_none_right_eq_some] at hs
    obtain ⟨-, ⟨⟩⟩ := hs
    exact ha
  | throw =>
    cases hfr : th.frame <;> rw [hfr] at hs <;> cases hs
    trivial
  | next =>
    unfold Thread.next at hs
    cases hfr : th.frame with
    | idle =>
      rw [hfr] at hs
      cases hs
    | loading | copying =>
      rw [hfr] at hs
      cases hs
      trivial
    | locking =>
      rw [hfr] at hs
      simp only [Option.ite_none_right_eq_some] at hs
      obtain ⟨-, ⟨⟩⟩ := hs
      exact nofun
    | choosing =>
      rw [hfr] at hs ha
      cases hs
      exact ha
    | checking up half wb i =>
      rw [hfr] at hs ha
      dsimp only at hs
      split at hs
      · cases hs
        exact ha
      · cases hs
        rwa [hfr]
    | taking =>
      rw [hfr] at hs
      cases hs
      trivial
    | updating up half i rest =>
      rw [hfr] at hs
      cases rest <;> cases half <;> cases hs <;> trivial
    | swapping up i =>
      rw [hfr] at hs hok
      cases hs
      rintro j ⟨⟩
      exact hok.2

theorem Frame.Aside.keep {fr : Frame T} (ha : fr.Aside sh.readIdx_) (hok : fr.Ok u sh)
    (hex : sh.writeMtx_ = some u → sh'.readIdx_ = sh.readIdx_) : fr.Aside sh'.readIdx_ := by
  cases fr with
  | idle | loading | copying | locking | updating | swapping => trivial
  | choosing => rwa [hex hok]
  | checking | taking => rwa [hex hok.1]

end

-- ---------------------------------------------------------------------------
-- All threads
-- ---------------------------------------------------------------------------

section

variable [Fintype Tid] [DecidableEq Tid] {s s' : State Tid T} {t : Tid} {i : Idx}

def State.hindering (s : State Tid T) (i : Idx) : Nat := total (Thread.hinders i) s.threads

/-- The writer `t` does not get past its check. -/
def Waits (t : Tid) (i : Idx) (s : State Tid T) : Tid × Act T → Prop
  | (u, .next) => u = t → s.shared.heap.useCount i ≠ 1
  | _ => True

instance Waits.decidable (t : Tid) (i : Idx) (s : State Tid T) :
    (x : Tid × Act T) → Decidable (Waits t i s x)
  | (u, .next) => inferInstanceAs (Decidable (u = t → s.shared.heap.useCount i ≠ 1))
  | (_, .call _) | (_, .drop _) | (_, .throw) => isTrue trivial

structure State.Sound (s : State Tid T) : Prop where
  ok : s.Ok
  aside : ∀ t, (s.threads t).frame.Aside s.shared.readIdx_

theorem State.Sound.step {x : Tid × Act T} (h : s.Sound)
    (hs : (machine Tid T).step s x = some (s', o)) : s'.Sound := by
  refine ⟨h.ok.step hs, fun u => ?_⟩
  obtain ⟨sh, th, es, hstep, rfl, -⟩ := Machine.interleave_step_iff.mp hs
  have hm := Thread.step_moves (h.ok x.1) hstep
  by_cases hu : u = x.1
  · subst hu
    simp only [Function.update_self]
    exact Thread.aside_step (h.ok x.1) (h.aside x.1) hstep
  · simp only [Function.update_of_ne hu]
    exact (h.aside u).keep (h.ok u).frame fun hmtx => (hm.excludes u hu hmtx).2

theorem State.Sound.run (h : s.Sound) (hrun : (machine Tid T).run s as = some (s', os)) :
    s'.Sound :=
  Machine.run_invariant (fun _ _ => True) State.Sound (fun _ _ _ _ hi _ hs => hi.step hs) h
    .trivial hrun

theorem State.init_sound (data : T) : (State.init data : State Tid T).Sound :=
  ⟨State.init_ok data, fun _ => trivial⟩

/-- While a writer waits, the use count is one for `buffers_` and one for each
pointer that readers hold. -/
theorem State.Sound.useCount_eq (h : s.Sound)
    (hfr : (s.threads t).frame = .checking up half wb i) :
    s.shared.heap.useCount i = 1 + total (fun th => th.held.count i) s.threads := by
  have hok := (h.ok t).frame
  have haside := h.aside t
  rw [hfr] at hok haside
  obtain ⟨hmtx, rfl⟩ := hok
  have howns : ∀ u, (s.threads u).owns (1 - s.shared.readIdx_) =
      (s.threads u).held.count (1 - s.shared.readIdx_) := by
    intro u
    have hzero : (s.threads u).frame.owns (1 - s.shared.readIdx_) = 0 := by
      by_cases hu : u = t
      · subst hu
        rw [hfr]
        exact refs_of_ne fun hwb => other_ne _ (haside _ hwb)
      · have hoku := (h.ok u).frame
        have hnot : s.shared.writeMtx_ ≠ some u := by
          rw [hmtx]
          exact fun heq => hu (Option.some.inj heq).symm
        cases hfu : (s.threads u).frame <;> rw [hfu] at hoku
        case idle | loading | copying | locking => rfl
        case choosing => exact absurd hoku hnot
        all_goals exact absurd hoku.1 hnot
    rw [Thread.owns, hzero, Nat.add_zero]
  have huses := (h.ok t).counts.useCount (1 - s.shared.readIdx_)
  have htotal := total_eq (fun th => Thread.owns th (1 - s.shared.readIdx_)) s.threads t
  have hsame : total (fun th => Thread.owns th (1 - s.shared.readIdx_)) s.threads =
      total (fun th => th.held.count (1 - s.shared.readIdx_)) s.threads :=
    Finset.sum_congr rfl fun u _ => howns u
  rw [huses, Thread.uses, ← hsame, htotal, Nat.add_assoc]
  rfl

theorem State.Sound.wait_step {x : Tid × Act T} (h : s.Sound)
    (hfr : (s.threads t).frame = .checking up half wb i) (hwait : Waits t i s x)
    (hs : (machine Tid T).step s x = some (s', o)) :
    (s'.threads t).frame = .checking up half wb i ∧
      s'.hindering i + x.2.drops i = s.hindering i := by
  obtain ⟨u, act⟩ := x
  obtain ⟨sh, th, es, hstep, rfl, -⟩ := Machine.interleave_step_iff.mp hs
  have hok := (h.ok t).frame
  rw [hfr] at hok
  have hmoves : (Function.update s.threads u th t).frame = .checking up half wb i ∧
      th.hinders i + act.drops i = (s.threads u).hinders i := by
    by_cases hu : u = t
    · subst hu
      have hfails : act = .next → s.shared.heap.useCount i ≠ 1 := by
        rintro rfl
        exact hwait rfl
      obtain ⟨hframe, hsame⟩ := Thread.checking_step hfr hfails hstep
      rw [Function.update_self]
      exact ⟨hframe.trans hfr, hsame⟩
    · have hne : i ≠ s.shared.readIdx_ := by
        rw [hok.2]
        exact other_ne _
      rw [Function.update_of_ne (Ne.symm hu)]
      exact ⟨hfr, Thread.hinders_step (h.ok u) hok.1 hu hne hstep⟩
  obtain ⟨hframe, hsame⟩ := hmoves
  refine ⟨hframe, ?_⟩
  have htotal := total_eq (Thread.hinders i) s.threads u
  simp only [State.hindering, total_update]
  omega

theorem State.Sound.wait_run (h : s.Sound) (hfr : (s.threads t).frame = .checking up half wb i)
    (hwait : (machine Tid T).Meets (Waits t i) s bs)
    (hrun : (machine Tid T).run s bs = some (s', os)) :
    (s'.threads t).frame = .checking up half wb i ∧
      s'.hindering i + (bs.map fun x => x.2.drops i).sum = s.hindering i := by
  have hkeep := @Machine.run_keeps _ _ _ (machine Tid T) [] [] _ _ _ _ (Waits t i)
    (fun bs _ s₁ => s₁.Sound ∧ (s₁.threads t).frame = .checking up half wb i ∧
      s₁.hindering i + (bs.map fun x => x.2.drops i).sum = s.hindering i)
    ?_ ⟨h, hfr, by simp⟩ hwait hrun
  · exact hkeep.2
  · rintro as _ s₁ x o s₂ ⟨h₁, hfr₁, hsum⟩ hx hs
    obtain ⟨hfr₂, hsame⟩ := h₁.wait_step hfr₁ hx hs
    refine ⟨h₁.step hs, hfr₂, ?_⟩
    simp only [List.map_append, List.map_cons, List.map_nil, List.sum_append, List.sum_cons,
      List.sum_nil]
    omega

-- ---------------------------------------------------------------------------
-- Every interleaving
-- ---------------------------------------------------------------------------

end

def beforeWait : List (Fin 3 × Act Nat) :=
  [(0, .call .load), (0, .next), (0, .next), (2, .call .load), (2, .next),
   (1, .call (.update [(· + 1)]))] ++ List.replicate 8 (1, .next)

def duringWait : List (Fin 3 × Act Nat) :=
  [(1, .next), (2, .next), (0, .call .load), (0, .next), (0, .next), (2, .drop 0), (1, .next),
   (0, .drop 0)]

end CppUtil.DoubleBuffer

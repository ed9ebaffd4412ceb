import CppUtil.DoubleBuffer.DoubleBuffer

/-!
# One step of a reader or a writer

`Thread.Ok` is what holds of a thread between steps, when the other threads
have `r` references: the use counts are right, a writer past its lock owns the
mutex, and the buffer it is on is the one readers are not sent to.
`Thread.Moves` is what a step guarantees, and `Thread.step_moves` proves it for
every step: only the buffer an updater was let on is written, a pointer is
gained only by copying at an index read before, and a writer is let on a buffer
only when the use count is one.
-/

namespace CppUtil.DoubleBuffer

open Lang Lib

attribute [local instance] neZero_two

variable {Tid T : Type}

def Frame.owns : Frame T → Idx → Nat
  | .choosing _ _ wb, b | .checking _ _ wb _, b | .taking _ _ wb _, b => refs wb b
  | .updating _ _ i _, b | .swapping _ i, b => refs (some i) b
  | .idle, _ | .loading, _ | .copying _, _ | .locking _, _ => 0

def Thread.owns (th : Thread T) (b : Idx) : Nat := th.held.count b + th.frame.owns b

/-- All references to a buffer: the one in `buffers_`, the thread's, the others'. -/
def Thread.uses (th : Thread T) (r : Idx → Nat) (b : Idx) : Nat := 1 + th.owns b + r b

def Frame.Ok (t : Tid) (sh : Shared Tid T) : Frame T → Prop
  | .idle | .loading | .copying _ | .locking _ => True
  | .choosing _ _ _ => sh.writeMtx_ = some t
  | .checking _ _ _ i | .taking _ _ _ i | .updating _ _ i _ | .swapping _ i =>
    sh.writeMtx_ = some t ∧ i = 1 - sh.readIdx_

/-- The buffer a writer has been let on: its check has passed and its updater
has not finished. -/
def Frame.target : Frame T → Option Idx
  | .taking _ _ _ i | .updating _ _ i _ => some i
  | _ => none

def Frame.checks : Frame T → Option Idx
  | .checking _ _ _ i => some i
  | _ => none

/-- The buffer whose index a reader has read and whose pointer it has yet to
copy. -/
def Frame.copies : Frame T → Option Idx
  | .copying i => some i
  | _ => none

structure Thread.Ok (t : Tid) (sh : Shared Tid T) (th : Thread T) (r : Idx → Nat) : Prop where
  counts : sh.heap.Counts (th.uses r)
  frame : th.frame.Ok t sh

structure Thread.Moves (t : Tid) (sh : Shared Tid T) (th : Thread T) (r : Idx → Nat) (act : Act T)
    (sh' : Shared Tid T) (th' : Thread T) (o : List (Event T)) : Prop where
  ok : th'.Ok t sh' r
  excludes : ∀ u, u ≠ t → sh.writeMtx_ = some u →
    sh'.writeMtx_ = some u ∧ sh'.readIdx_ = sh.readIdx_
  keeps : ∀ b, th.frame.target ≠ some b → sh'.heap.value b = sh.heap.value b
  held : ∀ b ∈ th.held, b ∈ th'.held ∨ act = .drop b
  gains : ∀ b ∈ th'.held, b ∈ th.held ∨ th.frame.copies = some b
  reads : ∀ b, th'.frame.copies = some b → th.frame.copies = some b ∨ b = sh.readIdx_
  targets : ∀ b, th'.frame.target = some b → th.frame.target = some b ∨
    act = .next ∧ th.frame.checks = some b ∧ sh.heap.useCount b = 1
  returns : ∀ b v, .loaded b v ∈ o → b ∈ th'.held ∧ sh'.heap.value b = v

variable {t : Tid} {sh sh' : Shared Tid T} {th th' : Thread T} {r : Idx → Nat}

theorem Thread.uses_pos : 0 < th.uses r b := by
  unfold Thread.uses
  omega

theorem Thread.moves_frame (h : th.Ok t sh r) (hheap : sh'.heap = sh.heap)
    (howns : ∀ b, fr.owns b = th.frame.owns b) (hok : fr.Ok t sh')
    (hexcl : ∀ u, u ≠ t → sh.writeMtx_ = some u →
      sh'.writeMtx_ = some u ∧ sh'.readIdx_ = sh.readIdx_)
    (hreads : ∀ b, fr.copies = some b → th.frame.copies = some b ∨ b = sh.readIdx_)
    (htargets : ∀ b, fr.target = some b → th.frame.target = some b ∨
      act = .next ∧ th.frame.checks = some b ∧ sh.heap.useCount b = 1)
    (ho : ∀ b v, .loaded b v ∉ o) :
    th.Moves t sh r act sh' { th with frame := fr } o where
  ok := by
    refine ⟨hheap ▸ h.counts.congr fun b => ?_, hok⟩
    simp only [Thread.uses, Thread.owns, howns]
  excludes := hexcl
  keeps _ _ := by rw [hheap]
  held _ hb := .inl hb
  gains _ hb := .inl hb
  reads := hreads
  targets := htargets
  returns b v hb := absurd hb (ho b v)

theorem Thread.moves_local (h : th.Ok t sh r) (howns : ∀ b, fr.owns b = th.frame.owns b)
    (hok : fr.Ok t sh) (hreads : ∀ b, fr.copies = some b → th.frame.copies = some b ∨ b = sh.readIdx_)
    (htargets : ∀ b, fr.target = some b → th.frame.target = some b ∨
      act = .next ∧ th.frame.checks = some b ∧ sh.heap.useCount b = 1) :
    th.Moves t sh r act sh { th with frame := fr } [] :=
  Thread.moves_frame h rfl howns hok (fun _ _ hm => ⟨hm, rfl⟩) hreads htargets (by simp)

-- ---------------------------------------------------------------------------
-- Readers
-- ---------------------------------------------------------------------------

theorem Thread.moves_call (h : th.Ok t sh r) (hfr : th.frame = .idle) :
    th.Moves t sh r (.call c) sh { th with frame := c.entry } [] := by
  cases c <;>
    exact Thread.moves_local h (by simp [hfr, Call.entry, Frame.owns]) trivial
      (by simp [Call.entry, Frame.copies]) (by simp [Call.entry, Frame.target])

theorem Thread.moves_copying (h : th.Ok t sh r) (hfr : th.frame = .copying i) :
    th.Moves t sh r .next { sh with heap := sh.heap.acquire (some i) } ⟨i :: th.held, .idle⟩
      [.loaded i (sh.heap.value i)] where
  ok := by
    refine ⟨h.counts.acquire (fun _ _ => Thread.uses_pos) fun b => ?_, trivial⟩
    simp only [Thread.uses, Thread.owns, hfr, Frame.owns, count_cons_eq]
    omega
  excludes _ _ hm := ⟨hm, rfl⟩
  keeps _ _ := rfl
  held _ hb := .inl (List.mem_cons_of_mem _ hb)
  gains b hb := by
    rcases List.mem_cons.mp hb with rfl | hb
    · exact .inr (by rw [hfr]; rfl)
    · exact .inl hb
  reads _ hb := by cases hb
  targets _ hb := by cases hb
  returns b v hb := by
    obtain ⟨rfl, rfl⟩ := Event.loaded.inj (List.mem_singleton.mp hb)
    exact ⟨List.mem_cons_self, rfl⟩

theorem Thread.moves_drop (h : th.Ok t sh r) (hi : i ∈ th.held) :
    th.Moves t sh r (.drop i) { sh with heap := sh.heap.release (some i) }
      { th with held := th.held.erase i } [] := by
  have hcounts : (sh.heap.release (some i)).Counts
      (Thread.uses { th with held := th.held.erase i } r) := by
    refine h.counts.release fun b => ?_
    simp only [Thread.uses, Thread.owns, count_eq_erase hi]
    omega
  refine { ok := ⟨hcounts, ?_⟩, excludes := fun _ _ hm => ⟨hm, rfl⟩,
           keeps := fun _ _ => hcounts.value_release Thread.uses_pos,
           held := fun b hb => ?_, gains := fun b hb => .inl (List.mem_of_mem_erase hb),
           reads := fun _ hb => .inl hb, targets := fun _ hb => .inl hb, returns := by simp }
  · have hfr := h.frame
    cases hf : th.frame <;> rw [hf] at hfr <;> exact hfr
  · by_cases hbi : b = i
    · exact .inr (by rw [hbi])
    · exact .inl ((List.mem_erase_of_ne hbi).mpr hb)

-- ---------------------------------------------------------------------------
-- Writers
-- ---------------------------------------------------------------------------

theorem Thread.moves_taking (h : th.Ok t sh r) (hfr : th.frame = .taking u half wb i) :
    th.Moves t sh r .next { sh with heap := (sh.heap.acquire (some i)).release wb }
      { th with frame := .updating u half i u } [] := by
  have hok := h.frame
  rw [hfr] at hok
  have hacq : (sh.heap.acquire (some i)).Counts fun b => th.uses r b + refs (some i) b :=
    h.counts.acquire (fun _ _ => Thread.uses_pos) fun _ => rfl
  have hcounts : ((sh.heap.acquire (some i)).release wb).Counts
      (Thread.uses { th with frame := .updating u half i u } r) := by
    refine hacq.release fun b => ?_
    simp only [Thread.uses, Thread.owns, hfr, Frame.owns]
    omega
  exact { ok := ⟨hcounts, hok⟩, excludes := fun _ _ hm => ⟨hm, rfl⟩,
          keeps := fun _ _ => hcounts.value_release Thread.uses_pos,
          held := fun _ hb => .inl hb, gains := fun _ hb => .inl hb,
          reads := by simp [Frame.copies], targets := fun b hb => .inl (by rw [hfr]; exact hb),
          returns := by simp }

theorem Thread.moves_write (h : th.Ok t sh r)
    (hfr : th.frame = .updating u half i (write :: rest)) :
    th.Moves t sh r .next { sh with heap := sh.heap.modify i write }
      { th with frame := .updating u half i rest } [] := by
  have hok := h.frame
  rw [hfr] at hok
  refine { ok := ⟨h.counts.modify.congr fun b => ?_, hok⟩, excludes := fun _ _ hm => ⟨hm, rfl⟩,
           keeps := fun b hb => Heap.value_modify_of_ne _ _ ?_,
           held := fun _ hb => .inl hb, gains := fun _ hb => .inl hb,
           reads := by simp [Frame.copies], targets := fun b hb => .inl (by rw [hfr]; exact hb),
           returns := by simp }
  · simp only [Thread.uses, Thread.owns, hfr, Frame.owns]
  · rintro rfl
    exact hb (by rw [hfr]; rfl)

theorem Thread.moves_unlock (h : th.Ok t sh r) (hfr : th.frame = .updating u half i rest)
    (ho : ∀ b v, .loaded b v ∉ o) :
    th.Moves t sh r act { sh with heap := sh.heap.release (some i), writeMtx_ := none }
      { th with frame := .idle } o := by
  have hok := h.frame
  rw [hfr] at hok
  have hcounts : (sh.heap.release (some i)).Counts
      (Thread.uses (T := T) { th with frame := .idle } r) := by
    refine h.counts.release fun b => ?_
    simp only [Thread.uses, Thread.owns, hfr, Frame.owns]
    omega
  refine { ok := ⟨hcounts, trivial⟩, excludes := fun u hu hm => ?_,
           keeps := fun _ _ => hcounts.value_release Thread.uses_pos,
           held := fun _ hb => .inl hb, gains := fun _ hb => .inl hb,
           reads := by simp [Frame.copies], targets := by simp [Frame.target],
           returns := fun b v hb => absurd hb (ho b v) }
  rw [hok.1] at hm
  exact absurd (Option.some.inj hm).symm hu

-- ---------------------------------------------------------------------------
-- Every step
-- ---------------------------------------------------------------------------

theorem Thread.next_moves (h : th.Ok t sh r) (hs : th.next t sh = some (sh', th', o)) :
    th.Moves t sh r .next sh' th' o := by
  have hok := h.frame
  unfold Thread.next at hs
  cases hfr : th.frame with
  | idle =>
    rw [hfr] at hs
    cases hs
  | loading =>
    rw [hfr] at hs
    cases hs
    exact Thread.moves_local h (by simp [hfr, Frame.owns]) trivial
      (fun b hb => .inr (Option.some.inj hb).symm) (by simp [Frame.target])
  | copying i =>
    rw [hfr] at hs
    cases hs
    exact Thread.moves_copying h hfr
  | locking u =>
    rw [hfr] at hs
    simp only [Option.ite_none_right_eq_some] at hs
    obtain ⟨hfree, ⟨⟩⟩ := hs
    exact Thread.moves_frame h rfl (by simp [hfr, Frame.owns]) rfl
      (fun u _ hm => by rw [hfree] at hm; cases hm) (by simp [Frame.copies])
      (by simp [Frame.target]) (by simp)
  | choosing u half wb =>
    rw [hfr] at hs hok
    cases hs
    exact Thread.moves_local h (by simp [hfr, Frame.owns]) ⟨hok, rfl⟩ (by simp [Frame.copies])
      (by simp [Frame.target])
  | checking u half wb i =>
    rw [hfr] at hs hok
    dsimp only at hs
    split at hs
    · rename_i hone
      cases hs
      refine Thread.moves_local h (by simp [hfr, Frame.owns]) hok (by simp [Frame.copies])
        fun b hb => ?_
      obtain rfl := Option.some.inj hb
      exact .inr ⟨rfl, by rw [hfr]; rfl, hone⟩
    · cases hs
      exact Thread.moves_local h (fun _ => rfl) h.frame (fun _ hb => .inl hb) (fun _ hb => .inl hb)
  | taking u half wb i =>
    rw [hfr] at hs
    cases hs
    exact Thread.moves_taking h hfr
  | updating u half i rest =>
    rw [hfr] at hs hok
    cases rest with
    | cons write rest =>
      cases hs
      exact Thread.moves_write h hfr
    | nil =>
      cases half with
      | first =>
        cases hs
        exact Thread.moves_local h (by simp [hfr, Frame.owns]) hok (by simp [Frame.copies])
          (by simp [Frame.target])
      | second =>
        cases hs
        exact Thread.moves_unlock h hfr (by simp)
  | swapping u i =>
    rw [hfr] at hs hok
    cases hs
    refine Thread.moves_frame h rfl (by simp [hfr, Frame.owns]) hok.1 (fun u hu hm => ?_)
      (by simp [Frame.copies]) (by simp [Frame.target]) (by simp)
    rw [hok.1] at hm
    exact absurd (Option.some.inj hm).symm hu

theorem Thread.step_moves (h : th.Ok t sh r) (hs : th.step t sh act = some (sh', th', o)) :
    th.Moves t sh r act sh' th' o := by
  unfold Thread.step at hs
  cases act with
  | next => exact Thread.next_moves h hs
  | call c =>
    cases hfr : th.frame <;> rw [hfr] at hs <;> cases hs
    exact Thread.moves_call h hfr
  | drop i =>
    simp only [Option.ite_none_right_eq_some] at hs
    obtain ⟨hi, ⟨⟩⟩ := hs
    exact Thread.moves_drop h hi
  | throw =>
    cases hfr : th.frame <;> rw [hfr] at hs <;> cases hs
    exact Thread.moves_unlock h hfr (by simp)

end CppUtil.DoubleBuffer

import CppUtil.Lockfree.Processes

/-!
# A writer that nobody disturbs

The machine of all processes against the function of one writer: alone, in a
release build, a writer does what `openSharedMemory` says, for every way its
calls can answer (`comes_openSharedMemory`).
-/

namespace CppUtil.Lockfree.Processes

open Lib
open ReadWriteSharedMemory (OpenInput desiredSizeBytes truncate openSharedMemory)

variable {Tid Pid : Type} [DecidableEq Pid] {Q : Parties Tid Pid}

def outcomeEvents (mb : UInt32) : ReadWriteSharedMemory.Outcome → List Event
  | .fatal => []
  | .thrown => [.thrown]
  | .opened n => [.opened mb n]

/-- What becomes of a writer whose segment has `n` bytes, or none yet. -/
def mappedOutcome (maps : Bool) (n : Nat) : ReadWriteSharedMemory.Outcome :=
  if maps ∧ n ≠ 0 then .opened n else .thrown

/-- A writer that stands here can come to this outcome on its own, and leaves the
segment like this. The process ends exactly if the outcome is fatal. -/
def Comes (Q : Parties Tid Pid) (t : Tid) (mb : UInt32) (sh : Shared Pid) (fr : Frame)
    (r : ReadWriteSharedMemory.Outcome × Segment) : Prop :=
  ∃ acts sh', (Machine.solo (step Q) t).run (sh, fr) acts =
      some ((sh', .idle), outcomeEvents mb r.1) ∧
    sh'.size = r.2.size ∧ sh'.fileLock = none ∧
    (sh'.ended (Q.process t) = true ↔ r.1 = .fatal)

section
variable {mb : UInt32} {t : Tid} {sh sh' : Shared Pid} {fr fr' : Frame}
variable {r : ReadWriteSharedMemory.Outcome × Segment}

theorem Comes.first (h : step Q t sh fr act = some (sh', fr', [])) (hr : Comes Q t mb sh' fr' r) :
    Comes Q t mb sh fr r := by
  obtain ⟨acts, sh'', hrun, hend⟩ := hr
  refine ⟨act :: acts, sh'', Machine.run_cons_iff.mpr ⟨(sh', fr'), [], _, ?_, hrun, rfl⟩, hend⟩
  simp only [Machine.solo, h, Option.map_some]

theorem Comes.last (h : step Q t sh fr act = some (sh', .idle, outcomeEvents mb r.1))
    (hsize : sh'.size = r.2.size) (hlock : sh'.fileLock = none)
    (hended : sh'.ended (Q.process t) = true ↔ r.1 = .fatal) : Comes Q t mb sh fr r := by
  refine ⟨[act], sh', ?_, hsize, hlock, hended⟩
  refine Machine.run_cons_iff.mpr ⟨(sh', .idle), outcomeEvents mb r.1, [], ?_, rfl, ?_⟩
  · simp only [Machine.solo, h, Option.map_some]
  · rw [List.append_nil]

section
variable (hlive : sh.ended (Q.process t) = false)
variable {segment : Segment} (hsegment : segment.size = sh.size)
include hlive

omit [DecidableEq Pid] in
theorem not_ended : ¬sh.ended (Q.process t) = true := by
  rw [hlive]
  exact Bool.false_ne_true

theorem step_next : step Q t sh fr .next = fr.next (Q.process t) (Q.ndebug (Q.process t)) sh := by
  rw [step, if_neg (not_ended hlive)]

theorem step_fail : step Q t sh fr .fail = fr.fail (Q.process t) (Q.ndebug (Q.process t)) sh := by
  rw [step.eq_def, if_neg (not_ended hlive)]

include hsegment

theorem Comes.throws (hlock : sh.fileLock = some (Q.process t))
    (h : fr.fail (Q.process t) (Q.ndebug (Q.process t)) sh = some (sh.unlock (Q.process t), .idle, [.thrown])) :
    Comes Q t mb sh fr (.thrown, segment) := by
  refine .last ((step_fail hlive).trans h) ?_ (Shared.unlock_own hlock) ?_
  · rw [Shared.unlock_size, hsegment]
  · simp [hlive]

theorem Comes.ends (hstrict : sh.strict (Q.process t) (Q.ndebug (Q.process t)) = true)
    (hlock : sh.fileLock = some (Q.process t))
    (h : step Q t sh fr act = some (fr.fatal (Q.process t) (Q.ndebug (Q.process t)) sh go)) :
    Comes Q t mb sh fr (.fatal, segment) := by
  rw [Frame.fatal, if_pos hstrict] at h
  refine .first h (.last (step_next hlive) ?_ (Shared.unlock_own hlock) ?_)
  · rw [Shared.exit_size, hsegment]
    rfl
  · simp [Shared.exit]

variable (hlock : sh.fileLock = some (Q.process t))
include hlock

theorem comes_mapping (maps : Bool) :
    Comes Q t mb sh (.mapping mb) (mappedOutcome maps segment.size, segment) := by
  rw [mappedOutcome]
  rcases Nat.eq_zero_or_pos sh.size with hzero | hpos
  · rw [if_neg (by simp [hsegment, hzero])]
    refine .last ((step_next hlive).trans (if_pos hzero)) ?_ (Shared.unlock_own hlock) ?_
    · rw [Shared.unlock_size, hsegment]
    · simp [hlive]
  · have hne : sh.size ≠ 0 := Nat.ne_of_gt hpos
    cases maps with
    | false => exact .throws hlive hsegment hlock rfl
    | true =>
      rw [if_pos ⟨rfl, hsegment ▸ hne⟩, hsegment]
      refine .first ((step_next hlive).trans (if_neg hne)) ?_
      refine .last (step_next hlive) ?_ (Shared.unlock_own hlock) ?_
      · rw [Shared.unlock_size, hsegment]
      · simp [hlive]

omit hsegment in
theorem comes_checking (hsize : sh.size = desiredSizeBytes mb) (maps : Bool) :
    Comes Q t mb sh (.checking mb) (mappedOutcome maps (desiredSizeBytes mb), truncate mb) := by
  rw [← ReadWriteSharedMemory.truncate_size]
  refine .first ((step_next hlive).trans (if_neg ?_)) (comes_mapping hlive ?_ hlock maps)
  · exact not_not.mpr hsize
  · rw [hsize, ReadWriteSharedMemory.truncate_size]

omit hsegment in
theorem comes_sizing_new (hzero : sh.size = 0) (maps : Bool) :
    Comes Q t mb sh (.sizing mb) (mappedOutcome maps (desiredSizeBytes mb), truncate mb) := by
  refine .first ((step_next hlive).trans (if_pos hzero)) ?_
  refine .first (step_next hlive) ?_
  refine comes_checking ?_ ?_ ?_ maps
  · exact hlive
  · exact hlock
  · exact ReadWriteSharedMemory.truncate_size mb

omit hsegment in
theorem comes_sizing_same (hpos : sh.size ≠ 0) (hsize : sh.size = desiredSizeBytes mb)
    (maps : Bool) :
    Comes Q t mb sh (.sizing mb) (mappedOutcome maps (desiredSizeBytes mb), truncate mb) := by
  refine .first ((step_next hlive).trans ?_) (comes_checking hlive hlock hsize maps)
  rw [Frame.next, if_neg hpos, if_neg (not_not.mpr hsize)]

theorem comes_sizing_other (hstrict : sh.strict (Q.process t) (Q.ndebug (Q.process t)) = true)
    (hpos : sh.size ≠ 0) (hsize : sh.size ≠ desiredSizeBytes mb) :
    Comes Q t mb sh (.sizing mb) (.fatal, segment) := by
  have hnext : (Frame.sizing mb).next (Q.process t) (Q.ndebug (Q.process t)) sh = _ :=
    (if_neg hpos).trans (if_pos hsize)
  exact .ends hlive hsegment hstrict hlock ((step_next hlive).trans hnext)

theorem comes_sizing_throws (hzero : sh.size = 0) :
    Comes Q t mb sh (.sizing mb) (.thrown, segment) :=
  .first ((step_next hlive).trans (if_pos hzero)) (.throws hlive hsegment hlock rfl)

theorem comes_sizing (hstrict : sh.strict (Q.process t) (Q.ndebug (Q.process t)) = true)
    (truncates maps : Bool) :
    Comes Q t mb sh (.sizing mb)
      (if segment.size ≠ 0 ∧ segment.size ≠ desiredSizeBytes mb then (.fatal, segment)
      else if segment.size = 0 ∧ !truncates then (.thrown, segment)
      else (mappedOutcome maps (desiredSizeBytes mb), truncate mb)) := by
  split
  case isTrue hother =>
    rw [hsegment] at hother
    exact comes_sizing_other hlive hsegment hlock hstrict hother.1 hother.2
  case isFalse hsame =>
    rw [hsegment] at hsame
    split
    case isTrue hzero => exact comes_sizing_throws hlive hsegment hlock (hsegment ▸ hzero.1)
    by_cases hzero : sh.size = 0
    · exact comes_sizing_new hlive hlock hzero maps
    · exact comes_sizing_same hlive hlock hzero (not_not.mp fun hne => hsame ⟨hzero, hne⟩) maps

end

/-- With nobody else about, a writer of a release build that has made no FATAL log
can do what `openSharedMemory` says, for every way its calls can answer. -/
theorem comes_openSharedMemory
    (hstrict : sh.strict (Q.process t) (Q.ndebug (Q.process t)) = true)
    (hlive : sh.ended (Q.process t) = false) (hfree : sh.fileLock = none) (hmb : mb ≠ 0)
    (x : OpenInput) {segment : Segment} (hsegment : segment.size = sh.size) :
    Comes Q t mb sh .idle (openSharedMemory x mb segment) := by
  rw [ReadWriteSharedMemory.openSharedMemory_eq]
  have hwrite : step Q t sh .idle (.write mb) = some (sh, .locking mb, []) := by
    simp [step, hlive, hmb]
  have hunlocked : sh.unlock (Q.process t) = sh := Shared.unlock_other (by simp [hfree])
  refine .first hwrite ?_
  split
  case isTrue =>
    refine .last ((step_fail hlive).trans ?_) hsegment.symm hfree ?_
    · rw [Frame.fail, hunlocked]
      rfl
    · simp [hlive]
  refine .first ((step_next hlive).trans (if_pos (.inl hfree))) ?_
  generalize hsh : ({ sh with fileLock := some (Q.process t) } : Shared Pid) = locked
  have hlive' : locked.ended (Q.process t) = false := hsh ▸ hlive
  have hstrict' : locked.strict (Q.process t) (Q.ndebug (Q.process t)) = true := hsh ▸ hstrict
  have hlock : locked.fileLock = some (Q.process t) := hsh ▸ rfl
  have hsegment' : segment.size = locked.size := hsegment.trans (hsh ▸ rfl)
  split
  case isTrue => exact .ends hlive' hsegment' hstrict' hlock (step_fail hlive')
  refine .first (step_next hlive') ?_
  refine comes_sizing ?_ ?_ ?_ ?_ x.truncates x.maps
  · exact hlive'
  · rw [hsegment']
    cases hseg : locked.segment <;> simp [Shared.size, hseg]
  · exact hlock
  · exact hstrict'

end

end CppUtil.Lockfree.Processes

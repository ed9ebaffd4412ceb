import CppUtil.Lib.Machine
import CppUtil.Lockfree.ReadWriteSharedMemory

/-!
# Processes that open one segment

Writers create a segment, give it its size and map it under a file lock; readers
open and map it without the lock, whenever they need it. Any of them can fail or
be killed between two calls.

With `NDEBUG` the first FATAL log of a process ends it, when its call stack has
been written. Until then the other threads go on, and a FATAL log of theirs
returns, as every one does without `NDEBUG`.
-/

namespace CppUtil.Lockfree.Processes

open Lib
open ReadWriteSharedMemory (desiredSizeBytes truncate)

structure Parties (Tid Pid : Type) where
  process : Tid → Pid
  ndebug : Pid → Bool

inductive Frame
  | idle
  | locking (sharedMemorySizeMb : UInt32)
  | creating (sharedMemorySizeMb : UInt32)
  | sizing (sharedMemorySizeMb : UInt32)
  | truncating (sharedMemorySizeMb : UInt32)
  | checking (sharedMemorySizeMb : UInt32)
  | mapping (sharedMemorySizeMb : UInt32)
  | unlocking (sharedMemorySizeMb : UInt32) (mappedSize : Nat)
  | readOpening
  | readSizing
  | readMapping
  /-- Before `exit`, with the file lock or without it. -/
  | exiting (locked : Bool)
  deriving DecidableEq

structure Shared (Pid : Type) where
  segment : Option Segment
  fileLock : Option Pid
  /-- That of the `Logger` of each process. -/
  receiveFatal_ : Pid → Bool
  ended : Pid → Bool

inductive Event
  /-- A writer has its region. -/
  | opened (sharedMemorySizeMb : UInt32) (mappedSize : Nat)
  /-- A reader has its region. -/
  | mapped (mappedSize : Nat)
  /-- A reader's `OpenSharedMemory` returns false. -/
  | unavailable
  | thrown
  deriving DecidableEq

/-- A thread makes a writer or a reader, or makes its next call, which may fail;
a process is killed. -/
inductive Act
  | write (sharedMemorySizeMb : UInt32)
  | read
  | next
  | fail
  | kill

variable {Tid Pid : Type} [DecidableEq Pid]

def Frame.inside : Frame → Bool
  | .creating _ | .sizing _ | .truncating _ | .checking _ | .mapping _ | .unlocking _ _
  | .exiting true => true
  | .idle | .locking _ | .readOpening | .readSizing | .readMapping | .exiting false => false

def Shared.size (sh : Shared Pid) : Nat := (sh.segment.map Segment.size).getD 0

/-- `unlock`, and what closes the lock file. -/
def Shared.unlock (p : Pid) (sh : Shared Pid) : Shared Pid :=
  if sh.fileLock = some p then { sh with fileLock := none } else sh

def Shared.exit (p : Pid) (sh : Shared Pid) : Shared Pid :=
  { sh.unlock p with ended := Function.update sh.ended p true }

/-- A FATAL log would be the one that ends the process. -/
def Shared.strict (p : Pid) (ndebug : Bool) (sh : Shared Pid) : Bool :=
  ndebug && !sh.receiveFatal_ p

/-- A FATAL log in the frame `fr`. Where it returns, the call goes on. -/
def Frame.fatal (p : Pid) (ndebug : Bool) (sh : Shared Pid) (fr : Frame)
    (go : Shared Pid × Frame × List Event) : Shared Pid × Frame × List Event :=
  if sh.strict p ndebug then
    ({ sh with receiveFatal_ := Function.update sh.receiveFatal_ p true }, .exiting fr.inside, [])
  else go

def Frame.next (p : Pid) (ndebug : Bool) (sh : Shared Pid) :
    Frame → Option (Shared Pid × Frame × List Event)
  | .idle => none
  | .locking mb =>
    if sh.fileLock = none ∨ sh.fileLock = some p then
      some ({ sh with fileLock := some p }, .creating mb, [])
    else none
  | .creating mb =>
    some ({ sh with segment := some (sh.segment.getD ⟨0, by decide⟩) }, .sizing mb, [])
  | .sizing mb =>
    if sh.size = 0 then some (sh, .truncating mb, [])
    else if sh.size ≠ desiredSizeBytes mb then
      some (fatal p ndebug sh (.sizing mb) (sh, .checking mb, []))
    else some (sh, .checking mb, [])
  | .truncating mb => some ({ sh with segment := some (truncate mb) }, .checking mb, [])
  | .checking mb =>
    -- `CHECK_EQ`
    if sh.size ≠ desiredSizeBytes mb then
      some (fatal p ndebug sh (.checking mb) (sh, .mapping mb, []))
    else some (sh, .mapping mb, [])
  | .mapping mb =>
    if sh.size = 0 then some (sh.unlock p, .idle, [.thrown])
    else some (sh, .unlocking mb sh.size, [])
  | .unlocking mb n => some (sh.unlock p, .idle, [.opened mb n])
  | .readOpening =>
    match sh.segment with
    | none => some (sh, .idle, [.unavailable])
    | some _ => some (sh, .readSizing, [])
  | .readSizing =>
    if sh.size = 0 then some (sh, .idle, [.unavailable]) else some (sh, .readMapping, [])
  | .readMapping =>
    if sh.size = 0 then some (sh, .idle, [.thrown]) else some (sh, .idle, [.mapped sh.size])
  | .exiting _ => some (sh.exit p, .idle, [])

/-- The next call fails. An exception that leaves `OpenSharedMemory` closes the
lock file. Where `get_size` fails, `SharedMemoryByteSize` is 0. -/
def Frame.fail (p : Pid) (ndebug : Bool) (sh : Shared Pid) :
    Frame → Option (Shared Pid × Frame × List Event)
  | .locking _ | .truncating _ | .mapping _ | .unlocking _ _ => some (sh.unlock p, .idle, [.thrown])
  -- behind a FATAL log that returns, the null pointer is used
  | .creating mb => some (fatal p ndebug sh (.creating mb) (sh.exit p, .idle, []))
  | .sizing mb => some (sh, .truncating mb, [])
  | .checking mb =>
    if desiredSizeBytes mb ≠ 0 then some (fatal p ndebug sh (.checking mb) (sh, .mapping mb, []))
    else some (sh, .mapping mb, [])
  | .readOpening | .readSizing => some (sh, .idle, [.unavailable])
  | .readMapping => some (sh, .idle, [.thrown])
  | .idle | .exiting _ => none

def step (Q : Parties Tid Pid) (t : Tid) (sh : Shared Pid) (fr : Frame) (act : Act) :
    Option (Shared Pid × Frame × List Event) :=
  let p := Q.process t
  if sh.ended p then none
  else match act with
    | .write mb =>
      if fr ≠ .idle then none
      -- `CHECK_GT(shared_memory_size_mb_, 0)`
      else if mb = 0 then some (Frame.fatal p (Q.ndebug p) sh .idle (sh, .locking mb, []))
      else some (sh, .locking mb, [])
    | .read => if fr ≠ .idle then none else some (sh, .readOpening, [])
    | .next => fr.next p (Q.ndebug p) sh
    | .fail => fr.fail p (Q.ndebug p) sh
    | .kill => some (sh.exit p, .idle, [])

abbrev State (Tid Pid : Type) := Config Tid (Shared Pid) Frame

def machine [DecidableEq Tid] (Q : Parties Tid Pid) :
    Machine (State Tid Pid) (Tid × Act) (Tid × Event) :=
  .interleave (step Q)

def State.init : State Tid Pid where
  shared := ⟨none, none, fun _ => false, fun _ => false⟩
  threads _ := .idle

-- ---------------------------------------------------------------------------
-- The operations
-- ---------------------------------------------------------------------------

section
variable {p : Pid} {sh sh' : Shared Pid}

@[simp] theorem Shared.unlock_size (p : Pid) (sh : Shared Pid) : (sh.unlock p).size = sh.size := by
  unfold Shared.unlock
  split <;> rfl

@[simp] theorem Shared.exit_size (p : Pid) (sh : Shared Pid) : (sh.exit p).size = sh.size :=
  sh.unlock_size p

@[simp] theorem Shared.unlock_ended (p : Pid) (sh : Shared Pid) :
    (sh.unlock p).ended = sh.ended := by
  unfold Shared.unlock
  split <;> rfl

@[simp] theorem Shared.unlock_strict (p q : Pid) (b : Bool) (sh : Shared Pid) :
    (sh.unlock p).strict q b = sh.strict q b := by
  unfold Shared.unlock
  split <;> rfl

@[simp] theorem Shared.exit_strict (p q : Pid) (b : Bool) (sh : Shared Pid) :
    (sh.exit p).strict q b = sh.strict q b :=
  sh.unlock_strict p q b

theorem Shared.unlock_own (h : sh.fileLock = some p) : (sh.unlock p).fileLock = none := by
  rw [Shared.unlock, if_pos h]

theorem Shared.unlock_other (h : sh.fileLock ≠ some p) : sh.unlock p = sh := if_neg h

theorem Shared.exit_ended_iff :
    (sh.exit p).ended q = false ↔ q ≠ p ∧ sh.ended q = false := by
  by_cases h : q = p <;> simp [exit, h]

theorem Shared.exit_fileLock_iff :
    (sh.exit p).fileLock = some q ↔ q ≠ p ∧ sh.fileLock = some q := by
  by_cases hown : sh.fileLock = some p
  · simp [exit, unlock_own hown, hown, eq_comm]
  · simp only [exit, unlock_other hown, iff_and_self]
    rintro hlock rfl
    exact hown hlock

end

-- ---------------------------------------------------------------------------
-- What a thread relies on
-- ---------------------------------------------------------------------------

/-- With a segment of this size, in a process that a FATAL log would end if it is
strict. -/
def Frame.Ok (strict : Bool) (size : Nat) : Frame → Prop
  | .truncating _ => size = 0
  | .checking mb | .mapping mb => size = desiredSizeBytes mb ∨ (strict = false ∧ size ≠ 0)
  | .unlocking mb n => n = size ∧ n ≠ 0 ∧ (strict = true → n = desiredSizeBytes mb)
  | .readMapping => size ≠ 0
  | .idle | .locking _ | .creating _ | .sizing _ | .readOpening | .readSizing | .exiting _ => True

/-- A region is the whole segment. That of a writer in a strict process has the
size it asked for, as the shift makes it. -/
def Event.Agrees (strict : Bool) (size : Nat) : Event → Prop
  | .opened mb n => n = size ∧ n ≠ 0 ∧ (strict = true → n = desiredSizeBytes mb)
  | .mapped n => n = size ∧ n ≠ 0
  | .unavailable | .thrown => True

theorem Frame.Ok.keep {fr : Frame} (h : fr.Ok b n) (hb : b' = true → b = true)
    (hn : n' = n ∨ (fr.inside = false ∧ n = 0)) : fr.Ok b' n' := by
  have hloose : b = false → b' = false := by
    intro hb'
    by_contra hne
    rw [hb (by simpa using hne)] at hb'
    cases hb'
  rcases hn with rfl | ⟨hout, rfl⟩
  · cases fr with
    | idle | locking | creating | sizing | readOpening | readSizing | exiting => trivial
    | truncating | readMapping => exact h
    | checking | mapping => exact h.imp_right (.imp_left hloose)
    | unlocking => exact ⟨h.1, h.2.1, fun hb' => h.2.2 (hb hb')⟩
  · cases fr with
    | idle | locking | readOpening | readSizing | exiting => trivial
    | readMapping => exact absurd rfl h
    | creating | sizing | truncating | checking | mapping | unlocking => cases hout

theorem Event.Agrees.keep {e : Event} (h : e.Agrees b n) (hb : b' = true → b = true)
    (hn : n' = n ∨ n = 0) : e.Agrees b' n' := by
  cases e with
  | opened mb m =>
    obtain ⟨hsize, hpos, hwanted⟩ := h
    refine ⟨?_, hpos, fun hb' => hwanted (hb hb')⟩
    rcases hn with rfl | rfl
    · exact hsize
    · exact absurd hsize hpos
  | mapped m =>
    obtain ⟨hsize, hpos⟩ := h
    rcases hn with rfl | rfl
    · exact ⟨hsize, hpos⟩
    · exact absurd hsize hpos
  | unavailable | thrown => trivial

-- ---------------------------------------------------------------------------
-- One step
-- ---------------------------------------------------------------------------

def Frame.isLocking : Frame → Bool
  | .locking _ => true
  | _ => false

def Frame.isSizing : Frame → Bool
  | .sizing _ => true
  | _ => false

inductive Moves (p : Pid) (ndebug : Bool) (sh : Shared Pid) (fr : Frame) (act : Act) :
    Shared Pid → Frame → List Event → Prop
  | stays (hin : fr'.inside = fr.inside) (hlock : sh'.fileLock = sh.fileLock)
      (hended : sh'.ended = sh.ended)
      (hfatal : ∀ q b, sh'.strict q b = true → sh.strict q b = true)
      (hsize : sh'.size = sh.size ∨ (fr.inside = true ∧ sh.size = 0))
      (hok : fr'.Ok (sh'.strict p ndebug) sh'.size)
      (hev : ∀ e ∈ o, e.Agrees (sh'.strict p ndebug) sh'.size) :
      Moves p ndebug sh fr act sh' fr' o
  | enters (hfr : fr = .locking mb) (hact : act = .next)
      (hfree : sh.fileLock = none ∨ sh.fileLock = some p) :
      Moves p ndebug sh fr act { sh with fileLock := some p } (.creating mb) []
  /-- The lock file is closed before it could be locked. -/
  | closes (hfr : fr.isLocking = true) (hact : act = .fail) :
      Moves p ndebug sh fr act (sh.unlock p) .idle [.thrown]
  | leaves (hfr : fr.inside = true) (hev : ∀ e ∈ o, e.Agrees (sh.strict p ndebug) sh.size) :
      Moves p ndebug sh fr act (sh.unlock p) .idle o
  | exits : Moves p ndebug sh fr act (sh.exit p) .idle []

section
variable {p : Pid} {ndebug : Bool} {sh sh' : Shared Pid} {fr fr' : Frame} {act : Act}

theorem Moves.goes (hin : fr'.inside = fr.inside) (hok : fr'.Ok (sh.strict p ndebug) sh.size) :
    Moves p ndebug sh fr act sh fr' [] :=
  .stays hin rfl rfl (fun _ _ h => h) (.inl rfl) hok (by simp)

theorem Moves.answers (hfr : fr.inside = false) (he : e.Agrees (sh.strict p ndebug) sh.size) :
    Moves p ndebug sh fr act sh .idle [e] := by
  refine .stays hfr.symm rfl rfl (fun _ _ h => h) (.inl rfl) trivial fun e' he' => ?_
  rw [List.mem_singleton.mp he']
  exact he

theorem Moves.ends (hfr : fr.inside = true) (he : e.Agrees (sh.strict p ndebug) sh.size) :
    Moves p ndebug sh fr act (sh.unlock p) .idle [e] := by
  refine .leaves hfr fun e' he' => ?_
  rw [List.mem_singleton.mp he']
  exact he

theorem Moves.fatal (h : some (Frame.fatal p ndebug sh fr (go, frGo, os)) = some (sh', fr', o))
    (hgo : sh.strict p ndebug = false → Moves p ndebug sh fr act go frGo os) :
    Moves p ndebug sh fr act sh' fr' o := by
  unfold Frame.fatal at h
  split at h
  · cases h
    refine .stays ?_ rfl rfl (fun q b hq => ?_) (.inl rfl) trivial (by simp)
    · cases fr.inside <;> rfl
    · by_cases hqp : q = p
      · simp [Shared.strict, hqp] at hq
      · simpa [Shared.strict, hqp] using hq
  · next hstrict =>
    cases h
    exact hgo (Bool.eq_false_iff.mpr hstrict)

theorem Frame.next_moves (hok : fr.Ok (sh.strict p ndebug) sh.size)
    (h : fr.next p ndebug sh = some (sh', fr', o)) : Moves p ndebug sh fr .next sh' fr' o := by
  cases fr with
  | idle => cases h
  | locking mb =>
    simp only [Frame.next, Option.ite_none_right_eq_some] at h
    obtain ⟨hfree, ⟨⟩⟩ := h
    exact .enters rfl rfl hfree
  | creating mb =>
    cases h
    refine .stays rfl rfl rfl (fun _ _ h => h) (.inl ?_) trivial (by simp)
    cases hseg : sh.segment <;> simp [Shared.size, hseg]
  | sizing mb =>
    simp only [Frame.next] at h
    split at h
    case isTrue hzero =>
      cases h
      exact .goes rfl hzero
    case isFalse hpos =>
      split at h
      case isTrue => exact .fatal h fun hloose => .goes rfl (.inr ⟨hloose, hpos⟩)
      case isFalse hsame =>
        cases h
        exact .goes rfl (.inl (not_not.mp hsame))
  | truncating mb =>
    cases h
    exact .stays rfl rfl rfl (fun _ _ h => h) (.inr ⟨rfl, hok⟩) (.inl rfl) (by simp)
  | checking mb =>
    simp only [Frame.next] at h
    split at h
    · exact .fatal h fun _ => .goes rfl hok
    · cases h
      exact .goes rfl hok
  | mapping mb =>
    simp only [Frame.next] at h
    split at h
    case isTrue =>
      cases h
      exact .ends rfl trivial
    case isFalse hpos =>
      cases h
      refine .goes rfl ⟨rfl, hpos, fun hstrict => ?_⟩
      rcases hok with heq | ⟨hloose, -⟩
      · exact heq
      · rw [hloose] at hstrict
        cases hstrict
  | unlocking mb n =>
    cases h
    exact .ends rfl hok
  | readOpening =>
    simp only [Frame.next] at h
    split at h
    · cases h
      exact .answers rfl trivial
    · cases h
      exact .goes rfl trivial
  | readSizing =>
    simp only [Frame.next] at h
    split at h
    case isTrue =>
      cases h
      exact .answers rfl trivial
    case isFalse hpos =>
      cases h
      exact .goes rfl hpos
  | readMapping =>
    simp only [Frame.next, if_neg hok] at h
    cases h
    exact .answers rfl ⟨rfl, hok⟩
  | exiting locked =>
    cases h
    exact .exits

theorem Frame.fail_moves (hok : fr.Ok (sh.strict p ndebug) sh.size)
    (hsized : fr.isSizing = true → sh.size = 0)
    (h : fr.fail p ndebug sh = some (sh', fr', o)) : Moves p ndebug sh fr .fail sh' fr' o := by
  cases fr with
  | idle | exiting => cases h
  | locking =>
    cases h
    exact .closes rfl rfl
  | truncating | mapping | unlocking =>
    cases h
    exact .ends rfl trivial
  | creating => exact .fatal h fun _ => .exits
  | sizing =>
    cases h
    exact .goes rfl (hsized rfl)
  | checking =>
    simp only [Frame.fail] at h
    split at h
    · exact .fatal h fun _ => .goes rfl hok
    · cases h
      exact .goes rfl hok
  | readOpening | readSizing | readMapping =>
    cases h
    exact .answers rfl trivial

theorem step_live {Q : Parties Tid Pid} (h : step Q t sh fr act = some r) :
    sh.ended (Q.process t) = false := by
  by_contra hdead
  simp [step, hdead] at h

theorem step_moves {Q : Parties Tid Pid}
    (hok : fr.Ok (sh.strict (Q.process t) (Q.ndebug (Q.process t))) sh.size)
    (hsized : act = .fail → fr.isSizing = true → sh.size = 0)
    (h : step Q t sh fr act = some (sh', fr', o)) :
    Moves (Q.process t) (Q.ndebug (Q.process t)) sh fr act sh' fr' o := by
  have hlive := step_live h
  simp only [step, hlive, Bool.false_eq_true, if_false] at h
  cases act with
  | write mb =>
    simp only [Option.ite_none_left_eq_some, not_not] at h
    obtain ⟨rfl, h⟩ := h
    split at h
    · exact .fatal h fun _ => .goes rfl trivial
    · cases h
      exact .goes rfl trivial
  | read =>
    simp only [Option.ite_none_left_eq_some, not_not] at h
    obtain ⟨rfl, ⟨⟩⟩ := h
    exact .goes rfl trivial
  | next => exact Frame.next_moves hok h
  | fail => exact Frame.fail_moves hok (hsized rfl) h
  | kill =>
    cases h
    exact .exits

theorem Moves.size_eq (h : Moves p ndebug sh fr act sh' fr' o) (hpos : sh.size ≠ 0) :
    sh'.size = sh.size := by
  cases h with
  | stays _ _ _ _ hsize => exact hsize.resolve_right fun hzero => hpos hzero.2
  | enters => rfl
  | closes | leaves => simp
  | exits => simp

end

end CppUtil.Lockfree.Processes

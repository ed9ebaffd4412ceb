import CppUtil.Lang.Numeric

/-!
# `ReadWriteSharedMemory`

A named segment that the first writer gives its size, and that every later
writer takes as it is or refuses. The size in bytes is made by a shift of 32
bits, so it is right only below 4096 MB (`opens_as_wanted_iff`).

Whether the file lock can be had and the calls of boost succeed are inputs. Log
output is left out, but for its ending the process.
-/

namespace CppUtil.Lockfree

open Lang (Str)

@[ext] structure Segment where
  size : Nat
  size_lt : size < 2 ^ 63
  deriving DecidableEq

namespace ReadWriteSharedMemory

structure OpenInput where
  locks : Bool
  opens : Bool
  truncates : Bool
  maps : Bool

inductive Outcome
  /-- A FATAL log or a failed `CHECK` ends the process. -/
  | fatal
  /-- An exception leaves the constructor. -/
  | thrown
  | opened (mappedSize : Nat)
  deriving DecidableEq

def desiredSizeBytes (sharedMemorySizeMb : UInt32) : Nat := (sharedMemorySizeMb <<< 20).toNat

def truncate (sharedMemorySizeMb : UInt32) : Segment where
  size := desiredSizeBytes sharedMemorySizeMb
  size_lt := Nat.lt_trans (UInt32.toNat_lt _) (by decide)

@[simp]
theorem truncate_size (mb : UInt32) : (truncate mb).size = desiredSizeBytes mb := rfl

/-- On the segment there is when it is opened, of size 0 if it is new. A segment
of size 0 cannot be mapped. -/
def openSharedMemory (x : OpenInput) (sharedMemorySizeMb : UInt32) (segment : Segment) :
    Outcome × Segment :=
  let desired := desiredSizeBytes sharedMemorySizeMb
  if !x.locks then (.thrown, segment)
  else if !x.opens then (.fatal, segment)
  else if segment.size ≠ 0 ∧ segment.size ≠ desired then (.fatal, segment)
  else if segment.size = 0 ∧ !x.truncates then (.thrown, segment)
  else
    let segment := if segment.size = 0 then truncate sharedMemorySizeMb else segment
    if segment.size ≠ desired then (.fatal, segment)
    else if x.maps ∧ segment.size ≠ 0 then (.opened segment.size, segment)
    else (.thrown, segment)

def new (x : OpenInput) (sharedMemoryKey : Str) (sharedMemorySizeMb : UInt32) (segment : Segment) :
    Outcome × Segment :=
  if sharedMemoryKey = [] then (.fatal, segment)
  else if sharedMemorySizeMb > 0 then openSharedMemory x sharedMemorySizeMb segment
  else (.fatal, segment)

-- ---------------------------------------------------------------------------
-- Sizes
-- ---------------------------------------------------------------------------

theorem desiredSizeBytes_eq (mb : UInt32) : desiredSizeBytes mb = mb.toNat % 4096 * 2 ^ 20 := by
  rw [desiredSizeBytes, UInt32.toNat_shiftLeft]
  simp only [UInt32.reduceToNat, Nat.reduceMod, Nat.shiftLeft_eq]
  omega

theorem desiredSizeBytes_eq_iff {mb : UInt32} :
    desiredSizeBytes mb = mb.toNat * 2 ^ 20 ↔ mb.toNat < 4096 := by
  rw [desiredSizeBytes_eq]
  omega

-- ---------------------------------------------------------------------------
-- Writers
-- ---------------------------------------------------------------------------

variable {segment : Segment}

/-- A segment that is not refused has the desired size in the end, and the last
`CHECK` does not fail. -/
theorem openSharedMemory_eq (x : OpenInput) (mb : UInt32) (segment : Segment) :
    openSharedMemory x mb segment =
      if !x.locks then (.thrown, segment)
      else if !x.opens then (.fatal, segment)
      else if segment.size ≠ 0 ∧ segment.size ≠ desiredSizeBytes mb then (.fatal, segment)
      else if segment.size = 0 ∧ !x.truncates then (.thrown, segment)
      else (if x.maps ∧ desiredSizeBytes mb ≠ 0 then .opened (desiredSizeBytes mb) else .thrown,
        truncate mb) := by
  rw [openSharedMemory]
  split
  case isTrue => rfl
  split
  case isTrue => rfl
  split
  case isTrue => rfl
  case isFalse hsize =>
  split
  case isTrue => rfl
  have hseg : (if segment.size = 0 then truncate mb else segment) = truncate mb := by
    split
    case isTrue => rfl
    case isFalse hne =>
      by_contra hother
      exact hsize ⟨hne, fun heq => hother (Segment.ext heq)⟩
  simp only [hseg, truncate_size, ne_eq, not_true_eq_false, if_false]
  split <;> rfl

def writers (sharedMemoryKey : Str) :
    List (OpenInput × UInt32) → Segment → List Outcome × Segment
  | [], segment => ([], segment)
  | (x, mb) :: calls, segment =>
    let (outcome, segment) := new x sharedMemoryKey mb segment
    let (outcomes, segment) := writers sharedMemoryKey calls segment
    (outcome :: outcomes, segment)

theorem new_keeps (hsize : segment.size ≠ 0) (x : OpenInput) (key : Str) (mb : UInt32) :
    (new x key mb segment).2 = segment ∧
      ∀ n, (new x key mb segment).1 = .opened n → n = segment.size := by
  rw [new, openSharedMemory_eq]
  split
  case isTrue => simp
  split
  case isFalse => simp
  split
  case isTrue => simp
  split
  case isTrue => simp
  split
  case isTrue => simp
  case isFalse hsame =>
  have hseg : truncate mb = segment := by
    by_contra hother
    exact hsame ⟨hsize, fun heq => hother (Segment.ext heq.symm)⟩
  split
  case isTrue hno => exact absurd hno.1 hsize
  refine ⟨hseg, fun n hn => ?_⟩
  split at hn
  · rw [← Outcome.opened.inj hn, ← hseg, truncate_size]
  · exact absurd hn Outcome.noConfusion

theorem writers_keep (hsize : segment.size ≠ 0) (key : Str) (calls : List (OpenInput × UInt32)) :
    (writers key calls segment).2 = segment ∧
      ∀ n, .opened n ∈ (writers key calls segment).1 → n = segment.size := by
  induction calls with
  | nil => simp [writers]
  | cons call calls ih =>
    obtain ⟨hkeep, hmapped⟩ := new_keeps hsize call.1 key call.2
    simp only [writers, hkeep]
    refine ⟨ih.1, fun n hn => ?_⟩
    rcases List.mem_cons.mp hn with hn | hn
    · exact hmapped n hn.symm
    · exact ih.2 n hn

def OpenInput.Succeeds (x : OpenInput) : Prop :=
  x.locks = true ∧ x.opens = true ∧ x.truncates = true ∧ x.maps = true

/-- A segment of another size is refused and left alone; any other one has the
size that was asked for in the end, and so has the mapping. -/
def AsWanted (mb : UInt32) (segment : Segment) (r : Outcome × Segment) : Prop :=
  (r = (.fatal, segment) ∧ segment.size ≠ 0 ∧ segment.size ≠ mb.toNat * 2 ^ 20) ∨
    (r.1 = .opened (mb.toNat * 2 ^ 20) ∧ r.2.size = mb.toNat * 2 ^ 20)

theorem new_succeeds (hkey : key ≠ []) (hmb : 0 < mb) (hx : x.Succeeds) (segment : Segment) :
    new x key mb segment =
      if segment.size ≠ 0 ∧ segment.size ≠ desiredSizeBytes mb then (.fatal, segment)
      else (if desiredSizeBytes mb ≠ 0 then .opened (desiredSizeBytes mb) else .thrown,
        truncate mb) := by
  obtain ⟨hlocks, hopens, htruncates, hmaps⟩ := hx
  simp only [new, if_neg hkey, gt_iff_lt, if_pos hmb, openSharedMemory_eq, hlocks, hopens,
    htruncates, hmaps, Bool.not_true, Bool.false_eq_true, if_false, and_false, true_and]

/-- `OpenSharedMemory` does what is wanted below 4096 MB, and above only where it
refuses a segment of yet another size. -/
theorem opens_as_wanted_iff (hkey : key ≠ []) (hmb : 0 < mb) (hx : x.Succeeds) :
    (∀ segment, AsWanted mb segment (new x key mb segment) ↔
      mb.toNat < 4096 ∨ (segment.size ≠ 0 ∧ segment.size ≠ mb.toNat % 4096 * 2 ^ 20 ∧
        segment.size ≠ mb.toNat * 2 ^ 20)) ∧
    ((∀ segment, AsWanted mb segment (new x key mb segment)) ↔ mb.toNat < 4096) := by
  have hpos : 0 < mb.toNat := UInt32.lt_iff_toNat_lt.mp hmb
  have hall : ∀ segment, AsWanted mb segment (new x key mb segment) ↔
      mb.toNat < 4096 ∨ (segment.size ≠ 0 ∧ segment.size ≠ mb.toNat % 4096 * 2 ^ 20 ∧
        segment.size ≠ mb.toNat * 2 ^ 20) := by
    intro segment
    rw [new_succeeds hkey hmb hx, AsWanted, ← desiredSizeBytes_eq]
    by_cases hrefused : segment.size ≠ 0 ∧ segment.size ≠ desiredSizeBytes mb
    · simp only [if_pos hrefused, reduceCtorEq, false_and, or_false, true_and]
      refine ⟨fun h => .inr ⟨h.1, hrefused.2, h.2⟩, ?_⟩
      rintro (hlt | ⟨hne, -, hother⟩)
      · exact desiredSizeBytes_eq_iff.mpr hlt ▸ hrefused
      · exact ⟨hne, hother⟩
    · rw [if_neg hrefused]
      constructor
      · rintro (⟨heq, -⟩ | ⟨-, hsize⟩)
        · have hfatal := congrArg Prod.fst heq
          split at hfatal <;> cases hfatal
        · exact .inl (desiredSizeBytes_eq_iff.mp hsize)
      · rintro (hlt | ⟨hne, hother, -⟩)
        · have hsize := desiredSizeBytes_eq_iff.mpr hlt
          have hmapped : desiredSizeBytes mb ≠ 0 := by omega
          exact .inr ⟨by rw [if_pos hmapped, hsize], hsize⟩
        · exact absurd ⟨hne, hother⟩ hrefused
  refine ⟨hall, fun h => ?_, fun hlt segment => (hall segment).mpr (.inl hlt)⟩
  -- a new segment
  have hnew := (hall ⟨0, by decide⟩).mp (h ⟨0, by decide⟩)
  simpa using hnew

def succeeding : OpenInput := ⟨true, true, true, true⟩

theorem opens_as_wanted_three :
    new succeeding "key".toList 3 ⟨0, by decide⟩ = (.opened 3145728, truncate 3) ∧
      AsWanted 3 ⟨0, by decide⟩ (new succeeding "key".toList 3 ⟨0, by decide⟩) :=
  ⟨by decide,
    (opens_as_wanted_iff (by decide) (by decide) ⟨rfl, rfl, rfl, rfl⟩).2.mpr (by decide) _⟩

/-- With 4097 MB a new segment gets 1 MB, and one of 4097 MB is refused. -/
theorem opens_not_as_wanted :
    new succeeding "key".toList 4097 ⟨0, by decide⟩ = (.opened 1048576, truncate 1) ∧
      ¬AsWanted 4097 ⟨0, by decide⟩ (new succeeding "key".toList 4097 ⟨0, by decide⟩) ∧
    new succeeding "key".toList 4097 ⟨4296015872, by decide⟩ =
      (.fatal, ⟨4296015872, by decide⟩) := by
  refine ⟨by decide, ?_, by decide⟩
  unfold AsWanted
  decide

end ReadWriteSharedMemory

end CppUtil.Lockfree

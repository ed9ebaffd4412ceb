import Mathlib.Algebra.Group.Nat.Defs
import Mathlib.Data.Option.Basic

/-!
# `ReadOnlySharedMemory`

A reader of memory that other processes create, resize and write. The memory is
opened when it is first needed, and again after a node that is not inside it.
What a node says of its place is checked with a sum of 64 bits, which may wrap
around: then `Read` leaves the region (`checked_inside_iff`).

Whether the memory can be opened and mapped, the clock, and whether the memory
for a copy can be had are inputs. Log output is left out.
-/

namespace CppUtil.Lockfree

structure NodeInfo where
  offset : UInt64 := 0
  length : UInt64 := 0
  expiredTimestampNs : UInt64 := 0
  deriving DecidableEq

structure MappedRegion where
  bytes : List UInt8
  size_lt : bytes.length < 2 ^ 64

def MappedRegion.getSize (region : MappedRegion) : UInt64 := .ofNat region.bytes.length

@[simp]
theorem MappedRegion.toNat_getSize (region : MappedRegion) :
    region.getSize.toNat = region.bytes.length :=
  UInt64.toNat_ofNat_of_lt' region.size_lt

inductive Opening
  /-- The `shared_memory_object` cannot be opened. -/
  | missing
  /-- Its size, and the region, unless it cannot be mapped. -/
  | opened (currentSizeBytes : Int64) (region : Option MappedRegion)

def Opening.region : Opening → Option MappedRegion
  | .missing => none
  | .opened currentSizeBytes region => if currentSizeBytes = 0 then none else region

structure ReadInput where
  opening : Opening
  timestampNanoSec : UInt64
  /-- `assign` gets the memory it needs. -/
  allocates : Bool

/-- An object says of itself that it is available only if it has a region. -/
structure ReadOnlySharedMemory where
  isAvailable_ : Bool
  mappedRegion_ : Option MappedRegion
  mapped : isAvailable_ = true → mappedRegion_.isSome = true

namespace ReadOnlySharedMemory

def unavailable (m : ReadOnlySharedMemory) : ReadOnlySharedMemory :=
  ⟨false, m.mappedRegion_, by simp⟩

def openSharedMemory (opening : Opening) (m : ReadOnlySharedMemory) : Option ReadOnlySharedMemory :=
  match opening with
  | .missing => some m.unavailable
  | .opened currentSizeBytes region =>
    if currentSizeBytes = 0 then some m.unavailable
    -- no object where the mapping throws
    else region.map fun region => ⟨true, some region, fun _ => rfl⟩

def unopened : ReadOnlySharedMemory := ⟨false, none, by simp⟩

def new (opening : Opening) : Option ReadOnlySharedMemory := openSharedMemory opening unopened

def reopened (opening : Opening) (m : ReadOnlySharedMemory) : Option ReadOnlySharedMemory :=
  if m.isAvailable_ then some m else m.openSharedMemory opening

/-- Nothing if an exception leaves it; the object is as before then. -/
def checkIfAvailable (x : ReadInput) (node : NodeInfo) (m : ReadOnlySharedMemory) :
    Option (Bool × ReadOnlySharedMemory) := do
  let m ← m.reopened x.opening
  if h : m.isAvailable_ = true then
    if x.timestampNanoSec > node.expiredTimestampNs then some (false, m)
    else if node.offset + node.length > ((m.mappedRegion_).get (m.mapped h)).getSize then
      some (false, m.unavailable)
    else some (true, m)
  else some (false, m)

/-- The bytes from an address on, relative to that of the region. Nothing if one
of them is outside of it. -/
def copyBytes (region : MappedRegion) : (length : Nat) → (address : UInt64) → Option (List UInt8)
  | 0, _ => some []
  | length + 1, address => do
    let byte ← region.bytes[address.toNat]?
    let rest ← copyBytes region length (address + 1)
    some (byte :: rest)

inductive Outcome
  | returned (ok : Bool) (data : List UInt8)
  | thrown (data : List UInt8)
  /-- Bytes outside of the region are read. -/
  | outside
  deriving DecidableEq

def readAs (result : Bool) (x : ReadInput) (node : NodeInfo) (data : List UInt8)
    (m : ReadOnlySharedMemory) : Outcome × ReadOnlySharedMemory :=
  match m.checkIfAvailable x node with
  | none => (.thrown data, m)
  | some (false, m) => (.returned false data, m)
  | some (true, m) =>
    -- The data is cleared before it is assigned.
    if x.allocates then
      match m.mappedRegion_.bind fun region => copyBytes region node.length.toNat node.offset with
      | some bytes => (.returned result bytes, m)
      | none => (.outside, m)
    else (.thrown [], m)

/-- `Read` into a vector, which returns false in any case. -/
def readVector := readAs false

def readString := readAs true

-- ---------------------------------------------------------------------------
-- What is copied
-- ---------------------------------------------------------------------------

theorem next_toNat {address : UInt64} (h : address.toNat + 1 < 2 ^ 64) :
    (address + 1).toNat = address.toNat + 1 := by
  simpa only [UInt64.toNat_add, UInt64.reduceToNat] using Nat.mod_eq_of_lt h

theorem copyBytes_inside {region : MappedRegion} {length : Nat} {address : UInt64}
    (h : address.toNat + length ≤ region.bytes.length) :
    copyBytes region length address = some ((region.bytes.drop address.toNat).take length) := by
  induction length generalizing address with
  | zero => rfl
  | succ length ih =>
    have hlt : address.toNat < region.bytes.length := by omega
    have hsize := region.size_lt
    have hnext : (address + 1).toNat = address.toNat + 1 := next_toNat (by omega)
    have hrest := @ih (address + 1) (by omega)
    simp only [copyBytes, List.getElem?_eq_getElem hlt, hrest, hnext, Option.bind_eq_bind,
      Option.bind_some, List.drop_eq_getElem_cons hlt, List.take_succ_cons]

/-- A copy that wraps around gets to the last address, which is before the region. -/
theorem copyBytes_wraps (region : MappedRegion) {length : Nat} {address : UInt64}
    (h : 2 ^ 64 ≤ address.toNat + length) : copyBytes region length address = none := by
  have hsize := region.size_lt
  have hlt := address.toNat_lt
  induction length generalizing address with
  | zero => omega
  | succ length ih =>
    rcases Nat.lt_or_ge (address.toNat + 1) (2 ^ 64) with hnext | hlast
    · have hrest := @ih (address + 1) (by rw [next_toNat hnext]; omega) (address + 1).toNat_lt
      simp only [copyBytes, hrest, Option.bind_eq_bind, Option.bind_none, Option.bind_fun_none]
    · have hnone : region.bytes[address.toNat]? = none := List.getElem?_eq_none (by omega)
      simp only [copyBytes, hnone, Option.bind_eq_bind, Option.bind_none]

-- ---------------------------------------------------------------------------
-- What is checked
-- ---------------------------------------------------------------------------

theorem checkIfAvailable_true {x : ReadInput} {node : NodeInfo} {m m' : ReadOnlySharedMemory}
    (h : m.checkIfAvailable x node = some (true, m')) :
    ∃ region, m'.mappedRegion_ = some region ∧
      (node.offset.toNat + node.length.toNat) % 2 ^ 64 ≤ region.bytes.length := by
  simp only [checkIfAvailable, Option.bind_eq_bind, Option.bind_eq_some_iff] at h
  obtain ⟨opened, -, h⟩ := h
  split at h
  case isFalse => simp at h
  case isTrue hav =>
    split at h
    case isTrue => simp at h
    case isFalse =>
      split at h
      case isTrue => simp at h
      case isFalse hplace =>
        obtain ⟨-, rfl⟩ := Prod.mk.inj (Option.some.inj h)
        refine ⟨opened.mappedRegion_.get (opened.mapped hav), (Option.some_get _).symm, ?_⟩
        simpa only [gt_iff_lt, UInt64.not_lt, UInt64.le_iff_toNat_le, UInt64.toNat_add,
          MappedRegion.toNat_getSize] using hplace

theorem fits_iff {node : NodeInfo} {region : MappedRegion}
    (h : (node.offset.toNat + node.length.toNat) % 2 ^ 64 ≤ region.bytes.length) :
    node.offset.toNat + node.length.toNat ≤ region.bytes.length ↔
      node.offset.toNat + node.length.toNat < 2 ^ 64 := by
  have hsize := region.size_lt
  omega

-- ---------------------------------------------------------------------------
-- What is read
-- ---------------------------------------------------------------------------

/-- What a `Read` can do: what it returns, for each of the overloads, and the
object it leaves. -/
inductive Reads (x : ReadInput) (node : NodeInfo) (data : List UInt8) (m : ReadOnlySharedMemory) :
    (Bool → Outcome) → ReadOnlySharedMemory → Prop
  | unmapped (hcheck : m.checkIfAvailable x node = none) :
      Reads x node data m (fun _ => .thrown data) m
  | refused (hcheck : m.checkIfAvailable x node = some (false, m')) :
      Reads x node data m (fun _ => .returned false data) m'
  | unallocated (hcheck : m.checkIfAvailable x node = some (true, m')) (halloc : ¬x.allocates) :
      Reads x node data m (fun _ => .thrown []) m'
  | copied (hcheck : m.checkIfAvailable x node = some (true, m')) (halloc : x.allocates)
      (hregion : m'.mappedRegion_ = some region)
      (hfits : node.offset.toNat + node.length.toNat ≤ region.bytes.length) :
      Reads x node data m (fun result =>
        .returned result ((region.bytes.drop node.offset.toNat).take node.length.toNat)) m'
  | outside (hcheck : m.checkIfAvailable x node = some (true, m')) (halloc : x.allocates)
      (hwraps : 2 ^ 64 ≤ node.offset.toNat + node.length.toNat) :
      Reads x node data m (fun _ => .outside) m'

theorem readAs_reads (x : ReadInput) (node : NodeInfo) (data : List UInt8)
    (m : ReadOnlySharedMemory) :
    ∃ outcome m', Reads x node data m outcome m' ∧
      ∀ result, readAs result x node data m = (outcome result, m') := by
  cases hcheck : m.checkIfAvailable x node with
  | none => exact ⟨_, m, .unmapped hcheck, fun result => by simp only [readAs, hcheck]⟩
  | some checked =>
    obtain ⟨ok, m'⟩ := checked
    cases ok with
    | false => exact ⟨_, m', .refused hcheck, fun result => by simp only [readAs, hcheck]⟩
    | true =>
      by_cases halloc : x.allocates = true
      case neg =>
        exact ⟨_, m', .unallocated hcheck halloc, fun result => by
          simp only [readAs, hcheck, if_neg halloc]⟩
      obtain ⟨region, hregion, hplace⟩ := checkIfAvailable_true hcheck
      rcases Nat.lt_or_ge (node.offset.toNat + node.length.toNat) (2 ^ 64) with hlt | hwraps
      · have hfits := (fits_iff hplace).mpr hlt
        exact ⟨_, m', .copied hcheck halloc hregion hfits, fun result => by
          simp only [readAs, hcheck, if_pos halloc, hregion, Option.bind_some,
            copyBytes_inside hfits]⟩
      · exact ⟨_, m', .outside hcheck halloc hwraps, fun result => by
          simp only [readAs, hcheck, if_pos halloc, hregion, Option.bind_some,
            copyBytes_wraps region hwraps]⟩

structure ReadCall where
  /-- What `Read` returns at the end, by which its overloads differ. -/
  result : Bool
  input : ReadInput
  node : NodeInfo
  data : List UInt8 := []

def reads : List ReadCall → ReadOnlySharedMemory → List Outcome × ReadOnlySharedMemory
  | [], m => ([], m)
  | call :: calls, m =>
    let (outcome, m) := readAs call.result call.input call.node call.data m
    let (outcomes, m) := reads calls m
    (outcome :: outcomes, m)

theorem reads_inside {calls : List ReadCall}
    (h : ∀ call ∈ calls, call.node.offset.toNat + call.node.length.toNat < 2 ^ 64)
    (m : ReadOnlySharedMemory) : .outside ∉ (reads calls m).1 := by
  induction calls generalizing m with
  | nil => simp [reads]
  | cons call calls ih =>
    obtain ⟨hcall, hcalls⟩ := List.forall_mem_cons.mp h
    simp only [reads, List.mem_cons, not_or]
    refine ⟨?_, ih hcalls _⟩
    obtain ⟨outcome, m', hreads, hread⟩ := readAs_reads call.input call.node call.data m
    rw [hread]
    cases hreads with
    | unmapped | refused | unallocated | copied => simp
    | outside _ _ hwraps => omega

/-- A checked node is inside of the region, and both overloads copy its bytes,
iff its sum does not wrap around; they leave the region otherwise. -/
theorem checked_inside_iff {x : ReadInput} {node : NodeInfo} {m m' : ReadOnlySharedMemory}
    (h : m.checkIfAvailable x node = some (true, m')) :
    ∃ region, m'.mappedRegion_ = some region ∧
      (node.offset.toNat + node.length.toNat ≤ region.bytes.length ↔
        node.offset.toNat + node.length.toNat < 2 ^ 64) ∧
      ∀ data, x.allocates = true →
        let bytes := (region.bytes.drop node.offset.toNat).take node.length.toNat
        (node.offset.toNat + node.length.toNat < 2 ^ 64 →
          readVector x node data m = (.returned false bytes, m') ∧
            readString x node data m = (.returned true bytes, m')) ∧
        (2 ^ 64 ≤ node.offset.toNat + node.length.toNat →
          (readVector x node data m).1 = .outside ∧ (readString x node data m).1 = .outside) := by
  obtain ⟨region, hregion, hplace⟩ := checkIfAvailable_true h
  refine ⟨region, hregion, fits_iff hplace, fun data halloc => ?_⟩
  obtain ⟨outcome, _, hreads, hread⟩ := readAs_reads x node data m
  rw [readVector, readString, hread, hread]
  cases hreads with
  | unmapped hcheck | refused hcheck => cases hcheck.symm.trans h
  | unallocated _ hno => exact absurd halloc hno
  | copied hcheck _ hregion' hfits =>
    cases hcheck.symm.trans h
    cases hregion'.symm.trans hregion
    refine ⟨fun _ => ⟨rfl, rfl⟩, fun hwraps => ?_⟩
    exact absurd ((fits_iff hplace).mp hfits) (Nat.not_lt.mpr hwraps)
  | outside _ _ hwraps => exact ⟨fun hlt => absurd hlt (Nat.not_lt.mpr hwraps), fun _ => ⟨rfl, rfl⟩⟩

def sixteenBytes : MappedRegion := ⟨(List.range 16).map .ofNat, by decide⟩

def sixteenInput : ReadInput := ⟨.opened 16 (some sixteenBytes), 0, true⟩

theorem checked_inside_sixteen : ∃ m',
    unopened.checkIfAvailable sixteenInput ⟨12, 4, 0⟩ = some (true, m') ∧
      readString sixteenInput ⟨12, 4, 0⟩ [] unopened = (.returned true [12, 13, 14, 15], m') := by
  have hcheck : unopened.checkIfAvailable sixteenInput ⟨12, 4, 0⟩ =
      some (true, ⟨true, some sixteenBytes, fun _ => rfl⟩) := rfl
  obtain ⟨region, hregion, -, hread⟩ := checked_inside_iff hcheck
  cases Option.some.inj hregion
  exact ⟨_, hcheck, ((hread [] rfl).1 (by decide)).2⟩

theorem checked_outside_sixteen :
    let node : NodeInfo := { offset := 0xffffffffffffffff, length := 2 }
    (unopened.checkIfAvailable sixteenInput node).map Prod.fst = some true ∧
      ¬ node.offset.toNat + node.length.toNat ≤ sixteenBytes.bytes.length ∧
      (readVector sixteenInput node [] unopened).1 = .outside ∧
      (readString sixteenInput node [] unopened).1 = .outside := by
  decide +kernel

-- ---------------------------------------------------------------------------
-- The overloads
-- ---------------------------------------------------------------------------

def Outcome.asVector : Outcome → Outcome
  | .returned _ data => .returned false data
  | .thrown data => .thrown data
  | .outside => .outside

theorem readAs_false (x : ReadInput) (node : NodeInfo) (data : List UInt8)
    (m : ReadOnlySharedMemory) :
    readAs false x node data m =
      ((readAs true x node data m).1.asVector, (readAs true x node data m).2) := by
  obtain ⟨outcome, m', hreads, hread⟩ := readAs_reads x node data m
  rw [hread, hread]
  cases hreads <;> rfl

theorem readAs_success {x : ReadInput} {node : NodeInfo} {data bytes : List UInt8}
    {m : ReadOnlySharedMemory} (h : (readAs true x node data m).1 = .returned true bytes) :
    ∃ region, (readAs true x node data m).2.mappedRegion_ = some region ∧
      node.offset.toNat + node.length.toNat ≤ region.bytes.length ∧
      bytes = (region.bytes.drop node.offset.toNat).take node.length.toNat := by
  obtain ⟨outcome, m', hreads, hread⟩ := readAs_reads x node data m
  rw [hread] at h ⊢
  cases hreads with
  | unmapped | refused | unallocated | outside => cases h
  | copied _ _ hregion hfits =>
    cases h
    exact ⟨_, hregion, hfits, rfl⟩

def ReadCall.into (result : Bool) (call : ReadCall) : ReadCall := { call with result }

theorem reads_vectors (calls : List ReadCall) (m : ReadOnlySharedMemory) :
    reads (calls.map (·.into false)) m =
      ((reads (calls.map (·.into true)) m).1.map Outcome.asVector,
        (reads (calls.map (·.into true)) m).2) := by
  induction calls generalizing m with
  | nil => rfl
  | cons call calls ih =>
    simp only [List.map_cons, reads, ReadCall.into] at ih ⊢
    rw [readAs_false, ih]

theorem reads_success {calls : List ReadCall} {m : ReadOnlySharedMemory} {bytes : List UInt8}
    (h : (reads (calls.map (·.into true)) m).1[i]? = some (.returned true bytes)) :
    ∃ call region, calls[i]? = some call ∧
      (reads ((calls.take (i + 1)).map (·.into true)) m).2.mappedRegion_ = some region ∧
      call.node.offset.toNat + call.node.length.toNat ≤ region.bytes.length ∧
      bytes = (region.bytes.drop call.node.offset.toNat).take call.node.length.toNat := by
  induction calls generalizing m i with
  | nil => cases h
  | cons call calls ih =>
    cases i with
    | zero =>
      obtain ⟨region, hregion⟩ := readAs_success (Option.some.inj h)
      exact ⟨call, region, rfl, hregion⟩
    | succ i => exact ih h

-- ---------------------------------------------------------------------------
-- Which reads get to their copy
-- ---------------------------------------------------------------------------

def available (m : ReadOnlySharedMemory) : Option MappedRegion :=
  if m.isAvailable_ then m.mappedRegion_ else none

def ReadCall.region (call : ReadCall) (before : Option MappedRegion) : Option MappedRegion :=
  before.or call.input.opening.region

def ReadCall.Passes (call : ReadCall) (region : MappedRegion) : Prop :=
  call.input.timestampNanoSec ≤ call.node.expiredTimestampNs ∧
    call.node.offset + call.node.length ≤ region.getSize

/-- The region behind a read: it is given up for a node that is outside. -/
def ReadCall.leaves (call : ReadCall) (before : Option MappedRegion) : Option MappedRegion :=
  (call.region before).filter fun region =>
    call.input.timestampNanoSec > call.node.expiredTimestampNs ||
      call.node.offset + call.node.length ≤ region.getSize

theorem available_unavailable (m : ReadOnlySharedMemory) : m.unavailable.available = none := rfl

theorem available_eq {m : ReadOnlySharedMemory} (h : m.isAvailable_ = true) :
    m.available = some (m.mappedRegion_.get (m.mapped h)) := by
  rw [available, if_pos h, Option.some_get]

theorem reopened_available (opening : Opening) (m : ReadOnlySharedMemory) :
    match m.reopened opening with
    | some m' => m'.available = m.available.or opening.region
    | none => m.available.or opening.region = none ∧ m.available = none := by
  unfold reopened
  by_cases hav : m.isAvailable_ = true
  · have hregion := available_eq hav
    simp only [if_pos hav, hregion, Option.some_or]
  · have hnone : m.available = none := by simp [available, hav]
    simp only [hav, hnone, openSharedMemory, Opening.region]
    cases opening with
    | missing => rfl
    | opened currentSizeBytes region =>
      by_cases hzero : currentSizeBytes = 0
      · simp [hzero, available_unavailable]
      · cases region <;> simp [hzero, available]

theorem checkIfAvailable_region (call : ReadCall) (m : ReadOnlySharedMemory) :
    match m.checkIfAvailable call.input call.node with
    | some (true, m') => ∃ region, call.region m.available = some region ∧ call.Passes region ∧
        m'.available = call.leaves m.available
    | some (false, m') => (∀ region, call.region m.available = some region → ¬ call.Passes region) ∧
        m'.available = call.leaves m.available
    | none => call.region m.available = none ∧ m.available = none := by
  have hopen := reopened_available call.input.opening m
  unfold checkIfAvailable ReadCall.leaves ReadCall.Passes ReadCall.region
  cases hm : m.reopened call.input.opening with
  | none => simpa [hm] using hopen
  | some m₁ =>
    simp only [hm] at hopen
    rw [← hopen]
    by_cases hav : m₁.isAvailable_ = true
    · have hregion := available_eq hav
      simp only [Option.bind_eq_bind, Option.bind_some, dif_pos hav, hregion, Option.filter_some]
      generalize m₁.mappedRegion_.get (m₁.mapped hav) = region at hregion ⊢
      by_cases hexp : call.input.timestampNanoSec > call.node.expiredTimestampNs
      · simp [hexp, hregion, UInt64.not_le.mpr hexp]
      · rw [if_neg hexp]
        by_cases hplace : call.node.offset + call.node.length > region.getSize
        · simp [hplace, hexp, UInt64.not_le.mpr hplace, available_unavailable]
        · simp [hplace, hexp, hregion, UInt64.not_lt.mp hexp, UInt64.not_lt.mp hplace]
    · have hnone : m₁.available = none := by simp [available, hav]
      simp [hav, hnone]

theorem readAs_available (result : Bool) (call : ReadCall) (m : ReadOnlySharedMemory) :
    (readAs result call.input call.node call.data m).2.available = call.leaves m.available := by
  have hcheck := checkIfAvailable_region call m
  obtain ⟨outcome, m', hreads, hread⟩ := readAs_reads call.input call.node call.data m
  rw [hread]
  cases hreads with
  | unmapped h =>
    simp only [h] at hcheck
    rw [ReadCall.leaves, hcheck.1, hcheck.2, Option.filter_none]
  | refused h =>
    simp only [h] at hcheck
    exact hcheck.2
  | unallocated h | copied h | outside h =>
    simp only [h] at hcheck
    obtain ⟨_, -, -, hleaves⟩ := hcheck
    exact hleaves

theorem readAs_same_iff (call : ReadCall) (m : ReadOnlySharedMemory) :
    ((readAs true call.input call.node call.data m).1.asVector =
        (readAs true call.input call.node call.data m).1 ∧
      (readAs true call.input call.node call.data m).1 ≠ .outside) ↔
      ∀ region, call.region m.available = some region → call.Passes region →
        ¬ call.input.allocates := by
  have hcheck := checkIfAvailable_region call m
  obtain ⟨outcome, m', hreads, hread⟩ := readAs_reads call.input call.node call.data m
  rw [hread]
  cases hreads with
  | unmapped h =>
    simp only [h] at hcheck
    simp [Outcome.asVector, hcheck.1]
  | refused h =>
    simp only [h] at hcheck
    simpa [Outcome.asVector] using fun region hregion hpass => absurd hpass (hcheck.1 region hregion)
  | unallocated h halloc => simp [Outcome.asVector, halloc]
  | copied h halloc | outside h halloc =>
    simp only [h] at hcheck
    obtain ⟨region, hregion, hpass, -⟩ := hcheck
    simpa [Outcome.asVector, halloc] using ⟨region, hregion, hpass⟩

def leavesAll (calls : List ReadCall) (before : Option MappedRegion) : Option MappedRegion :=
  calls.foldl (fun before call => call.leaves before) before

theorem reads_same_iff (calls : List ReadCall) (m : ReadOnlySharedMemory) :
    (∀ o ∈ (reads (calls.map (·.into true)) m).1, o.asVector = o ∧ o ≠ .outside) ↔
      ∀ (i : Nat) (call : ReadCall) (region : MappedRegion), calls[i]? = some call →
        call.region (leavesAll (calls.take i) m.available) = some region →
        call.Passes region → ¬ call.input.allocates := by
  induction calls generalizing m with
  | nil => simp [reads]
  | cons call calls ih =>
    have hnext := readAs_available true call m
    simp only [List.map_cons, reads, ReadCall.into, List.forall_mem_cons] at ih ⊢
    rw [readAs_same_iff, ih, hnext]
    constructor
    · rintro ⟨hfirst, hrest⟩ i call' region hi
      cases i with
      | zero =>
        cases Option.some.inj hi
        exact hfirst region
      | succ i => exact hrest i call' region hi
    · intro h
      exact ⟨fun region => h 0 call region rfl, fun i call' region => h (i + 1) call' region⟩

/-- The two overloads leave the same object and deliver the same bytes, those
of the node. They return the same, without a byte from outside of the region,
exactly if no read gets to its copy: a vector is filled, and the result is false. -/
theorem overloads_agree_iff (calls : List ReadCall) (m : ReadOnlySharedMemory) :
    let strings := reads (calls.map (·.into true)) m
    let vectors := reads (calls.map (·.into false)) m
    vectors.2 = strings.2 ∧ vectors.1 = strings.1.map Outcome.asVector ∧
      (vectors.1 = strings.1 ∧ .outside ∉ strings.1 ↔
        ∀ (i : Nat) (call : ReadCall) (region : MappedRegion), calls[i]? = some call →
          call.region (leavesAll (calls.take i) m.available) = some region →
          call.Passes region → ¬ call.input.allocates) ∧
      ∀ i bytes, strings.1[i]? = some (.returned true bytes) →
        vectors.1[i]? = some (.returned false bytes) ∧
        ∃ call region, calls[i]? = some call ∧
          (reads ((calls.take (i + 1)).map (·.into true)) m).2.mappedRegion_ = some region ∧
          call.node.offset.toNat + call.node.length.toNat ≤ region.bytes.length ∧
          bytes = (region.bytes.drop call.node.offset.toNat).take call.node.length.toNat := by
  intro strings vectors
  have hvectors : vectors = (strings.1.map Outcome.asVector, strings.2) := reads_vectors calls m
  rw [hvectors]
  refine ⟨rfl, rfl, ?_, fun i bytes hi => ⟨?_, reads_success hi⟩⟩
  · have hself : strings.1.map Outcome.asVector = strings.1 ↔ ∀ o ∈ strings.1, o.asVector = o := by
      simpa using @List.map_inj_left _ _ strings.1 Outcome.asVector id
    rw [← reads_same_iff, hself]
    constructor
    · rintro ⟨hsame, hinside⟩ o ho
      exact ⟨hsame o ho, fun h => hinside (h ▸ ho)⟩
    · intro h
      exact ⟨fun o ho => (h o ho).1, fun hmem => (h _ hmem).2 rfl⟩
  · rw [List.getElem?_map, hi]
    rfl

/-- A read of the last four of sixteen bytes. -/
theorem overloads_disagree_sixteen :
    readString sixteenInput ⟨12, 4, 0⟩ [] unopened =
      (.returned true [12, 13, 14, 15], (readVector sixteenInput ⟨12, 4, 0⟩ [] unopened).2) ∧
    (readVector sixteenInput ⟨12, 4, 0⟩ [] unopened).1 = .returned false [12, 13, 14, 15] :=
  ⟨rfl, rfl⟩

end ReadOnlySharedMemory

end CppUtil.Lockfree

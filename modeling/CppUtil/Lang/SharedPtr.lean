import Mathlib.Logic.Function.Basic

/-!
# `std::shared_ptr`

A heap of counted objects. An address whose count drops to zero is free: its
object is gone and a later `make_shared` may use the address again, so two
pointers can be equal without ever having pointed to the same object.

`Heap.Counts H r` says that `r` is the number of references there are to each
address: the counts are right, and an object lives exactly as long as there
are references to it. Each operation has a lemma that says how `r` moves.
-/

namespace CppUtil.Lang

variable {A : Type*}

abbrev SharedPtr (A : Type*) := Option A

section

variable [DecidableEq A] {p : SharedPtr A} {a b : A}

def refs (p : SharedPtr A) (a : A) : Nat := if p = some a then 1 else 0

@[simp] theorem refs_none : refs (none : SharedPtr A) a = 0 := rfl
@[simp] theorem refs_self : refs (some a) a = 1 := if_pos rfl

theorem refs_pos_iff : 0 < refs p a ↔ p = some a := by
  unfold refs
  split <;> simp_all

theorem refs_of_ne (h : p ≠ some a) : refs p a = 0 := if_neg h

theorem count_cons_eq (l : List A) : (a :: l).count b = refs (some a) b + l.count b := by
  by_cases h : a = b
  · subst h
    rw [List.count_cons_self, refs_self, Nat.add_comm]
  · rw [List.count_cons_of_ne h, refs_of_ne (by simpa using h), Nat.zero_add]

theorem count_eq_erase {l : List A} (h : a ∈ l) :
    l.count b = refs (some a) b + (l.erase a).count b := by
  rw [← count_cons_eq]
  exact (List.perm_cons_erase h).count_eq b

theorem count_toList_append (p : SharedPtr A) (l : List A) :
    (p.toList ++ l).count b = refs p b + l.count b := by
  cases p with
  | none => simp
  | some a => exact count_cons_eq l

end

structure Heap (A T : Type*) where
  useCount : A → Nat
  value : A → Option T

namespace Heap

variable {T : Type*}

/-- What a pointer points to; nothing when it is null or dangling. -/
def read (H : Heap A T) (p : SharedPtr A) : Option T := p.bind H.value

@[simp] theorem read_some (H : Heap A T) (a : A) : H.read (some a) = H.value a := rfl

variable [DecidableEq A] {p : SharedPtr A} {a b : A}

def makeShared (H : Heap A T) (a : A) (v : T) : Heap A T where
  useCount := Function.update H.useCount a 1
  value := Function.update H.value a (some v)

def acquire (H : Heap A T) (p : SharedPtr A) : Heap A T :=
  { H with useCount := fun a => H.useCount a + refs p a }

/-- A pointer is destroyed, and the object with its last one. -/
def release (H : Heap A T) (p : SharedPtr A) : Heap A T where
  useCount := fun a => H.useCount a - refs p a
  value := fun a => if p = some a ∧ H.useCount a = 1 then none else H.value a

def modify (H : Heap A T) (a : A) (f : T → T) : Heap A T :=
  { H with value := Function.update H.value a ((H.value a).map f) }

@[simp] theorem value_acquire (H : Heap A T) : (H.acquire p).value = H.value := rfl

theorem value_release (H : Heap A T) (h : 0 < (H.release p).useCount a) :
    (H.release p).value a = H.value a := by
  apply if_neg
  rintro ⟨rfl, hu⟩
  simp [release, hu] at h

theorem value_makeShared_self (H : Heap A T) (v : T) : (H.makeShared a v).value a = some v :=
  Function.update_self ..

theorem value_makeShared_of_ne (H : Heap A T) (v : T) (h : b ≠ a) :
    (H.makeShared a v).value b = H.value b :=
  Function.update_of_ne h ..

theorem value_modify_self (H : Heap A T) (f : T → T) :
    (H.modify a f).value a = (H.value a).map f :=
  Function.update_self ..

theorem value_modify_of_ne (H : Heap A T) (f : T → T) (h : b ≠ a) :
    (H.modify a f).value b = H.value b :=
  Function.update_of_ne h ..

-- ---------------------------------------------------------------------------
-- Counting references
-- ---------------------------------------------------------------------------

/-- There are `r a` references to `a`. -/
structure Counts (H : Heap A T) (r : A → Nat) : Prop where
  useCount : ∀ a, H.useCount a = r a
  alive : ∀ a, (H.value a).isSome ↔ 0 < r a

variable {H : Heap A T} {r r' : A → Nat}

omit [DecidableEq A] in
theorem Counts.exists_value (h : H.Counts r) (ha : 0 < r a) : ∃ v, H.value a = some v :=
  Option.isSome_iff_exists.mp ((h.alive a).mpr ha)

omit [DecidableEq A] in
theorem Counts.congr (h : H.Counts r) (hr : ∀ a, r' a = r a) : H.Counts r' :=
  funext hr ▸ h

theorem Counts.acquire (h : H.Counts r) (hp : ∀ a, p = some a → 0 < r a)
    (hr : ∀ a, r' a = r a + refs p a) : (H.acquire p).Counts r' := by
  constructor
  · intro a
    rw [hr, ← h.useCount]
    rfl
  · intro a
    rw [value_acquire, h.alive, hr]
    constructor
    · omega
    · intro hpos
      by_cases hpa : p = some a
      · exact hp a hpa
      · rwa [refs_of_ne hpa] at hpos

theorem Counts.release (h : H.Counts r) (hr : ∀ a, r a = r' a + refs p a) :
    (H.release p).Counts r' := by
  have hu : ∀ a, (H.release p).useCount a = r' a := by
    intro a
    simp only [Heap.release, h.useCount, hr, Nat.add_sub_cancel]
  refine ⟨hu, fun a => ?_⟩
  constructor
  · intro hv
    by_contra hz
    -- the last reference went, or there was none before either
    simp only [Heap.release, h.useCount, hr, Nat.eq_zero_of_not_pos hz, Nat.zero_add] at hv
    split at hv
    · cases hv
    · rename_i hn
      have hpos := (h.alive a).mp hv
      rw [hr, Nat.eq_zero_of_not_pos hz, Nat.zero_add, refs_pos_iff] at hpos
      exact hn ⟨hpos, by rw [hpos, refs_self]⟩
  · intro hpos
    rw [value_release H (by rw [hu]; exact hpos), h.alive, hr]
    omega

theorem Counts.value_release (h : (H.release p).Counts r) (ha : 0 < r a) :
    (H.release p).value a = H.value a :=
  Heap.value_release H (by rwa [h.useCount])

theorem Counts.makeShared (h : H.Counts r) (ha : H.useCount a = 0)
    (hr : ∀ b, r' b = r b + refs (some a) b) : (H.makeShared a v).Counts r' := by
  rw [h.useCount] at ha
  constructor
  · intro b
    rw [hr]
    by_cases hb : b = a
    · subst hb
      simp [Heap.makeShared, ha]
    · rw [refs_of_ne (by simpa using Ne.symm hb), Nat.add_zero, ← h.useCount]
      exact Function.update_of_ne hb ..
  · intro b
    rw [hr]
    by_cases hb : b = a
    · subst hb
      simp [value_makeShared_self]
    · rw [value_makeShared_of_ne H v hb, h.alive, refs_of_ne (by simpa using Ne.symm hb),
        Nat.add_zero]

theorem Counts.modify (h : H.Counts r) : (H.modify a f).Counts r := by
  refine ⟨h.useCount, fun b => ?_⟩
  by_cases hb : b = a
  · subst hb
    rw [value_modify_self, Option.isSome_map, h.alive]
  · rw [value_modify_of_ne H f hb, h.alive]

end Heap

end CppUtil.Lang

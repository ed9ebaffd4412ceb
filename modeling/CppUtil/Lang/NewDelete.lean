import Mathlib.Data.List.Perm.Basic
import Mathlib.Logic.Function.Basic

/-!
# `new`, `delete` and raw pointers

A memory gives each address that is in use its object. To read, write or delete
an object that is not there is undefined behaviour, which ends a computation
with `Stop.undefined`. The allocator is free in which address it hands out, as
long as it is not in use: a computation that asks it for another one ends with
`Stop.refused`, as one does whose other demands on its surroundings are not met.
`Gives` is the postcondition of such computations, with a rule for each
operation.

`Turns m m' l l'`: of the memory `m` only the objects at `l` were changed, and
the objects at `l'` have come out of them. `Owns m own`: every object has one
owner. What turns one owner's objects leaves those of the others alone.

`Cells m₀ m cells`: the memory is `m₀` with the objects `cells` added. It is the
assertion to carry through a function that makes and deletes objects: each
operation has a rule for the cell it is about, and the other cells stay.
-/

namespace CppUtil.Lang

universe u

inductive Stop
  | undefined
  | refused
  deriving DecidableEq

abbrev Ptr := BitVec 64

def nullptr : Ptr := 0

abbrev Memory (O : Type*) := Ptr → Option O

namespace Memory

variable {O : Type*}

def load (m : Memory O) (p : Ptr) : Except Stop O :=
  match m p with
  | some o => .ok o
  | none => .error .undefined

def store (m : Memory O) (p : Ptr) (o : O) : Except Stop (Memory O) :=
  if (m p).isSome then .ok (Function.update m p (some o)) else .error .undefined

def new (m : Memory O) (p : Ptr) (o : O) : Except Stop (Memory O) :=
  if p ≠ nullptr ∧ (m p).isNone then .ok (Function.update m p (some o)) else .error .refused

def delete (m : Memory O) (p : Ptr) : Except Stop (Memory O) :=
  if (m p).isSome then .ok (Function.update m p none) else .error .undefined

end Memory

-- ---------------------------------------------------------------------------
-- Postconditions
-- ---------------------------------------------------------------------------

/-- The computation is not undefined, and its result, if it has one, is in `Q`. -/
def Gives {α : Type*} (x : Except Stop α) (Q : α → Prop) : Prop :=
  match x with
  | .ok a => Q a
  | .error .refused => True
  | .error .undefined => False

namespace Gives

variable {α β : Type u} {O : Type*} {x : Except Stop α} {Q Q' : α → Prop} {m : Memory O} {o : O}

theorem refused : Gives (.error .refused) Q := trivial

theorem of_eq (h : x = .ok a) : Gives x (· = a) := by
  rw [h]
  rfl

theorem mono (h : Gives x Q) (hQ : ∀ a, Q a → Q' a) : Gives x Q' := by
  match x, h with
  | .ok a, h => exact hQ a h
  | .error .refused, _ => trivial

theorem bind {f : α → Except Stop β} {R : β → Prop} (h : Gives x Q)
    (hf : ∀ a, Q a → Gives (f a) R) : Gives (x >>= f) R := by
  match x, h with
  | .ok a, h => exact hf a h
  | .error .refused, _ => trivial

theorem load (h : m p = some o) : Gives (m.load p) (· = o) := by
  rw [Memory.load, h]
  rfl

theorem store (h : m p = some o) : Gives (m.store p o') (· = Function.update m p (some o')) := by
  rw [Memory.store, h]
  rfl

theorem delete (h : m p = some o) : Gives (m.delete p) (· = Function.update m p none) := by
  rw [Memory.delete, h]
  rfl

theorem new : Gives (m.new p o) fun m' =>
    (p ≠ nullptr ∧ m p = none) ∧ m' = Function.update m p (some o) := by
  rw [Memory.new]
  split
  · next h => exact ⟨⟨h.1, Option.isNone_iff_eq_none.mp h.2⟩, rfl⟩
  · trivial

theorem of_eq_ok (h : Gives x Q) (hx : x = .ok a) : Q a := by
  rw [hx] at h
  exact h

theorem not_undefined (h : Gives x Q) : x ≠ .error .undefined := by
  rintro rfl
  exact h

theorem bind_eq_ok {f : α → Except Stop β} (h : x >>= f = .ok b) :
    ∃ a, x = .ok a ∧ f a = .ok b := by
  match x, h with
  | .ok a, h => exact ⟨a, rfl, h⟩

end Gives

-- ---------------------------------------------------------------------------
-- What a computation does to a block of memory
-- ---------------------------------------------------------------------------

structure Turns {O : Type*} (m m' : Memory O) (l l' : List Ptr) : Prop where
  frame : ∀ p, p ∉ l → p ∉ l' → m' p = m p
  gone : ∀ p ∈ l, p ∉ l' → m' p = none
  live : ∀ p ∈ l', (m' p).isSome
  fresh : ∀ p ∈ l', p ∈ l ∨ m p = none
  nodup : l'.Nodup

namespace Turns

variable {O : Type*} {m m' m'' : Memory O} {l l' l'' : List Ptr}

theorem refl (hl : ∀ p ∈ l, (m p).isSome) (hnodup : l.Nodup) : Turns m m l l where
  frame _ _ _ := rfl
  gone _ hp hp' := absurd hp hp'
  live := hl
  fresh _ hp := .inl hp
  nodup := hnodup

theorem trans (h : Turns m m' l l') (h' : Turns m' m'' l' l'') : Turns m m'' l l'' where
  frame p hp hp'' := by
    by_cases hp' : p ∈ l'
    · have hm : m p = none := (h.fresh p hp').resolve_left hp
      rw [h'.gone p hp' hp'', hm]
    · rw [h'.frame p hp' hp'', h.frame p hp hp']
  gone p hp hp'' := by
    by_cases hp' : p ∈ l'
    · exact h'.gone p hp' hp''
    · rw [h'.frame p hp' hp'', h.gone p hp hp']
  live := h'.live
  fresh p hp'' := by
    by_cases hp : p ∈ l
    · exact .inl hp
    · right
      rcases h'.fresh p hp'' with hp' | hm'
      · exact (h.fresh p hp').resolve_left hp
      · have hp' : p ∉ l' := fun hp' => by simpa [hm'] using h.live p hp'
        rw [← h.frame p hp hp', hm']
  nodup := h'.nodup

theorem perm (h : Turns m m' l l') (hl : l.Perm k) (hl' : l'.Perm k') : Turns m m' k k' where
  frame p hp hp' := h.frame p (fun hmem => hp (hl.mem_iff.mp hmem))
    fun hmem => hp' (hl'.mem_iff.mp hmem)
  gone p hp hp' := h.gone p (hl.mem_iff.mpr hp) fun hmem => hp' (hl'.mem_iff.mp hmem)
  live p hp := h.live p (hl'.mem_iff.mpr hp)
  fresh p hp := (h.fresh p (hl'.mem_iff.mpr hp)).imp_left hl.mem_iff.mp
  nodup := hl'.nodup_iff.mp h.nodup

theorem new (h : Turns m m' l l') (hp : m' p = none) :
    Turns m (Function.update m' p (some o)) l (p :: l') := by
  have hp' : p ∉ l' := fun hmem => by simpa [hp] using h.live p hmem
  refine h.trans ⟨fun q _ hq => ?_, fun q hq hq' => absurd (List.mem_cons_of_mem p hq) hq',
    fun q hq => ?_, fun q hq => ?_, List.nodup_cons.mpr ⟨hp', h.nodup⟩⟩
  · exact Function.update_of_ne (List.ne_of_not_mem_cons hq) ..
  · rcases List.mem_cons.mp hq with rfl | hq
    · simp
    · rw [Function.update_of_ne (ne_of_mem_of_not_mem hq hp')]
      exact h.live q hq
  · rcases List.mem_cons.mp hq with rfl | hq
    · exact .inr hp
    · exact .inl hq

theorem delete (h : Turns m m' l (p :: l')) : Turns m (Function.update m' p none) l l' := by
  obtain ⟨hp, hnodup⟩ := List.nodup_cons.mp h.nodup
  refine h.trans ⟨fun q hq _ => ?_, fun q hq hq' => ?_, fun q hq => ?_,
    fun q hq => .inl (List.mem_cons_of_mem p hq), hnodup⟩
  · exact Function.update_of_ne (List.ne_of_not_mem_cons hq) ..
  · rcases List.mem_cons.mp hq with rfl | hq
    · exact Function.update_self ..
    · exact absurd hq hq'
  · rw [Function.update_of_ne (ne_of_mem_of_not_mem hq hp)]
    exact h.live q (List.mem_cons_of_mem p hq)

theorem store (h : Turns m m' l l') (hp : p ∈ l') :
    Turns m (Function.update m' p (some o)) l l' := by
  refine h.trans ⟨fun q hq _ => ?_, fun q hq hq' => absurd hq hq', fun q hq => ?_,
    fun q hq => .inl hq, h.nodup⟩
  · exact Function.update_of_ne (ne_of_mem_of_not_mem hp hq).symm ..
  · by_cases he : q = p
    · rw [he, Function.update_self]
      rfl
    · rw [Function.update_of_ne he]
      exact h.live q hq

end Turns

-- ---------------------------------------------------------------------------
-- Owners
-- ---------------------------------------------------------------------------

structure Owns {O ι : Type*} (m : Memory O) (own : ι → List Ptr) : Prop where
  live : ∀ p, (m p).isSome ↔ ∃ i, p ∈ own i
  nodup : ∀ i, (own i).Nodup
  apart : ∀ {i j p}, p ∈ own i → p ∈ own j → i = j

namespace Owns

variable {O ι : Type*} {m m' : Memory O} {own : ι → List Ptr} {i j : ι}

theorem empty : Owns (fun _ => none : Memory O) (fun _ : ι => []) :=
  ⟨fun _ => by simp, fun _ => List.nodup_nil, fun h => absurd h List.not_mem_nil⟩

theorem frame (h : Owns m own) (ht : Turns m m' (own i) l) (hj : j ≠ i) (hp : p ∈ own j) :
    m' p = m p := by
  have hi : p ∉ own i := fun hi => hj (h.apart hp hi)
  refine ht.frame p hi fun hl => ?_
  have hm := (ht.fresh p hl).resolve_left hi
  simpa [hm] using (h.live p).mpr ⟨j, hp⟩

theorem turns [DecidableEq ι] (h : Owns m own) (ht : Turns m m' (own i) l) :
    Owns m' (Function.update own i l) := by
  have hapart : ∀ {j p}, j ≠ i → p ∈ own j → p ∉ l := by
    intro j p hj hp hl
    rcases ht.fresh p hl with hi | hm
    · exact hj (h.apart hp hi)
    · simpa [hm] using (h.live p).mpr ⟨j, hp⟩
  refine ⟨fun p => ⟨fun hp => ?_, ?_⟩, fun j => ?_, fun {j k p} hj hk => ?_⟩
  · by_cases hl : p ∈ l
    · exact ⟨i, by rwa [Function.update_self]⟩
    · have hi : p ∉ own i := fun hi => by simp [ht.gone p hi hl] at hp
      rw [ht.frame p hi hl] at hp
      obtain ⟨j, hj⟩ := (h.live p).mp hp
      refine ⟨j, ?_⟩
      rwa [Function.update_of_ne]
      rintro rfl
      exact hi hj
  · rintro ⟨j, hj⟩
    by_cases hji : j = i
    · rw [hji, Function.update_self] at hj
      exact ht.live p hj
    · rw [Function.update_of_ne hji] at hj
      rw [h.frame ht hji hj]
      exact (h.live p).mpr ⟨j, hj⟩
  · by_cases hji : j = i
    · rw [hji, Function.update_self]
      exact ht.nodup
    · rw [Function.update_of_ne hji]
      exact h.nodup j
  · by_cases hji : j = i <;> by_cases hki : k = i
    · exact hji.trans hki.symm
    · rw [hji, Function.update_self] at hj
      rw [Function.update_of_ne hki] at hk
      exact absurd hj (hapart hki hk)
    · rw [hki, Function.update_self] at hk
      rw [Function.update_of_ne hji] at hj
      exact absurd hk (hapart hji hj)
    · rw [Function.update_of_ne hji] at hj
      rw [Function.update_of_ne hki] at hk
      exact h.apart hj hk

end Owns

-- ---------------------------------------------------------------------------
-- Objects that come and go
-- ---------------------------------------------------------------------------

structure Cells {O : Type*} (m₀ m : Memory O) (cells : List (Ptr × O)) : Prop where
  turns : Turns m₀ m [] (cells.map Prod.fst)
  holds : ∀ c ∈ cells, m c.1 = some c.2

namespace Cells

variable {O : Type*} {m₀ m : Memory O} {cells cells' a b : List (Ptr × O)} {o o' : O} {p : Ptr}

theorem nil (m : Memory O) : Cells m m [] :=
  ⟨.refl (by simp) .nil, by simp⟩

/-- When all of the objects are gone, the memory is what it was. -/
theorem eq (h : Cells m₀ m []) : m = m₀ :=
  funext fun p => h.turns.frame p List.not_mem_nil List.not_mem_nil

theorem perm (h : Cells m₀ m cells) (hperm : cells.Perm cells') : Cells m₀ m cells' :=
  ⟨h.turns.perm (.refl _) (hperm.map _), fun c hc => h.holds c (hperm.mem_iff.mpr hc)⟩

theorem notMem (h : Cells m₀ m ((p, o) :: cells)) (hc : c ∈ cells) : c.1 ≠ p := by
  rintro rfl
  exact (List.nodup_cons.mp h.turns.nodup).1 (List.mem_map.mpr ⟨c, hc, rfl⟩)

theorem gives_new (h : Cells m₀ m cells) :
    Gives (m.new p o) fun m' => p ≠ nullptr ∧ Cells m₀ m' ((p, o) :: cells) := by
  refine Gives.new.mono ?_
  rintro _ ⟨⟨hset, hfree⟩, rfl⟩
  refine ⟨hset, h.turns.new hfree, List.forall_mem_cons.mpr ⟨Function.update_self .., ?_⟩⟩
  intro c hc
  have hne : c.1 ≠ p := by
    rintro rfl
    simp [h.holds c hc] at hfree
  rw [Function.update_of_ne hne]
  exact h.holds c hc

theorem gives_delete (h : Cells m₀ m (a ++ (p, o) :: b)) :
    Gives (m.delete p) fun m' => Cells m₀ m' (a ++ b) := by
  have hfront : Cells m₀ m ((p, o) :: (a ++ b)) := h.perm List.perm_middle
  refine (Gives.delete (hfront.holds (p, o) List.mem_cons_self)).mono ?_
  rintro _ rfl
  refine ⟨hfront.turns.delete, fun c hc => ?_⟩
  rw [Function.update_of_ne (hfront.notMem hc)]
  exact hfront.holds c (List.mem_cons_of_mem _ hc)

theorem gives_store (h : Cells m₀ m (a ++ (p, o) :: b)) :
    Gives (m.store p o') fun m' => Cells m₀ m' (a ++ (p, o') :: b) := by
  have hfront : Cells m₀ m ((p, o) :: (a ++ b)) := h.perm List.perm_middle
  refine (Gives.store (hfront.holds (p, o) List.mem_cons_self)).mono ?_
  rintro _ rfl
  have hstored : Cells m₀ (Function.update m p (some o')) ((p, o') :: (a ++ b)) := by
    refine ⟨hfront.turns.store List.mem_cons_self,
      List.forall_mem_cons.mpr ⟨Function.update_self .., fun c hc => ?_⟩⟩
    rw [Function.update_of_ne (hfront.notMem hc)]
    exact hfront.holds c (List.mem_cons_of_mem _ hc)
  exact hstored.perm List.perm_middle.symm

end Cells

end CppUtil.Lang

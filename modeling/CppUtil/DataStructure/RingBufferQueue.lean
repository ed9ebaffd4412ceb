import CppUtil.Lib.Machine
import CppUtil.Lib.Ring

/-!
# `Queue`

A queue of `uint32_t` in a ring of `int32_t`. One cell stays unused, so that a
full queue and an empty one differ in their indices.

`fifo c` is what the queue is for: a list of at most `c` elements. An operation
of the code that divides by zero or leaves `data_` has no outcome;
`queue_simulates_fifo` proves that there is none, and that the queue answers
every sequence of calls as the list does.
-/

namespace CppUtil.DataStructure

open Lib

structure Queue where
  data_ : List Int32
  capacity_ : UInt32
  front_ : UInt32
  rear_ : UInt32

namespace Queue

inductive Call
  | enqueue (elem : UInt32)
  | dequeue
  | isEmpty
  | isFull

inductive Output
  | printed (line : String)
  | flag (b : Bool)
  | elem (x : UInt32)
  deriving DecidableEq

-- ---------------------------------------------------------------------------
-- The code
-- ---------------------------------------------------------------------------

def new (capacity : UInt32) : Queue where
  data_ := List.replicate (capacity + 1).toNat 0
  capacity_ := capacity + 1
  front_ := 0
  rear_ := 0

def next (q : Queue) (i : UInt32) : Option UInt32 :=
  if q.capacity_ = 0 then none else some ((i + 1) % q.capacity_)

def isEmpty (q : Queue) : Bool := q.front_ = q.rear_

def isFull (q : Queue) : Option Bool := (q.next q.rear_).map (· = q.front_)

def enqueue (elem : UInt32) (q : Queue) : Option (Queue × List Output) := do
  if ← q.isFull then some (q, [.printed "queue is full", .flag false])
  else if q.rear_.toNat < q.data_.length then
    let rear_ ← q.next q.rear_
    some ({ q with data_ := q.data_.set q.rear_.toNat elem.toInt32, rear_ }, [.flag true])
  else none

def dequeue (q : Queue) : Option (Queue × List Output) := do
  if q.isEmpty then some (q, [.printed "queue is empty", .elem (-1)])
  else
    let elem ← q.data_[q.front_.toNat]?
    let front_ ← q.next q.front_
    some ({ q with front_ }, [.elem elem.toUInt32])

def machine : Machine Queue Call Output where
  step q := fun
    | .enqueue elem => q.enqueue elem
    | .dequeue => q.dequeue
    | .isEmpty => some (q, [.flag q.isEmpty])
    | .isFull => q.isFull.map fun b => (q, [.flag b])

-- ---------------------------------------------------------------------------
-- A bounded list
-- ---------------------------------------------------------------------------

/-- A queue of at most `c` elements, with the oldest one first. -/
def fifo (c : Nat) : Machine (List UInt32) Call Output where
  step l := fun
    | .enqueue elem =>
      if l.length < c then some (l ++ [elem], [.flag true])
      else some (l, [.printed "queue is full", .flag false])
    | .dequeue =>
      match l with
      | [] => some ([], [.printed "queue is empty", .elem (-1)])
      | elem :: l => some (l, [.elem elem])
    | .isEmpty => some (l, [.flag (l.length = 0)])
    | .isFull => some (l, [.flag (l.length = c)])

def cell (q : Queue) (i : Nat) : UInt32 := (q.data_.getD i 0).toUInt32

/-- The queue holds the elements of `l`, and its indices are in range. -/
structure Holds (c : Nat) (q : Queue) (l : List UInt32) : Prop where
  capacity : q.capacity_.toNat = c + 1
  length : q.data_.length = c + 1
  bounded : l.length ≤ c
  front : q.front_.toNat < c + 1
  rear : q.rear_.toNat = (q.front_.toNat + l.length) % (c + 1)
  elems : l = Ring.segment q.cell (c + 1) q.front_.toNat l.length

variable {c : Nat} {q : Queue} {l : List UInt32}

theorem Holds.rear_lt (h : Holds c q l) : q.rear_.toNat < c + 1 := by
  rw [h.rear]
  exact Nat.mod_lt _ (Nat.succ_pos c)

theorem Holds.next_eq (h : Holds c q l) (hi : i.toNat < c + 1) :
    ∃ j, q.next i = some j ∧ j.toNat = (i.toNat + 1) % (c + 1) := by
  have hcap := h.capacity
  have hmax := q.capacity_.toNat_lt
  have hne : q.capacity_ ≠ 0 := by
    intro h0
    rw [h0] at hcap
    cases hcap
  refine ⟨_, if_neg hne, ?_⟩
  rw [UInt32.toNat_mod, UInt32.toNat_add, hcap]
  congr 1
  simp only [UInt32.reduceToNat]
  exact Nat.mod_eq_of_lt (by omega)

theorem Holds.isEmpty_eq (h : Holds c q l) : q.isEmpty = decide (l.length = 0) := by
  have hiff : q.front_ = q.rear_ ↔ l.length = 0 := by
    rw [← UInt32.toNat_inj, h.rear, eq_comm, Ring.add_mod_eq_iff h.front]
    exact ⟨fun hd => Nat.eq_zero_of_dvd_of_lt hd (Nat.lt_succ_of_le h.bounded), fun h0 => by simp [h0]⟩
  simp only [isEmpty, hiff]

theorem Holds.isFull_eq (h : Holds c q l) : q.isFull = some (decide (l.length = c)) := by
  obtain ⟨j, hj, hval⟩ := h.next_eq h.rear_lt
  have hiff : j = q.front_ ↔ l.length = c := by
    rw [← UInt32.toNat_inj, hval, h.rear, Nat.mod_add_mod, Nat.add_assoc,
      Ring.add_mod_eq_iff h.front]
    constructor
    · intro hd
      exact Nat.le_antisymm h.bounded (Nat.le_of_succ_le_succ (Nat.le_of_dvd (Nat.succ_pos _) hd))
    · rintro hl
      rw [hl]
  simp only [isFull, hj, Option.map_some, hiff]

-- ---------------------------------------------------------------------------
-- The queue behaves as the list
-- ---------------------------------------------------------------------------

theorem cell_set (hi : i < q.data_.length) (elem : UInt32) :
    cell { q with data_ := q.data_.set i elem.toInt32, rear_ := r } =
      Function.update q.cell i elem := by
  funext j
  by_cases hj : j = i
  · subst hj
    simp [cell, List.getD_eq_getElem?_getD, List.getElem?_set_self hi]
  · simp [cell, List.getD_eq_getElem?_getD, List.getElem?_set_ne (Ne.symm hj),
      Function.update_of_ne hj]

theorem Holds.enqueue (h : Holds c q l) (hlen : l.length < c) (elem : UInt32) :
    ∃ q', q.enqueue elem = some (q', [.flag true]) ∧ Holds c q' (l ++ [elem]) := by
  obtain ⟨j, hj, hval⟩ := h.next_eq h.rear_lt
  have hin : q.rear_.toNat < q.data_.length := h.length ▸ h.rear_lt
  have hfull : q.isFull = some false := by
    rw [h.isFull_eq, decide_eq_false (Nat.ne_of_lt hlen)]
  refine ⟨{ q with data_ := q.data_.set q.rear_.toNat elem.toInt32, rear_ := j }, ?_, ?_⟩
  · simp [Queue.enqueue, hfull, hin, hj]
  · refine ⟨h.capacity, by simp [h.length], by simpa using Nat.succ_le_of_lt hlen,
      h.front, ?_, ?_⟩
    · simp only [hval, h.rear, Nat.mod_add_mod, List.length_append, List.length_singleton,
        Nat.add_assoc]
    · rw [cell_set hin, h.rear, List.length_append, List.length_singleton, Ring.segment_concat,
        Ring.segment_update _ _ (Nat.lt_succ_of_lt hlen), Function.update_self, ← h.elems]

theorem Holds.enqueue_full (h : Holds c q l) (hlen : ¬ l.length < c) (elem : UInt32) :
    q.enqueue elem = some (q, [.printed "queue is full", .flag false]) := by
  have hfull : q.isFull = some true := by
    rw [h.isFull_eq, decide_eq_true (Nat.le_antisymm h.bounded (Nat.not_lt.mp hlen))]
  simp [Queue.enqueue, hfull]

theorem Holds.dequeue (h : Holds c q (elem :: l)) :
    ∃ q', q.dequeue = some (q', [.elem elem]) ∧ Holds c q' l := by
  obtain ⟨j, hj, hval⟩ := h.next_eq h.front
  have hin : q.front_.toNat < q.data_.length := h.length ▸ h.front
  have hempty : q.isEmpty = false := h.isEmpty_eq
  obtain ⟨helem, hrest⟩ : elem = q.cell q.front_.toNat ∧
      l = Ring.segment q.cell (c + 1) j.toNat l.length := by
    have helems := h.elems
    rw [List.length_cons, Ring.segment_cons, Nat.mod_eq_of_lt h.front, ← hval] at helems
    exact List.cons.inj helems
  refine ⟨{ q with front_ := j }, ?_, ?_⟩
  · simp [Queue.dequeue, hempty, hin, hj, helem, cell]
  · refine ⟨h.capacity, h.length, Nat.le_of_succ_le h.bounded, ?_, ?_, hrest⟩
    · simp only [hval]
      exact Nat.mod_lt _ (Nat.succ_pos c)
    · have hrear := h.rear
      simp only [hval, Nat.mod_add_mod, hrear, List.length_cons]
      congr 1
      omega

theorem new_holds (capacity : UInt32) (h : capacity.toNat + 1 < 2 ^ 32) :
    Holds capacity.toNat (new capacity) [] := by
  have hcap : (capacity + 1).toNat = capacity.toNat + 1 := by
    rw [UInt32.toNat_add]
    exact Nat.mod_eq_of_lt h
  exact ⟨hcap, by simp [new, hcap], Nat.zero_le _, Nat.succ_pos _, by simp [new], rfl⟩

theorem Holds.step (h : Holds c q l) (hs : (fifo c).step l a = some (l', o)) :
    ∃ q', machine.step q a = some (q', o) ∧ Holds c q' l' := by
  cases a with
  | enqueue elem =>
    by_cases hlen : l.length < c
    · simp only [fifo, if_pos hlen] at hs
      cases hs
      exact h.enqueue hlen elem
    · simp only [fifo, if_neg hlen] at hs
      cases hs
      exact ⟨q, h.enqueue_full hlen elem, h⟩
  | dequeue =>
    cases l with
    | nil =>
      cases hs
      have hempty : q.isEmpty = true := h.isEmpty_eq
      exact ⟨q, by simp [machine, Queue.dequeue, hempty], h⟩
    | cons elem l =>
      cases hs
      exact h.dequeue
  | isEmpty =>
    cases hs
    exact ⟨q, by simp [machine, h.isEmpty_eq], h⟩
  | isFull =>
    cases hs
    exact ⟨q, by simp [machine, h.isFull_eq], h⟩

/-- Every sequence of calls has an outcome, the one that a list of at most
`capacity` elements has. The indices stay below `capacity_`, and the one after
them is a `uint32_t`. -/
theorem queue_simulates_fifo (capacity : UInt32) (h : capacity.toNat + 1 < 2 ^ 32)
    (calls : List Call) :
    ∃ q l os, machine.run (new capacity) calls = some (q, os) ∧
      (fifo capacity.toNat).run [] calls = some (l, os) ∧ Holds capacity.toNat q l ∧
      q.front_ < q.capacity_ ∧ q.rear_ < q.capacity_ ∧
      q.front_.toNat + 1 < 2 ^ 32 ∧ q.rear_.toNat + 1 < 2 ^ 32 := by
  have htotal : ∀ l a, ((fifo capacity.toNat).step l a).isSome := by
    rintro l (elem | _)
    · simp only [fifo]
      split <;> rfl
    · cases l <;> rfl
    · rfl
    · rfl
  obtain ⟨⟨l, os⟩, hl⟩ := @Machine.run_total _ _ _ (fifo capacity.toNat) [] calls htotal
  obtain ⟨q, hq, hholds⟩ := Machine.run_simulates (Holds capacity.toNat)
    (fun _ _ _ _ _ hh hs => hh.step hs) (new_holds capacity h) hl
  have hfront := hholds.front
  have hrear := hholds.rear_lt
  refine ⟨q, l, os, hq, hl, hholds, ?_, ?_, by omega, by omega⟩
  · rw [UInt32.lt_iff_toNat_lt, hholds.capacity]
    exact hfront
  · rw [UInt32.lt_iff_toNat_lt, hholds.capacity]
    exact hrear

theorem queue_simulates_fifo_two :
    ∃ q, machine.run (new 2) [.enqueue 1, .enqueue 0xffffffff, .enqueue 3, .dequeue, .enqueue 4,
        .dequeue, .isFull, .dequeue, .dequeue] =
      some (q, [.flag true, .flag true, .printed "queue is full", .flag false, .elem 1, .flag true,
        .elem 0xffffffff, .flag false, .elem 4, .printed "queue is empty", .elem 0xffffffff]) := by
  obtain ⟨q, l, os, hq, hl, -⟩ := queue_simulates_fifo 2 (by decide) [.enqueue 1,
    .enqueue 0xffffffff, .enqueue 3, .dequeue, .enqueue 4, .dequeue, .isFull, .dequeue, .dequeue]
  cases hl
  exact ⟨q, hq⟩

end Queue

end CppUtil.DataStructure

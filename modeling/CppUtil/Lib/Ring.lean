import Mathlib.Data.Nat.ModEq
import Mathlib.Logic.Function.Basic

/-!
# Segments of a ring

Some consecutive cells of a ring of `n` cells, from `front` on, where the cell
after the last one is the first one. A queue in a ring is such a segment: it
grows at its end (`segment_concat`, `segment_update`) and shrinks at its front
(`segment_cons`).
-/

namespace CppUtil.Lib.Ring

variable {α : Type*} {n front len : Nat}

def segment (cell : Nat → α) (n front len : Nat) : List α :=
  (List.range len).map fun i => cell ((front + i) % n)

theorem segment_concat (cell : Nat → α) (n front len : Nat) :
    segment cell n front (len + 1) =
      segment cell n front len ++ [cell ((front + len) % n)] := by
  simp [segment, List.range_succ]

theorem segment_cons (cell : Nat → α) (n front len : Nat) :
    segment cell n front (len + 1) =
      cell (front % n) :: segment cell n ((front + 1) % n) len := by
  have hmod : ∀ i, (front + (i + 1)) % n = ((front + 1) % n + i) % n := by
    intro i
    rw [Nat.mod_add_mod, Nat.add_assoc, Nat.add_comm 1 i]
  simp only [segment, List.range_succ_eq_map, List.map_cons, List.map_map, Nat.add_zero]
  exact congrArg _ (List.map_congr_left fun i _ => congrArg cell (hmod i))

/-- Fewer than `n` steps around a ring of `n` end on different cells. -/
theorem add_mod_inj {i j : Nat} (hi : i < n) (hj : j < n)
    (h : (front + i) % n = (front + j) % n) : i = j :=
  Nat.ModEq.eq_of_lt_of_lt (Nat.ModEq.add_left_cancel' front h) hi hj

theorem segment_update (cell : Nat → α) (x : α) (hlen : len < n) :
    segment (Function.update cell ((front + len) % n) x) n front len = segment cell n front len := by
  refine List.map_congr_left fun i hi => Function.update_of_ne (fun heq => ?_) x cell
  have hlt := List.mem_range.mp hi
  exact Nat.ne_of_lt hlt (add_mod_inj (hlt.trans hlen) hlen heq)

theorem add_mod_eq_iff {k : Nat} (hfront : front < n) : (front + k) % n = front ↔ n ∣ k := by
  constructor
  · intro h
    have hmod : front + k ≡ front + 0 [MOD n] := by
      rw [Nat.ModEq, h, Nat.add_zero, Nat.mod_eq_of_lt hfront]
    exact (Nat.modEq_zero_iff_dvd).mp (Nat.ModEq.add_left_cancel' front hmod)
  · intro h
    rw [Nat.add_mod, Nat.mod_eq_zero_of_dvd h, Nat.add_zero, Nat.mod_mod,
      Nat.mod_eq_of_lt hfront]

end CppUtil.Lib.Ring

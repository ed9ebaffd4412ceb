import Mathlib.Data.List.Induction
import Mathlib.Logic.Function.Basic

/-!
# Walks along labelled edges

Nodes with at most one edge for each label, and the node that a list of labels
leads to. From the root of a tree different lists lead to different nodes, and
a new leaf (`link`) is then reached by one list only, while all other lists
lead where they led before.
-/

namespace CppUtil.Lib

variable {A ι : Type*}

def walk (edge : A → ι → Option A) (a : A) : List ι → Option A
  | [] => some a
  | i :: w => (edge a i).bind fun b => walk edge b w

/-- No two walks from the root end at the same node. -/
def IsTree (edge : A → ι → Option A) (root : A) : Prop :=
  ∀ u v a, walk edge root u = some a → walk edge root v = some a → u = v

variable {edge : A → ι → Option A} {root a b : A} {u v : List ι} {i j : ι}

theorem walk_append (u v : List ι) :
    walk edge a (u ++ v) = (walk edge a u).bind fun b => walk edge b v := by
  induction u generalizing a with
  | nil => rfl
  | cons i u ih => simp only [List.cons_append, walk, ih, Option.bind_assoc]

theorem walk_concat (u : List ι) (i : ι) :
    walk edge a (u ++ [i]) = (walk edge a u).bind fun b => edge b i := by
  rw [walk_append]
  congr 1
  funext b
  exact Option.bind_fun_some _

theorem walk_isSome_of_append (h : (walk edge a (u ++ v)).isSome) : (walk edge a u).isSome := by
  rw [walk_append] at h
  exact Option.isSome_of_isSome_bind h

variable [DecidableEq A] [DecidableEq ι]

def link (edge : A → ι → Option A) (a : A) (i : ι) (b : A) : A → ι → Option A :=
  Function.update edge a (Function.update (edge a) i (some b))

theorem link_self : link edge a i b a i = some b := by
  simp [link]

theorem link_of_ne (h : a' ≠ a ∨ j ≠ i) : link edge a i b a' j = edge a' j := by
  by_cases ha : a' = a
  · subst ha
    simp [link, h.resolve_left (by simp)]
  · simp [link, ha]

/-- A leaf is added at the end of the walk `u`. -/
theorem walk_link (htree : IsTree edge root) (hu : walk edge root u = some a)
    (hfree : edge a i = none) (hnew : ∀ v, walk edge root v ≠ some b) (hleaf : ∀ j, edge b j = none)
    (v : List ι) :
    walk (link edge a i b) root v = if v = u ++ [i] then some b else walk edge root v := by
  have hba : b ≠ a := by
    rintro rfl
    exact hnew u hu
  induction v using List.reverseRecOn with
  | nil => simp [walk]
  | append_singleton v j ih =>
    rw [walk_concat, ih]
    by_cases hv : v = u ++ [i]
    · -- behind the leaf there is nothing, as before
      subst hv
      have hold : walk edge root (u ++ [i] ++ [j]) = none := by
        rw [walk_concat, walk_concat, hu, Option.bind_some, hfree, Option.bind_none]
      have hne : u ++ [i] ++ [j] ≠ u ++ [i] := by simp
      rw [if_pos rfl, if_neg hne, hold, Option.bind_some, link_of_ne (.inl hba), hleaf]
    · rw [if_neg hv, walk_concat]
      cases hw : walk edge root v with
      | none =>
        have hne : v ++ [j] ≠ u ++ [i] := by
          intro heq
          obtain ⟨rfl, -⟩ := List.append_inj' heq rfl
          rw [hu] at hw
          cases hw
        simp [hne]
      | some x =>
        simp only [Option.bind_some]
        by_cases hx : v ++ [j] = u ++ [i]
        · obtain ⟨rfl, hj⟩ := List.append_inj' hx rfl
          cases hj
          rw [hu] at hw
          cases hw
          rw [if_pos rfl, link_self]
        · rw [if_neg hx]
          apply link_of_ne
          by_contra hsame
          simp only [not_or, ne_eq, not_not] at hsame
          obtain ⟨rfl, rfl⟩ := hsame
          exact hx (by rw [htree v u x hw hu])

theorem IsTree.link (htree : IsTree edge root) (hu : walk edge root u = some a)
    (hfree : edge a i = none) (hnew : ∀ v, walk edge root v ≠ some b)
    (hleaf : ∀ j, edge b j = none) : IsTree (link edge a i b) root := by
  intro v w x hv hw
  rw [walk_link htree hu hfree hnew hleaf] at hv hw
  split at hv
  · split at hw
    · simp_all
    · cases hv
      exact absurd hw (hnew w)
  · split at hw
    · cases hw
      exact absurd hv (hnew v)
    · exact htree v w x hv hw

end CppUtil.Lib

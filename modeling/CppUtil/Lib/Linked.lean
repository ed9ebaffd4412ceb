import Mathlib.Data.List.Perm.Basic
import Mathlib.Logic.Function.Basic

/-!
# Linked lists

`Linked next p l`: following `next` from `p` goes through the nodes `l`, in
order, and ends at null. The list is a function of `next` and `p`, and a write
to a node that is not on it leaves it as it is.
-/

namespace CppUtil.Lib

variable {Node : Type*}

def Linked (next : Node → Option Node) : Option Node → List Node → Prop
  | none, [] => True
  | some a, b :: l => a = b ∧ Linked next (next b) l
  | _, _ => False

variable {next : Node → Option Node}

@[simp] theorem linked_none_iff : Linked next none l ↔ l = [] := by
  cases l <;> simp [Linked]

theorem linked_some_iff : Linked next (some a) l ↔ ∃ l', l = a :: l' ∧ Linked next (next a) l' := by
  cases l with
  | nil => simp [Linked]
  | cons b l =>
    constructor
    · rintro ⟨rfl, h⟩
      exact ⟨l, rfl, h⟩
    · rintro ⟨l', heq, h⟩
      cases heq
      exact ⟨rfl, h⟩

@[simp] theorem linked_nil_iff : Linked next p [] ↔ p = none := by
  cases p <;> simp [Linked]

theorem linked_cons_iff : Linked next p (a :: l) ↔ p = some a ∧ Linked next (next a) l := by
  cases p <;> simp [Linked]

theorem Linked.congr (h : Linked next p l) (heq : ∀ n ∈ l, next' n = next n) :
    Linked next' p l := by
  induction l generalizing p with
  | nil => simpa using h
  | cons a l ih =>
    rw [linked_cons_iff] at h
    rw [List.forall_mem_cons] at heq
    exact linked_cons_iff.mpr ⟨h.1, by rw [heq.1]; exact ih h.2 heq.2⟩

theorem Linked.update [DecidableEq Node] (h : Linked next p l) (hn : n ∉ l) :
    Linked (Function.update next n q) p l := by
  apply h.congr
  rintro m hm
  apply Function.update_of_ne
  rintro rfl
  exact hn hm

theorem Linked.unique (h : Linked next p l) (h' : Linked next p l') : l = l' := by
  induction l generalizing p l' with
  | nil =>
    rw [linked_nil_iff.mp h, linked_none_iff] at h'
    exact h'.symm
  | cons a l ih =>
    rw [linked_cons_iff] at h
    rw [h.1, linked_some_iff] at h'
    obtain ⟨l'', rfl, h''⟩ := h'
    rw [ih h.2 h'']

theorem Linked.suffix (h : Linked next p l) (ha : a ∈ l) :
    ∃ l', l' <:+ l ∧ Linked next (some a) l' := by
  induction l generalizing p with
  | nil => cases ha
  | cons b l ih =>
    rw [linked_cons_iff] at h
    rcases List.mem_cons.mp ha with rfl | ha
    · exact ⟨a :: l, List.suffix_refl _, linked_cons_iff.mpr ⟨rfl, h.2⟩⟩
    · obtain ⟨l', hl', h'⟩ := ih h.2 ha
      exact ⟨l', hl'.trans (List.suffix_cons b l), h'⟩

theorem Linked.eq_of_perm (h : Linked next p l) (h' : Linked next q l') (hp : l'.Perm l) :
    q = p := by
  cases l' with
  | nil =>
    rw [hp.symm.eq_nil, linked_nil_iff] at h
    rw [linked_nil_iff.mp h', h]
  | cons a l' =>
    have hq := (linked_cons_iff.mp h').1
    obtain ⟨m, hm, hlinked⟩ := h.suffix (hp.mem_iff.mp List.mem_cons_self)
    have hlen : m.length = l.length := by
      rw [hlinked.unique (hq ▸ h'), hp.length_eq]
    rw [hm.eq_of_length hlen] at hlinked
    obtain ⟨b, rest, rfl⟩ : ∃ b rest, l = b :: rest :=
      List.exists_cons_of_ne_nil (by rintro rfl; cases hp.eq_nil)
    rw [(linked_cons_iff.mp h).1, hq, (linked_cons_iff.mp hlinked).1]

end CppUtil.Lib

import CppUtil.JsonHelper.Marshal
import Mathlib.Data.List.Perm.Basic

/-!
# What the loops of `Marshal` do

Each template is described for an arbitrary element function, on a root that
starts as null. Nothing here depends on the type of the elements.
-/

namespace CppUtil.JsonHelper

open Lang (Str Exn)

@[simp] theorem ok_bind (a : α) (f : α → Except ε β) : (Except.ok a >>= f) = f a := rfl

theorem bind_ok {x : Except ε α} {f : α → Except ε β} :
    x >>= f = .ok b ↔ ∃ a, x = .ok a ∧ f a = .ok b := by
  cases x <;> simp [bind, Except.bind]

theorem map_ok {x : Except ε α} {f : α → β} : x.map f = .ok b ↔ ∃ a, x = .ok a ∧ f a = b := by
  cases x <;> simp [Except.map]

theorem intRounds_lt (n : Nat) : intRounds n < 2 ^ 31 := by
  have := @BitVec.toInt_lt 32 (BitVec.ofNat 32 n)
  unfold intRounds
  omega

theorem intRounds_eq (h : n < 2 ^ 31) : intRounds n = n := by
  have hn : (BitVec.ofNat 32 n).toNat = n := by
    rw [BitVec.toNat_ofNat, Nat.mod_eq_of_lt (by omega)]
  rw [intRounds, BitVec.toInt_eq_toNat_cond, hn, if_pos (by omega), Int.toNat_natCast]

theorem View.elems?_array {w : View V} (h : w.elems? = some l) (hl : l ≠ []) : w = .array l := by
  cases w <;> simp_all [View.elems?]

theorem View.members?_object {w : View V} (h : w.members? = some m) (hm : m ≠ []) :
    w = .object m := by
  cases w <;> simp_all [View.members?]

section
variable {V : Type} [J : JsonCpp V] (D : Documented V)

/-- `m` turns every element into a value related to it by `R`. -/
def Emits (m : α → V → Except Exn (Bool × V)) (R : α → V → Prop) (x : α) : Prop :=
  ∃ j, m x J.null = .ok (true, j) ∧ R x j

theorem marshalElems_ok {m : α → V → Except Exn (Bool × V)} {R : α → V → Prop}
    (hm : ∀ x ∈ xs, Emits m R x) (hv : (D.view root).elems? = some done)
    (hlen : done.length + xs.length < maxSize) (ret : Bool) :
    ∃ root' es, marshalElems m xs done.length ret root = .ok (ret, root') ∧
      (D.view root').elems? = some (done ++ es) ∧ List.Forall₂ R xs es := by
  induction xs generalizing root done with
  | nil => exact ⟨root, [], rfl, by simpa using hv, .nil⟩
  | cons x xs ih =>
    obtain ⟨j, hj, hR⟩ := hm x List.mem_cons_self
    rw [List.length_cons] at hlen
    have hset : (D.view (J.setElem root done.length j)).elems? = some (done ++ [j]) := by
      rw [D.setElem_new root done j hv (by omega)]
      rfl
    obtain ⟨root', es, hrun, hview, hes⟩ :=
      ih (fun y hy => hm y (List.mem_cons_of_mem _ hy)) hset (by simp; omega)
    refine ⟨root', j :: es, ?_, by simpa using hview, .cons hR hes⟩
    simp only [marshalElems, D.refElem_new root done hv (by omega), ok_bind, hj, Bool.and_true]
    simpa using hrun

theorem marshalVector_ok {m : α → V → Except Exn (Bool × V)} {R : α → V → Prop}
    (hm : ∀ x ∈ xs, Emits m R x) (hne : xs ≠ []) (hlen : xs.length < 2 ^ 31) :
    ∃ root es, marshalVector m xs J.null = .ok (true, root) ∧ D.view root = .array es ∧
      List.Forall₂ R xs es := by
  have hnull : (D.view J.null).elems? = some [] := by rw [D.view_null]; rfl
  obtain ⟨root, es, hrun, hview, hes⟩ := marshalElems_ok D hm hnull
    (by simp only [List.length_nil, maxSize]; omega) true
  refine ⟨root, es, ?_, View.elems?_array hview ?_, hes⟩
  · rw [marshalVector, intRounds_eq hlen, List.take_length]
    exact hrun
  · intro h
    have hlength := hes.length_eq
    rw [show es = [] from h, List.length_nil, List.length_eq_zero_iff] at hlength
    exact hne hlength

theorem marshalSet_ok {m : α → V → Except Exn (Bool × V)} {R : α → V → Prop}
    (hm : ∀ x ∈ xs, Emits m R x) (hv : (D.view root).elems? = some done)
    (hlen : done.length + xs.length < maxSize) (ret : Bool) :
    ∃ root' es, marshalSet m xs ret root = .ok (ret, root') ∧
      (D.view root').elems? = some (done ++ es) ∧ List.Forall₂ R xs es := by
  induction xs generalizing root done with
  | nil => exact ⟨root, [], rfl, by simpa using hv, .nil⟩
  | cons x xs ih =>
    obtain ⟨j, hj, hR⟩ := hm x List.mem_cons_self
    rw [List.length_cons] at hlen
    obtain ⟨next, happend, hnext⟩ := D.append root done j hv (by omega)
    obtain ⟨root', es, hrun, hview, hes⟩ :=
      @ih next (done ++ [j]) (fun y hy => hm y (List.mem_cons_of_mem _ hy)) (by rw [hnext]; rfl)
        (by simp; omega)
    refine ⟨root', j :: es, ?_, by simpa using hview, .cons hR hes⟩
    simp only [marshalSet, hj, ok_bind, if_true, happend, hrun]

theorem marshalMap_ok {m : α → V → Except Exn (Bool × V)} {R : α → V → Prop}
    (hm : ∀ p ∈ ps, Emits m R p.2) (hnames : (ps.map Prod.fst).Nodup)
    (hv : (D.view root).members? = some done) (hnew : ∀ p ∈ ps, p.1 ∉ done.map Prod.fst)
    (ret : Bool) :
    ∃ root' ms js, marshalMap m ps ret root = .ok (ret, root') ∧
      (D.view root').members? = some ms ∧ ms.Perm (js ++ done) ∧
      List.Forall₂ (fun p q => q.1 = p.1 ∧ R p.2 q.2) ps js := by
  induction ps generalizing root done with
  | nil => exact ⟨root, done, [], rfl, hv, .refl _, .nil⟩
  | cons p ps ih =>
    obtain ⟨name, x⟩ := p
    obtain ⟨j, hj, hR⟩ := hm (name, x) List.mem_cons_self
    obtain ⟨hfirst, hrest⟩ := List.nodup_cons.mp hnames
    have hname : name ∉ done.map Prod.fst := hnew (name, x) List.mem_cons_self
    obtain ⟨next, hnext, hperm⟩ := D.setMember_new root done name j hv hname
    have hnew' : ∀ p ∈ ps, p.1 ∉ next.map Prod.fst := by
      intro p hp hmem
      rcases List.mem_cons.mp ((hperm.map Prod.fst).mem_iff.mp hmem) with h | h
      · exact hfirst (h ▸ List.mem_map_of_mem hp)
      · exact hnew p (List.mem_cons_of_mem _ hp) h
    obtain ⟨root', ms, js, hrun, hview, hms, hjs⟩ :=
      @ih (J.setMember root name j) next (fun q hq => hm q (List.mem_cons_of_mem _ hq)) hrest
        (by rw [hnext]; rfl) hnew'
    refine ⟨root', ms, (name, j) :: js, ?_, hview, ?_, .cons ⟨rfl, hR⟩ hjs⟩
    · simp only [marshalMap, D.refMember_new root done name hv hname, ok_bind, hj, Bool.and_true,
        hrun]
    · exact (hms.trans (hperm.append_left js)).trans List.perm_middle

end

end CppUtil.JsonHelper

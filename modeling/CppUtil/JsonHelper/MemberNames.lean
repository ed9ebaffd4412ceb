import CppUtil.JsonHelper.Independence
import CppUtil.JsonHelper.RoundTrip

/-!
# The keys a map with integer keys gets

The name of a member is read by `std::stoi` and its relatives, which skip white
space, take a sign and leading zeros, and stop at the first character that is
no digit. So a name need not be the text of its key, two names can have one
key, and `std::stoul` reads more than an `uint32_t` can hold.
`one_entry_each_iff` says that nothing of this matters exactly if every name is
what `std::to_string` writes.
-/

namespace CppUtil.JsonHelper

open Lang (Str Exn)

theorem Key.not_text {k : Key} {key : k.Val} (h : k.parse name = .ok key) (hne : name ≠ k.text key) :
    ¬ ∃ key, name = k.text key := by
  rintro ⟨key', rfl⟩
  cases h.symm.trans (k.parse_text key')
  exact hne rfl

section
variable {V : Type} [J : JsonCpp V] (D : Documented V) {k : Key}

/-- The entries of the map are the members of the object, each under the key
whose text is its name, with what is read from it. -/
def OneEntryEach (k : Key) (u : V → α → Except Exn (Bool × α)) (fresh : α) (m : List (Str × V))
    (out : Finmap fun _ : k.Val => α) : Prop :=
  ∃ es : List (Sigma fun _ : k.Val => α), (es : Multiset _) = out.entries ∧
    List.Forall₂ (fun q e => q.1 = k.text e.1 ∧ u q.2 fresh = .ok (true, e.2)) m es

omit J in
theorem OneEntryEach.texts {u : V → α → Except Exn (Bool × α)} {out : Finmap fun _ : k.Val => α}
    (h : OneEntryEach k u fresh m out) : ∀ q ∈ m, ∃ key, q.1 = k.text key := by
  obtain ⟨es, -, hes⟩ := h
  have htexts : List.Forall₂ (fun q e => (∃ key, q.1 = k.text key) ∧ q.1 = k.text e.1) m es :=
    hes.imp fun q e h => ⟨⟨e.1, h.1⟩, h.1⟩
  exact ((List.forall₂_and_left m es).mp htexts).1

theorem assignAll_nodup [DecidableEq κ] {l : List (Sigma fun _ : κ => α)} (h : l.NodupKeys) :
    (assignAll l).entries = l := by
  rw [assignAll_entries (m := AList.toFinmap ⟨l, h⟩) rfl]
  rfl

omit J in
theorem nodupKeys_of_texts {m : List (Str × V)} {rs : List (Bool × Sigma fun _ : k.Val => α)}
    (hm : (m.map Prod.fst).Nodup) (h : List.Forall₂ (fun q r => q.1 = k.text r.2.1) m rs) :
    (rs.map Prod.snd).NodupKeys := by
  have hnames : m.map Prod.fst = ((rs.map Prod.snd).map Sigma.fst).map k.text := by
    induction h with
    | nil => rfl
    | cons hq _ ih => simp only [List.map_cons, hq, ih (List.nodup_cons.mp hm).2]
  rw [hnames] at hm
  exact hm.of_map

theorem unmarshalMap_one_entry_each {u : Nat → V → α → Except Exn (Bool × α)}
    {u' : V → α → Except Exn (Bool × α)} (hu : ∀ i, Repeats (u i) u')
    {obj out : Finmap fun _ : k.Val => α} (hview : D.view root = .object m)
    (h : unmarshalMap k.parse u fresh root obj = .ok (true, out)) :
    OneEntryEach k u' fresh m out ↔ ∀ q ∈ m, ∃ key, q.1 = k.text key := by
  refine ⟨OneEntryEach.texts, fun hnames => ?_⟩
  obtain ⟨m', rs, hm', hrs, hall, rfl⟩ | ⟨hnot, -⟩ := (unmarshalMap_ok_iff D).mp h
  case inr => exact absurd hview (hnot m)
  cases hview.symm.trans hm'
  have hread : List.Forall₂ (fun q r => q.1 = k.text r.2.1 ∧
      (r.1 = true → u' q.2 fresh = .ok (true, r.2.2))) m rs := by
    refine hrs.forall₂ fun i q hq w key ok x hkey hx => ⟨?_, ?_⟩
    · obtain ⟨key', htext⟩ := hnames q hq
      rw [htext, k.parse_text] at hkey
      rw [htext, Except.ok.inj hkey]
    · rintro rfl
      exact hu i q.2 w x hx fresh
  refine ⟨rs.map Prod.snd, ?_, ?_⟩
  · exact (assignAll_nodup (nodupKeys_of_texts (D.nodup root m hview) (hread.imp fun _ _ h => h.1))).symm
  · rw [List.forall₂_map_right_iff]
    have htrue : ∀ r ∈ rs, r.1 = true := by simpa using hall.symm
    exact ((List.forall₂_and_left rs m).mpr ⟨htrue, hread.flip⟩).flip.imp fun q r h =>
      ⟨h.2.1, h.2.2 h.1⟩

/-- If `Unmarshal` for a map returns true on an object, the map has one entry per
member, under the key that the member's name is the text of, if and only if every
name is the text of a key. -/
theorem one_entry_each_iff {F : Floats} [JsonDoubles V F] (L : Locals F) (k : Key) (t : Ty)
    {v : V} (hview : D.view v = .object m) :
    (∀ hk obj out, (Ty.map k hk t).unmarshal L v obj = .ok (true, out) →
      (OneEntryEach k (t.unmarshal L) (L.fresh t) m out ↔ ∀ q ∈ m, ∃ key, q.1 = k.text key)) ∧
    ∀ obj out, (Ty.unorderedMap k t).unmarshal L v obj = .ok (true, out) →
      (OneEntryEach k (t.unmarshal L) (L.fresh t) m out ↔ ∀ q ∈ m, ∃ key, q.1 = k.text key) :=
  ⟨fun _ _ _ h => unmarshalMap_one_entry_each D (fun _ => t.unmarshal_repeats _ L) hview h,
    fun _ _ h => unmarshalMap_one_entry_each D (fun _ => t.unmarshal_repeats _ L) hview h⟩

end

def countsDoc : Tree := .object [("-5".toList, .bool true), ("7".toList, .bool false)]

theorem one_entry_each_counts :
    let out : Finmap fun _ : Int32 => Bool := (Finmap.singleton (-5) true).insert 7 false
    (Ty.map .int32 (by decide) (.scalar .bool)).unmarshal .zeroed countsDoc (Ty.zero _)
      = .ok (true, out) ∧
    OneEntryEach .int32 ((Ty.scalar .bool).unmarshal .zeroed) (Ty.zero (.scalar .bool))
      [("-5".toList, Tree.bool true), ("7".toList, .bool false)] out := by
  intro out
  have hrun : (Ty.map .int32 (by decide) (.scalar .bool)).unmarshal .zeroed countsDoc
      (Ty.zero _) = .ok (true, out) := rfl
  refine ⟨hrun, ((one_entry_each_iff Tree.documented .zeroed .int32 (.scalar .bool) rfl).1 _ _ _
    hrun).mpr ?_⟩
  simp only [List.mem_cons, List.not_mem_nil, or_false, forall_eq_or_imp, forall_eq]
  exact ⟨⟨(-5 : Int32), by decide⟩, ⟨(7 : Int32), by decide⟩⟩

/-- Two names of one key are merged, and a name that is too large for the key is
stored under what is left of it. Of the two names "01" is read first, since the
library sorts them. -/
theorem one_entry_each_fails :
    let twice := Tree.object [("1".toList, .bool true), ("01".toList, .bool false)]
    let large := Tree.object [("4294967297".toList, .bool true)]
    ((Ty.map .int32 (by decide) (.scalar .bool)).unmarshal .zeroed twice (Ty.zero _) =
        .ok (true, (Finmap.singleton 1 true : Finmap fun _ : Int32 => Bool)) ∧
      twice.view = .object [("01".toList, .bool false), ("1".toList, .bool true)] ∧
      ¬OneEntryEach .int32 ((Ty.scalar .bool).unmarshal .zeroed) (Ty.zero (.scalar .bool))
        [("01".toList, Tree.bool false), ("1".toList, Tree.bool true)]
        (Finmap.singleton 1 true : Finmap fun _ : Int32 => Bool)) ∧
    (Ty.unorderedMap .uint32 (.scalar .bool)).unmarshal .zeroed large (Ty.zero _) =
      .ok (true, (Finmap.singleton 1 true : Finmap fun _ : UInt32 => Bool)) ∧
    ¬OneEntryEach .uint32 ((Ty.scalar .bool).unmarshal .zeroed) (Ty.zero (.scalar .bool))
      [("4294967297".toList, Tree.bool true)]
      (Finmap.singleton 1 true : Finmap fun _ : UInt32 => Bool) := by
  intro twice large
  have hzero : Key.int32.parse "01".toList = .ok (1 : Int32) :=
    show Lang.stoi "01".toList = .ok 1 by decide +kernel
  have hwrap : Key.uint32.parse "4294967297".toList = .ok (1 : UInt32) :=
    congrArg (Except.map UInt64.toUInt32) (Lang.stoull_stdToString 4294967297 (by decide))
  refine ⟨⟨rfl, rfl, fun h => ?_⟩, rfl, fun h => ?_⟩
  · exact Key.not_text hzero (by decide) (h.texts _ List.mem_cons_self)
  · exact Key.not_text hwrap (by decide) (h.texts _ List.mem_cons_self)

end CppUtil.JsonHelper

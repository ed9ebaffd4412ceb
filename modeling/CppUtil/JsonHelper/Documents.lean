import CppUtil.JsonHelper.Conformance
import CppUtil.JsonHelper.RoundTrip

/-!
# The documents `Marshal` writes

`Ty.Writes` are the documents written with a type, for values whose containers
are neither empty nor too long. What the type of a document is shows in its
form (`Ty.shape_written`): the elements of an array and the members of an object
have been written with the types in it, and every document of such a type is
somewhere in one of the whole type.
-/

namespace CppUtil.JsonHelper

open Lang (Str Exn)

-- ---------------------------------------------------------------------------
-- Types
-- ---------------------------------------------------------------------------

def Ty.elem? : Ty → Option Ty
  | .vector s | .set s | .unorderedSet s => some s
  | _ => none

def Ty.entry? : Ty → Option (Key × Ty)
  | .map k _ s | .unorderedMap k s => some (k, s)
  | _ => none

def Fields.list : Fields → List (Str × Ty)
  | .last name s => [(name, s)]
  | .cons name s rest => (name, s) :: rest.list

def Ty.fields : Ty → List (Str × Ty)
  | .struct fields => fields.list
  | _ => []

def Ty.range? : Ty → Option (Int × Int)
  | .scalar .int32 => some (-2 ^ 31, 2 ^ 31 - 1)
  | .scalar .int64 => some (-2 ^ 63, 2 ^ 63 - 1)
  | .scalar .uint32 => some (0, 2 ^ 32 - 1)
  | .scalar .uint64 => some (0, 2 ^ 64 - 1)
  | _ => none

/-- The types whose documents are described here. -/
structure Ty.Proper (s : Ty) : Prop where
  plain : s.Plain
  names : s.DistinctNames

theorem Ty.Proper.elem {s e : Ty} (hs : s.Proper) (he : s.elem? = some e) : e.Proper := by
  cases s with
  | vector | set | unorderedSet =>
    cases he
    exact ⟨hs.plain, hs.names⟩
  | _ => cases he

theorem Ty.Proper.entry {s e : Ty} {k : Key} (hs : s.Proper) (he : s.entry? = some (k, e)) :
    e.Proper := by
  cases s with
  | map | unorderedMap =>
    cases he
    exact ⟨hs.plain, hs.names⟩
  | _ => cases he

theorem Fields.proper : (fields : Fields) → (∀ s, fields.Has s → s.Plain) → fields.DistinctNames →
    f ∈ fields.list → f.2.Proper
  | .last _ s, hplain, hnames, hf => by
    cases List.mem_singleton.mp hf
    exact ⟨hplain, hnames⟩
  | .cons _ s rest, hplain, hnames, hf => by
    rcases List.mem_cons.mp hf with rfl | hf
    · exact ⟨fun s hs => hplain s (.inl hs), hnames.1⟩
    · exact rest.proper (fun s hs => hplain s (.inr hs)) hnames.2 hf

theorem Ty.Proper.field {fields : Fields} (hs : (Ty.struct fields).Proper) (hf : f ∈ fields.list) :
    f.2.Proper :=
  fields.proper hs.plain hs.names.2 hf

theorem int32_range : (-2 ^ 31 ≤ n ∧ n ≤ 2 ^ 31 - 1) ↔ ∃ x : Int32, x.toInt = n := by
  constructor
  · intro h
    exact ⟨.ofInt n, Int32.toInt_ofInt_of_le h.1 (Int.lt_of_le_sub_one h.2)⟩
  · rintro ⟨x, rfl⟩
    exact ⟨x.le_toInt, Int.le_sub_one_of_lt x.toInt_lt⟩

theorem int64_range : (-2 ^ 63 ≤ n ∧ n ≤ 2 ^ 63 - 1) ↔ ∃ x : Int64, x.toInt = n := by
  constructor
  · intro h
    exact ⟨.ofInt n, Int64.toInt_ofInt_of_le h.1 (Int.lt_of_le_sub_one h.2)⟩
  · rintro ⟨x, rfl⟩
    exact ⟨x.le_toInt, Int.le_sub_one_of_lt x.toInt_lt⟩

theorem uint32_range {n : Int} : (0 ≤ n ∧ n ≤ 2 ^ 32 - 1) ↔ ∃ x : UInt32, x.toNat = n := by
  constructor
  · intro h
    exact ⟨.ofInt n, toNat_ofInt_uint32 ⟨h.1, Int.lt_of_le_sub_one h.2⟩⟩
  · rintro ⟨x, rfl⟩
    have hlt := x.toNat_lt
    omega

theorem uint64_range {n : Int} : (0 ≤ n ∧ n ≤ 2 ^ 64 - 1) ↔ ∃ x : UInt64, x.toNat = n := by
  constructor
  · intro h
    exact ⟨.ofInt n, toNat_ofInt_uint64 ⟨h.1, Int.lt_of_le_sub_one h.2⟩⟩
  · rintro ⟨x, rfl⟩
    have hlt := x.toNat_lt
    omega

-- ---------------------------------------------------------------------------
-- What is written
-- ---------------------------------------------------------------------------

theorem related_mem_right {R : α → β → Prop} (h : List.Forall₂ R xs l) (hc : c ∈ l) :
    ∃ x ∈ xs, R x c := by
  induction h with
  | nil => cases hc
  | cons hR _ ih =>
    rcases List.mem_cons.mp hc with rfl | hc
    · exact ⟨_, List.mem_cons_self, hR⟩
    · obtain ⟨x, hx, hR⟩ := ih hc
      exact ⟨x, List.mem_cons_of_mem _ hx, hR⟩

theorem related_mem_left {R : α → β → Prop} (h : List.Forall₂ R xs l) (hx : x ∈ xs) :
    ∃ c ∈ l, R x c :=
  related_mem_right h.flip hx

theorem ok_unique {x : Except ε (α × β)} (h : x = .ok (a, b)) (h' : x = .ok (a, b')) : b = b' := by
  rw [h] at h'
  exact (Prod.mk.inj (Except.ok.inj h')).2

section
variable {F : Floats}

-- Containers of one element

theorem one_fits : (fun n => n < 2 ^ 31) 1 := by decide

theorem vector_sizes {e : Ty} {x : e.Val F} {seq assoc : Nat → Prop}
    {scalar : (s : Scalar) → s.Val F → Prop} (hseq : seq 1) (hx : e.Each seq assoc scalar x) :
    (Ty.vector e).Each seq assoc scalar [x] :=
  ⟨hseq, List.forall_mem_singleton.mpr hx⟩

theorem set_sizes {e : Ty} {x : e.Val F} {seq assoc : Nat → Prop}
    {scalar : (s : Scalar) → s.Val F → Prop} (hseq : seq 1) (hx : e.Each seq assoc scalar x) :
    (Ty.set e).Each seq assoc scalar ({x} : Finset (e.Val F)) :=
  ⟨hseq, fun y hy => by rwa [Finset.mem_singleton.mp hy]⟩

theorem map_sizes {k : Key} {key : k.Val} {e : Ty} {x : e.Val F} {seq assoc : Nat → Prop}
    {scalar : (s : Scalar) → s.Val F → Prop} (hassoc : assoc 1) (hx : e.Each seq assoc scalar x) :
    (Ty.unorderedMap k e).Each seq assoc scalar
      (Finmap.singleton key x : Finmap fun _ : k.Val => e.Val F) :=
  ⟨hassoc, fun y hy => by rwa [Multiset.mem_singleton.mp hy]⟩

theorem Key.exists_text_ne (k : Key) (name : Str) : ∃ key, k.text key ≠ name := by
  have htwo : ∃ a b : k.Val, a ≠ b := by
    cases k with
    | string => exact ⟨_, _, (by decide : ([] : Str) ≠ ['a'])⟩
    | int32 => exact ⟨_, _, (by decide : (0 : Int32) ≠ 1)⟩
    | uint32 => exact ⟨_, _, (by decide : (0 : UInt32) ≠ 1)⟩
    | int64 => exact ⟨_, _, (by decide : (0 : Int64) ≠ 1)⟩
    | uint64 => exact ⟨_, _, (by decide : (0 : UInt64) ≠ 1)⟩
  obtain ⟨a, b, hab⟩ := htwo
  by_cases ha : k.text a = name
  · exact ⟨b, fun hb => hab (k.text_injective (ha.trans hb.symm))⟩
  · exact ⟨a, ha⟩

theorem Scalar.Plain.nonempty {s : Scalar} (h : s.Plain) : Nonempty (s.Val F) := by
  cases s with
  | bool => exact ⟨false⟩
  | int32 => exact ⟨(0 : Int32)⟩
  | int64 => exact ⟨(0 : Int64)⟩
  | uint32 => exact ⟨(0 : UInt32)⟩
  | uint64 => exact ⟨(0 : UInt64)⟩
  | string => exact ⟨([] : Str)⟩
  | float | double | enum => exact h.elim

mutual
theorem Ty.exists_nonEmpty : (s : Ty) → s.Plain → ∃ v : s.Val F, s.NonEmpty v ∧ s.Fits v
  | .scalar s, hp => by
    obtain ⟨v⟩ := (hp s rfl).nonempty (F := F)
    exact ⟨v, trivial, trivial⟩
  | .vector e, hp => by
    obtain ⟨x, hne, hfit⟩ := e.exists_nonEmpty hp
    exact ⟨[x], vector_sizes Nat.one_pos hne, vector_sizes one_fits hfit⟩
  | .set e, hp | .unorderedSet e, hp => by
    obtain ⟨x, hne, hfit⟩ := e.exists_nonEmpty hp
    exact ⟨({x} : Finset (e.Val F)), set_sizes Nat.one_pos hne, set_sizes one_fits hfit⟩
  | .map k _ e, hp | .unorderedMap k e, hp => by
    obtain ⟨x, hne, hfit⟩ := e.exists_nonEmpty hp
    obtain ⟨key, -⟩ := k.exists_text_ne []
    exact ⟨(Finmap.singleton key x : Finmap fun _ : k.Val => e.Val F), map_sizes Nat.one_pos hne,
      map_sizes trivial hfit⟩
  | .struct fields, hp => fields.exists_nonEmpty hp
theorem Fields.exists_nonEmpty : (fields : Fields) → (∀ s, fields.Has s → s.Plain) →
    ∃ v : fields.Val F, fields.NonEmpty v ∧ fields.Fits v
  | .last _ s, hp => s.exists_nonEmpty hp
  | .cons _ s rest, hp => by
    obtain ⟨x, hne, hfit⟩ := s.exists_nonEmpty fun s hs => hp s (.inl hs)
    obtain ⟨xs, hnes, hfits⟩ := rest.exists_nonEmpty fun s hs => hp s (.inr hs)
    exact ⟨(x, xs), ⟨hne, hnes⟩, hfit, hfits⟩
end

end

section
variable {V : Type} [J : JsonCpp V] {F : Floats} [N : JsonDoubles V F] (D : Documented V)
  (P : Platform)

/-- `Marshal` writes `j` for `v`, none of whose containers is empty or too long. -/
structure Ty.Gives (s : Ty) (v : s.Val F) (j : V) : Prop where
  nonEmpty : s.NonEmpty v
  fits : s.Fits v
  run : s.marshal P v J.null = .ok (true, j)

def Ty.Writes (F : Floats) [JsonDoubles V F] (s : Ty) (j : V) : Prop :=
  ∃ v : s.Val F, s.Gives P v j

theorem Ty.Gives.unique {s : Ty} {v : s.Val F} {j j' : V} (h : s.Gives P v j)
    (h' : s.Gives P v j') : j' = j :=
  ok_unique h'.run h.run

include D in
theorem Ty.emits {s : Ty} (hs : s.Proper) {v : s.Val F} (hne : s.NonEmpty v) (hfit : s.Fits v) :
    Emits (V := V) (s.marshal P) (s.Gives P) v := by
  obtain ⟨j, hj, -⟩ := s.marshal_answers D P (hs.plain.comes D) hs.names v
    (s.countable_iff.mpr ⟨hfit, hs.plain.enumsFit v⟩)
  exact ⟨j, hj, hne, hfit, hj⟩

def ArrayOf (s : Ty) (xs : List (s.Val F)) (j : V) : Prop :=
  ∃ l, D.view j = .array l ∧ l.length < 2 ^ 31 ∧ List.Forall₂ (s.Gives P) xs l

theorem vector_gives {s : Ty} (hs : s.Proper) {v : List (s.Val F)} {j : V}
    (h : (Ty.vector s).Gives P v j) : ArrayOf D P s v j := by
  obtain ⟨hne, hfit, hrun⟩ := h
  obtain ⟨root, l, hroot, hview, hl⟩ :=
    marshalVector_ok D (fun x hx => Ty.emits D P hs (hne.2 x hx) (hfit.2 x hx))
      (List.ne_nil_of_length_pos hne.1) hfit.1
  obtain rfl : root = j := ok_unique hroot hrun
  exact ⟨l, hview, hl.length_eq ▸ hfit.1, hl⟩

theorem set_gives {s : Ty} (hs : s.Proper) {v : Finset (s.Val F)} {xs : List (s.Val F)} {j : V}
    (hxs : (xs : Multiset (s.Val F)) = v.val) (hne : (Ty.set s).NonEmpty v)
    (hfit : (Ty.set s).Fits v) (hrun : marshalSet (s.marshal P) xs true J.null = .ok (true, j)) :
    ArrayOf D P s xs j := by
  have hcard : xs.length = v.card := by rw [Finset.card, ← hxs, Multiset.coe_card]
  have hpos : 0 < v.card := hne.1
  have hlt : v.card < 2 ^ 31 := hfit.1
  have hnull : (D.view J.null).elems? = some [] := by rw [D.view_null]; rfl
  have hmem : ∀ x ∈ xs, Emits (V := V) (s.marshal P) (s.Gives P) x := by
    intro x hx
    rw [← Multiset.mem_coe, hxs] at hx
    exact Ty.emits D P hs (hne.2 x hx) (hfit.2 x hx)
  obtain ⟨root, l, hroot, hview, hl⟩ := marshalSet_ok D hmem hnull
    (by simp only [List.length_nil, maxSize]; omega) true
  obtain rfl : root = j := ok_unique hroot hrun
  have hlength : xs.length = l.length := hl.length_eq
  exact ⟨l, View.elems?_array hview (List.ne_nil_of_length_pos (by omega)), by omega, hl⟩

theorem array_written {s e : Ty} (he : s.elem? = some e) (hs : s.Proper) {j : V}
    (h : s.Writes P F j) :
    ∃ l, D.view j = .array l ∧ l.length < 2 ^ 31 ∧ ∀ c ∈ l, e.Writes P F c := by
  have hxs : ∃ xs : List (e.Val F), ArrayOf D P e xs j := by
    have hproper := hs.elem he
    obtain ⟨v, hv⟩ := h
    cases s with
    | vector s =>
      cases he
      exact ⟨v, vector_gives (s := e) D P hproper hv⟩
    | set s =>
      cases he
      exact ⟨_, set_gives (s := e) D P hproper (P.ordered.set_coe v) hv.nonEmpty hv.fits hv.run⟩
    | unorderedSet s =>
      cases he
      exact ⟨_, set_gives (s := e) D P hproper (P.unordered.set_coe v) hv.nonEmpty hv.fits hv.run⟩
    | _ => cases he
  obtain ⟨xs, l, hview, hlen, hl⟩ := hxs
  refine ⟨l, hview, hlen, fun c hc => ?_⟩
  obtain ⟨x, -, hx⟩ := related_mem_right hl hc
  exact ⟨x, hx⟩

theorem array_writes {s e : Ty} (he : s.elem? = some e) (hs : s.Proper) {c : V}
    (hc : e.Writes P F c) :
    ∃ j l, s.Writes P F j ∧ D.view j = .array l ∧ l.length < 2 ^ 31 ∧ c ∈ l := by
  obtain ⟨x, hx⟩ := hc
  -- a container with `x` alone
  have hxs : ∃ j xs, s.Writes P F j ∧ ArrayOf D P e xs j ∧ x ∈ xs := by
    have hproper := hs.elem he
    have hset : ∀ xs : List (e.Val F), (xs : Multiset (e.Val F)) = ({x} : Finset (e.Val F)).val →
        x ∈ xs := by
      intro xs hxs
      rw [← Multiset.mem_coe, hxs]
      exact Multiset.mem_singleton_self x
    cases s with
    | vector s =>
      cases he
      obtain ⟨j, -, hj⟩ := Ty.emits (s := .vector e) (v := [x]) D P hs
        (vector_sizes Nat.one_pos hx.nonEmpty) (vector_sizes one_fits hx.fits)
      exact ⟨j, [x], ⟨_, hj⟩, vector_gives (s := e) D P hproper hj, List.mem_singleton_self x⟩
    | set s =>
      cases he
      obtain ⟨j, -, hj⟩ := Ty.emits (s := .set e) (v := ({x} : Finset (e.Val F))) D P hs
        (set_sizes Nat.one_pos hx.nonEmpty) (set_sizes one_fits hx.fits)
      have hlist := P.ordered.set_coe ({x} : Finset (e.Val F))
      exact ⟨j, _, ⟨_, hj⟩, set_gives (s := e) D P hproper hlist hj.nonEmpty hj.fits hj.run,
        hset _ hlist⟩
    | unorderedSet s =>
      cases he
      obtain ⟨j, -, hj⟩ := Ty.emits (s := .unorderedSet e) (v := ({x} : Finset (e.Val F))) D P hs
        (set_sizes Nat.one_pos hx.nonEmpty) (set_sizes one_fits hx.fits)
      have hlist := P.unordered.set_coe ({x} : Finset (e.Val F))
      exact ⟨j, _, ⟨_, hj⟩, set_gives (s := e) D P hproper hlist hj.nonEmpty hj.fits hj.run,
        hset _ hlist⟩
    | _ => cases he
  obtain ⟨j, xs, hj, ⟨l, hview, hlen, hl⟩, hmem⟩ := hxs
  obtain ⟨c', hc', hgives⟩ := related_mem_left hl hmem
  rw [hx.unique P hgives] at hc'
  exact ⟨j, l, hj, hview, hlen, hc'⟩

def ObjectOf (k : Key) (s : Ty) (es : List (Sigma fun _ : k.Val => s.Val F)) (j : V) : Prop :=
  ∃ m, D.view j = .object m ∧
    List.Forall₂ (fun e q => q.1 = k.text e.1 ∧ s.Gives P e.2 q.2) es m

theorem map_gives {k : Key} {s : Ty} (hs : s.Proper) {v : Finmap fun _ : k.Val => s.Val F}
    {l : List (Sigma fun _ : k.Val => s.Val F)} {j : V} (hl : (l : Multiset _) = v.entries)
    (hne : (Ty.unorderedMap k s).NonEmpty v) (hfit : (Ty.unorderedMap k s).Fits v)
    (hrun : marshalMap (s.marshal P) (l.map fun e => (k.text e.1, e.2)) true J.null =
      .ok (true, j)) :
    ∃ es : List (Sigma fun _ : k.Val => s.Val F), (es : Multiset _) = v.entries ∧
      ObjectOf D P k s es j := by
  obtain ⟨root, m, hroot, hview, es, hes, hm⟩ := marshalMap_entries D hl
    fun e he => Ty.emits D P hs (hne.2 e he) (hfit.2 e he)
  obtain rfl : root = j := ok_unique hroot hrun
  have hlength : 0 < m.length := by
    rw [← hm.length_eq, ← Multiset.coe_card, hes]
    exact hne.1
  exact ⟨es, hes, m, View.members?_object hview (List.ne_nil_of_length_pos hlength), hm⟩

theorem map_written {s e : Ty} {k : Key} (he : s.entry? = some (k, e)) (hs : s.Proper) {j : V}
    (h : s.Writes P F j) :
    ∃ m, D.view j = .object m ∧ ∀ q ∈ m, (∃ key, q.1 = k.text key) ∧ e.Writes P F q.2 := by
  have hes : ∃ es : List (Sigma fun _ : k.Val => e.Val F), ObjectOf D P k e es j := by
    have hproper := hs.entry he
    obtain ⟨v, hv⟩ := h
    cases s with
    | map k _ s =>
      cases he
      obtain ⟨es, -, hes⟩ :=
        map_gives (s := e) D P hproper (P.ordered.map_coe v) hv.nonEmpty hv.fits hv.run
      exact ⟨es, hes⟩
    | unorderedMap k s =>
      cases he
      obtain ⟨es, -, hes⟩ :=
        map_gives (s := e) D P hproper (P.unordered.map_coe v) hv.nonEmpty hv.fits hv.run
      exact ⟨es, hes⟩
    | _ => cases he
  obtain ⟨es, m, hview, hm⟩ := hes
  refine ⟨m, hview, fun q hq => ?_⟩
  obtain ⟨x, -, hkey, hx⟩ := related_mem_right hm hq
  exact ⟨⟨x.1, hkey⟩, x.2, hx⟩

theorem map_writes {s e : Ty} {k : Key} (he : s.entry? = some (k, e)) (hs : s.Proper) {c : V}
    (hc : e.Writes P F c) (key : k.Val) :
    ∃ j, s.Writes P F j ∧ D.view j = .object [(k.text key, c)] := by
  obtain ⟨x, hx⟩ := hc
  have hes : ∃ j, s.Writes P F j ∧ ObjectOf D P k e [⟨key, x⟩] j := by
    let v : Finmap fun _ : k.Val => e.Val F := Finmap.singleton key x
    have hproper := hs.entry he
    cases s with
    | map k hk s =>
      cases he
      obtain ⟨j, -, hj⟩ := Ty.emits (s := .map k hk e) (v := v) D P hs
        (map_sizes Nat.one_pos hx.nonEmpty) (map_sizes trivial hx.fits)
      obtain ⟨es, hes, hobj⟩ :=
        map_gives (s := e) D P hproper (P.ordered.map_coe v) hj.nonEmpty hj.fits hj.run
      rw [Multiset.coe_eq_singleton.mp hes] at hobj
      exact ⟨j, ⟨_, hj⟩, hobj⟩
    | unorderedMap k s =>
      cases he
      obtain ⟨j, -, hj⟩ := Ty.emits (s := .unorderedMap k e) (v := v) D P hs
        (map_sizes Nat.one_pos hx.nonEmpty) (map_sizes trivial hx.fits)
      obtain ⟨es, hes, hobj⟩ :=
        map_gives (s := e) D P hproper (P.unordered.map_coe v) hj.nonEmpty hj.fits hj.run
      rw [Multiset.coe_eq_singleton.mp hes] at hobj
      exact ⟨j, ⟨_, hj⟩, hobj⟩
    | _ => cases he
  obtain ⟨j, hj, m, hview, hm⟩ := hes
  obtain ⟨q, m', ⟨hkey, hgives⟩, hm', rfl⟩ := List.forall₂_cons_left_iff.mp hm
  rw [List.forall₂_nil_left_iff] at hm'
  refine ⟨j, hj, ?_⟩
  rw [hview, hm', ← hkey, ← hx.unique P hgives]

-- ---------------------------------------------------------------------------
-- Structs
-- ---------------------------------------------------------------------------

def Fields.Gives : (fields : Fields) → fields.Val F → List (Str × V) → Prop
  | .last name s, v, js => ∃ j, js = [(name, j)] ∧ s.Gives P v j
  | .cons name s rest, v, js =>
    ∃ j js', js = (name, j) :: js' ∧ s.Gives P v.1 j ∧ rest.Gives v.2 js'

theorem Fields.marshal_gives : (fields : Fields) → (∀ s, fields.Has s → s.Plain) →
    fields.DistinctNames → fields.names.Nodup → (v : fields.Val F) → fields.NonEmpty v →
    fields.Fits v → {root : V} → {done : List (Str × V)} → (D.view root).members? = some done →
    (∀ name ∈ fields.names, name ∉ done.map Prod.fst) → (ret : Bool) →
    ∃ root' m js, fields.marshal P v ret root = .ok (ret, root') ∧
      (D.view root').members? = some m ∧ m.Perm (js ++ done) ∧ fields.Gives P v js
  | .last name s, hp, hd, _, v, hne, hfit, root, done, hview, hnew, ret => by
    obtain ⟨j, next, hj, hnext, hperm, href, hrun⟩ := field_written D
      (Ty.emits D P ⟨hp, hd⟩ hne hfit) hview (hnew name List.mem_cons_self)
    refine ⟨_, next, [(name, j)], ?_, hnext, hperm, j, rfl, hj⟩
    simp only [Fields.marshal, href, ok_bind, hrun, Bool.and_true]
  | .cons name s rest, hp, hd, hnames, v, hne, hfit, root, done, hview, hnew, ret => by
    obtain ⟨hfirst, hrest⟩ := List.nodup_cons.mp hnames
    obtain ⟨j, next, hj, hnext, hperm, href, hrun⟩ := field_written D
      (Ty.emits D P ⟨fun s hs => hp s (.inl hs), hd.1⟩ hne.1 hfit.1) hview
      (hnew name List.mem_cons_self)
    have hnew' : ∀ n ∈ rest.names, n ∉ next.map Prod.fst := by
      intro n hn hmem
      rcases List.mem_cons.mp ((hperm.map Prod.fst).mem_iff.mp hmem) with rfl | h
      · exact hfirst hn
      · exact hnew n (List.mem_cons_of_mem _ hn) h
    obtain ⟨root', m, js, hrun', hm, hperm', hjs⟩ := rest.marshal_gives
      (fun s hs => hp s (.inr hs)) hd.2 hrest v.2 hne.2 hfit.2 hnext hnew' ret
    refine ⟨root', m, (name, j) :: js, ?_, hm, ?_, j, js, rfl, hj, hjs⟩
    · simp only [Fields.marshal, href, ok_bind, hrun, Bool.and_true, hrun']
    · exact (hperm'.trans (hperm.append_left js)).trans List.perm_middle

theorem struct_gives {fields : Fields} (hs : (Ty.struct fields).Proper) {v : fields.Val F} {j : V}
    (h : (Ty.struct fields).Gives P v j) :
    ∃ m js, (D.view j).members? = some m ∧ m.Perm js ∧ fields.Gives P v js := by
  have hnull : (D.view J.null).members? = some [] := by rw [D.view_null]; rfl
  obtain ⟨root, m, js, hroot, hview, hperm, hjs⟩ := fields.marshal_gives D P hs.plain hs.names.2
    hs.names.1 v h.nonEmpty h.fits hnull (by simp) true
  obtain rfl : root = j := ok_unique hroot h.run
  rw [List.append_nil] at hperm
  exact ⟨m, js, hview, hperm, hjs⟩

variable {P}

theorem Fields.Gives.field : {fields : Fields} → {v : fields.Val F} → {js : List (Str × V)} →
    fields.Gives P v js → q ∈ js → ∃ e, (q.1, e) ∈ fields.list ∧ e.Writes P F q.2
  | .last name s, v, _, ⟨j, hjs, hj⟩, hq => by
    rw [hjs, List.mem_singleton] at hq
    cases hq
    exact ⟨s, List.mem_cons_self, v, hj⟩
  | .cons name s rest, v, _, ⟨j, js, hjs, hj, hrest⟩, hq => by
    rw [hjs] at hq
    rcases List.mem_cons.mp hq with rfl | hq
    · exact ⟨s, List.mem_cons_self, v.1, hj⟩
    · obtain ⟨e, he, hw⟩ := hrest.field hq
      exact ⟨e, List.mem_cons_of_mem _ he, hw⟩

theorem Fields.Gives.member : {fields : Fields} → {v : fields.Val F} → {js : List (Str × V)} →
    fields.Gives P v js → f ∈ fields.list → ∃ c, (f.1, c) ∈ js ∧ f.2.Writes P F c
  | .last name s, v, _, ⟨j, hjs, hj⟩, hf => by
    rw [hjs]
    cases List.mem_singleton.mp hf
    exact ⟨j, List.mem_cons_self, v, hj⟩
  | .cons name s rest, v, _, ⟨j, js, hjs, hj, hrest⟩, hf => by
    rw [hjs]
    rcases List.mem_cons.mp hf with rfl | hf
    · exact ⟨j, List.mem_cons_self, v.1, hj⟩
    · obtain ⟨c, hc, hw⟩ := hrest.member hf
      exact ⟨c, List.mem_cons_of_mem _ hc, hw⟩

variable (P)

theorem Fields.list_ne_nil (fields : Fields) : fields.list ≠ [] := by
  cases fields <;> exact List.cons_ne_nil _ _

theorem struct_written {fields : Fields} (hs : (Ty.struct fields).Proper) {j : V}
    (h : (Ty.struct fields).Writes P F j) :
    ∃ m, D.view j = .object m ∧ (∀ q ∈ m, ∃ e, (q.1, e) ∈ fields.list ∧ e.Writes P F q.2) ∧
      ∀ f ∈ fields.list, ∃ c, (f.1, c) ∈ m ∧ f.2.Writes P F c := by
  obtain ⟨v, hv⟩ := h
  obtain ⟨m, js, hview, hperm, hjs⟩ := struct_gives D P hs hv
  have hmember : ∀ f ∈ fields.list, ∃ c, (f.1, c) ∈ m ∧ f.2.Writes P F c := by
    intro f hf
    obtain ⟨c, hc, hw⟩ := hjs.member hf
    exact ⟨c, hperm.mem_iff.mpr hc, hw⟩
  obtain ⟨f, hf⟩ := List.exists_mem_of_ne_nil _ fields.list_ne_nil
  obtain ⟨c, hc, -⟩ := hmember f hf
  exact ⟨m, View.members?_object hview (List.ne_nil_of_mem hc),
    fun q hq => hjs.field (hperm.mem_iff.mp hq), hmember⟩

theorem Fields.exists_field {e : Ty} {x : e.Val F} {c : V} (hx : e.Gives P x c) :
    (fields : Fields) → (∀ s, fields.Has s → s.Plain) → (name, e) ∈ fields.list →
    ∃ v : fields.Val F, fields.NonEmpty v ∧ fields.Fits v ∧
      ∀ js, fields.Gives P v js → (name, c) ∈ js
  | .last name' s, _, h => by
    cases List.mem_singleton.mp h
    refine ⟨x, hx.nonEmpty, hx.fits, ?_⟩
    rintro _ ⟨j, rfl, hj⟩
    rw [hx.unique P hj]
    exact List.mem_cons_self
  | .cons name' s rest, hp, h => by
    rcases List.mem_cons.mp h with heq | h
    · cases heq
      obtain ⟨xs, hne, hfit⟩ := rest.exists_nonEmpty (F := F) fun s hs => hp s (.inr hs)
      refine ⟨(x, xs), ⟨hx.nonEmpty, hne⟩, ⟨hx.fits, hfit⟩, ?_⟩
      rintro _ ⟨j, js, rfl, hj, -⟩
      rw [hx.unique P hj]
      exact List.mem_cons_self
    · obtain ⟨y, hne, hfit⟩ := s.exists_nonEmpty (F := F) fun s hs => hp s (.inl hs)
      obtain ⟨xs, hnes, hfits, hmem⟩ := rest.exists_field hx (fun s hs => hp s (.inr hs)) h
      refine ⟨(y, xs), ⟨hne, hnes⟩, ⟨hfit, hfits⟩, ?_⟩
      rintro _ ⟨j, js, rfl, -, hjs⟩
      exact List.mem_cons_of_mem _ (hmem js hjs)

theorem struct_writes {fields : Fields} (hs : (Ty.struct fields).Proper) {e : Ty}
    (he : (name, e) ∈ fields.list) {c : V} (hc : e.Writes P F c) :
    ∃ j m, (Ty.struct fields).Writes P F j ∧ D.view j = .object m ∧ (name, c) ∈ m := by
  obtain ⟨x, hx⟩ := hc
  obtain ⟨v, hne, hfit, hmem⟩ := fields.exists_field P hx hs.plain he
  obtain ⟨j, -, hj⟩ := Ty.emits (s := .struct fields) D P hs hne hfit
  obtain ⟨m, js, hview, hperm, hjs⟩ := struct_gives D P hs hj
  have hm : (name, c) ∈ m := hperm.mem_iff.mpr (hmem js hjs)
  exact ⟨j, m, ⟨v, hj⟩, View.members?_object hview (List.ne_nil_of_mem hm), hm⟩

include D in
theorem Ty.exists_writes (F : Floats) [JsonDoubles V F] (s : Ty) (hs : s.Proper) :
    ∃ j : V, s.Writes P F j := by
  obtain ⟨v, hne, hfit⟩ := s.exists_nonEmpty (F := F) hs.plain
  obtain ⟨j, -, hj⟩ := Ty.emits D P hs hne hfit
  exact ⟨j, v, hj⟩

-- ---------------------------------------------------------------------------
-- The form of a document
-- ---------------------------------------------------------------------------

theorem Ty.struct_of_fields {s : Ty} (h : s.fields ≠ []) : ∃ fields, s = .struct fields := by
  cases s with
  | struct fields => exact ⟨fields, rfl⟩
  | _ => exact absurd rfl h

theorem int_written {s : Ty} (hr : s.range? = some r) {j : V} (h : s.Writes P F j) :
    ∃ n, D.view j = .int n ∧ r.1 ≤ n ∧ n ≤ r.2 := by
  obtain ⟨v, hv⟩ := h
  cases s with
  | scalar s =>
    cases s with
    | int32 =>
      cases hr
      cases hv.run
      exact ⟨_, D.view_ofInt v, int32_range.mpr ⟨v, rfl⟩⟩
    | int64 =>
      cases hr
      cases hv.run
      exact ⟨_, D.view_ofInt64 v, int64_range.mpr ⟨v, rfl⟩⟩
    | uint32 =>
      cases hr
      cases hv.run
      exact ⟨_, D.view_ofUInt v, uint32_range.mpr ⟨v, rfl⟩⟩
    | uint64 =>
      cases hr
      cases hv.run
      exact ⟨_, D.view_ofUInt64 v, uint64_range.mpr ⟨v, rfl⟩⟩
    | _ => cases hr
  | _ => cases hr

theorem int_writes {s : Ty} (hr : s.range? = some r) (hn : r.1 ≤ n ∧ n ≤ r.2) :
    ∃ j : V, s.Writes P F j ∧ D.view j = .int n := by
  cases s with
  | scalar s =>
    cases s with
    | int32 =>
      cases hr
      obtain ⟨x, rfl⟩ := int32_range.mp hn
      exact ⟨J.ofInt x, ⟨x, trivial, trivial, rfl⟩, D.view_ofInt x⟩
    | int64 =>
      cases hr
      obtain ⟨x, rfl⟩ := int64_range.mp hn
      exact ⟨J.ofInt64 x, ⟨x, trivial, trivial, rfl⟩, D.view_ofInt64 x⟩
    | uint32 =>
      cases hr
      obtain ⟨x, rfl⟩ := uint32_range.mp hn
      exact ⟨J.ofUInt x, ⟨x, trivial, trivial, rfl⟩, D.view_ofUInt x⟩
    | uint64 =>
      cases hr
      obtain ⟨x, rfl⟩ := uint64_range.mp hn
      exact ⟨J.ofUInt64 x, ⟨x, trivial, trivial, rfl⟩, D.view_ofUInt64 x⟩
    | _ => cases hr
  | _ => cases hr

/-- What the view of a document says about the type it was written with. -/
def Ty.Shape (s : Ty) : View V → Prop
  | .null | .real => False
  | .int _ => ∃ r, s.range? = some r
  | .bool _ => s = .scalar .bool
  | .string _ => s = .scalar .string
  | .array _ => ∃ e, s.elem? = some e
  | .object _ => (∃ k e, s.entry? = some (k, e)) ∨ s.fields ≠ []

theorem Ty.shape_written {s : Ty} (hs : s.Proper) {j : V} (h : s.Writes P F j) :
    s.Shape (D.view j) := by
  cases s with
  | scalar s =>
    cases s with
    | bool =>
      obtain ⟨v, hv⟩ := h
      cases hv.run
      rw [Scalar.of, D.view_ofBool v]
      rfl
    | string =>
      obtain ⟨v, hv⟩ := h
      cases hv.run
      rw [Scalar.of, D.view_ofString v]
      rfl
    | int32 | int64 | uint32 | uint64 =>
      obtain ⟨n, hview, -⟩ := int_written D P rfl h
      rw [hview]
      exact ⟨_, rfl⟩
    | float | double | enum => exact (hs.plain _ rfl).elim
  | vector | set | unorderedSet =>
    obtain ⟨l, hview, -⟩ := array_written D P rfl hs h
    rw [hview]
    exact ⟨_, rfl⟩
  | map | unorderedMap =>
    obtain ⟨m, hview, -⟩ := map_written D P rfl hs h
    rw [hview]
    exact .inl ⟨_, _, rfl⟩
  | struct fields =>
    obtain ⟨m, hview, -⟩ := struct_written D P hs h
    rw [hview]
    exact .inr fields.list_ne_nil

end

end CppUtil.JsonHelper

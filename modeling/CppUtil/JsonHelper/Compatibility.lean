import CppUtil.JsonHelper.Documents

/-!
# Types that read what other types write

A document is written by a program with one type and read by a program with
another one. `Ty.Takes` compares the two types, without a document:
integers may get wider, vectors and sets stand for each other, a struct can be
read with fewer fields or as a map. `reads_all_iff_takes` says that this is
exact: the reader accepts everything the writer writes, short of empty
containers, if and only if its type takes the writer's.
-/

namespace CppUtil.JsonHelper

open Lang (Str Exn)

-- ---------------------------------------------------------------------------
-- Comparing types
-- ---------------------------------------------------------------------------

def Key.range? : Key → Option (Int × Int)
  | .string => none
  | .int32 => some (-2 ^ 31, 2 ^ 31 - 1)
  | .uint32 => some (0, 2 ^ 32 - 1)
  | .int64 => some (-2 ^ 63, 2 ^ 63 - 1)
  | .uint64 => some (0, 2 ^ 64 - 1)

/-- The integers whose text a key's conversion takes. The unsigned ones take
negative texts, too. -/
def Key.Accepts : Key → Int → Prop
  | .string, _ => True
  | .int32, n => -2 ^ 31 ≤ n ∧ n < 2 ^ 31
  | .int64, n => -2 ^ 63 ≤ n ∧ n < 2 ^ 63
  | .uint32, n | .uint64, n => n.natAbs < 2 ^ 64

def Key.Takes (k k' : Key) : Prop :=
  k = .string ∨ ∃ r, k'.range? = some r ∧ k.Accepts r.1 ∧ k.Accepts r.2

def Scalar.Takes : Scalar → Ty → Prop
  | .bool, s => s = .scalar .bool
  | .string, s => s = .scalar .string
  | b, s => ∃ r, s.range? = some r ∧ b.InRange r.1 ∧ b.InRange r.2

/-- A map is read from a map or from a struct whose fields are named like keys. -/
def Key.TakesMembers (k : Key) (takes : Ty → Prop) (s : Ty) : Prop :=
  (∃ k' e, s.entry? = some (k', e) ∧ k.Takes k' ∧ takes e) ∨
    (s.fields ≠ [] ∧ ∀ f ∈ s.fields, (∃ key, k.parse f.1 = .ok key) ∧ takes f.2)

mutual
/-- Everything that is written with the second type can be read with the first. -/
def Ty.Takes : Ty → Ty → Prop
  | .scalar b, s => b.Takes s
  | .vector t, s | .set t, s | .unorderedSet t, s => ∃ e, s.elem? = some e ∧ t.Takes e
  | .map k _ t, s | .unorderedMap k t, s => k.TakesMembers t.Takes s
  | .struct fields, s => fields.Takes s.fields
def Fields.Takes : Fields → List (Str × Ty) → Prop
  | .last name t, fs => ∃ e, (name, e) ∈ fs ∧ t.Takes e
  | .cons name t rest, fs => (∃ e, (name, e) ∈ fs ∧ t.Takes e) ∧ rest.Takes fs
end

-- ---------------------------------------------------------------------------
-- Keys
-- ---------------------------------------------------------------------------

theorem sto_returns {fits : Int → Bool} {convert : Int → α} (n : Int) :
    (∃ x, Lang.sto fits convert (Lang.stdToString n) = .ok x) ↔ fits n = true := by
  rw [Lang.sto, Lang.readInt_stdToString]
  exact ite_ok_iff

theorem Key.parse_stdToString (k : Key) (n : Int) :
    (∃ key, k.parse (Lang.stdToString n) = .ok key) ↔ k.Accepts n := by
  cases k with
  | string => exact iff_of_true ⟨_, rfl⟩ trivial
  | int32 | int64 | uint64 => exact (sto_returns n).trans decide_eq_true_iff
  | uint32 =>
    have hstoull : (∃ x, Lang.stoull (Lang.stdToString n) = .ok x) ↔ n.natAbs < 2 ^ 64 :=
      (sto_returns n).trans decide_eq_true_iff
    refine Iff.trans ?_ hstoull
    simp only [Key.parse, Lang.stoul]
    cases Lang.stoull (Lang.stdToString n) with
    | error e => simp [Except.map]
    | ok x => exact iff_of_true ⟨_, rfl⟩ ⟨_, rfl⟩

theorem Key.Accepts.between {k : Key} (hlo : k.Accepts lo) (hhi : k.Accepts hi) (h : lo ≤ n)
    (h' : n ≤ hi) : k.Accepts n := by
  cases k <;> simp only [Key.Accepts] at * <;> omega

theorem Key.text_int {k : Key} (hr : k.range? = some r) (key : k.Val) :
    ∃ n, k.text key = Lang.stdToString n ∧ r.1 ≤ n ∧ n ≤ r.2 := by
  cases k with
  | string => cases hr
  | int32 =>
    cases hr
    exact ⟨_, rfl, int32_range.mpr ⟨key, rfl⟩⟩
  | int64 =>
    cases hr
    exact ⟨_, rfl, int64_range.mpr ⟨key, rfl⟩⟩
  | uint32 =>
    cases hr
    exact ⟨_, rfl, uint32_range.mpr ⟨key, rfl⟩⟩
  | uint64 =>
    cases hr
    exact ⟨_, rfl, uint64_range.mpr ⟨key, rfl⟩⟩

theorem Key.int_text {k : Key} (hr : k.range? = some r) (hn : r.1 ≤ n ∧ n ≤ r.2) :
    ∃ key, k.text key = Lang.stdToString n := by
  cases k with
  | string => cases hr
  | int32 =>
    cases hr
    obtain ⟨x, rfl⟩ := int32_range.mp hn
    exact ⟨x, rfl⟩
  | int64 =>
    cases hr
    obtain ⟨x, rfl⟩ := int64_range.mp hn
    exact ⟨x, rfl⟩
  | uint32 =>
    cases hr
    obtain ⟨x, rfl⟩ := uint32_range.mp hn
    exact ⟨x, rfl⟩
  | uint64 =>
    cases hr
    obtain ⟨x, rfl⟩ := uint64_range.mp hn
    exact ⟨x, rfl⟩

theorem Key.range_le {k : Key} (hr : k.range? = some r) : r.1 ≤ r.2 := by
  obtain ⟨key, -⟩ := k.exists_text_ne []
  obtain ⟨n, -, hlo, hhi⟩ := Key.text_int hr key
  exact hlo.trans hhi

theorem Key.parse_letter {k : Key} (h : ∃ key, k.parse ['x'] = .ok key) : k = .string := by
  obtain ⟨key, h⟩ := h
  cases k with
  | string => rfl
  | _ => cases h

theorem Key.takes_iff (k k' : Key) :
    k.Takes k' ↔ ∀ key, ∃ key', k.parse (k'.text key) = .ok key' := by
  constructor
  · rintro (rfl | ⟨r, hr, hlo, hhi⟩) key
    · exact ⟨_, rfl⟩
    · obtain ⟨n, hn, h, h'⟩ := Key.text_int hr key
      rw [hn, Key.parse_stdToString]
      exact hlo.between hhi h h'
  · intro h
    cases hr : k'.range? with
    | none =>
      cases k' with
      | string => exact .inl (Key.parse_letter (h ['x']))
      | _ => cases hr
    | some r =>
      -- the least and the greatest key decide
      have hle := Key.range_le hr
      obtain ⟨lo, hlo⟩ := Key.int_text hr ⟨le_rfl, hle⟩
      obtain ⟨hi, hhi⟩ := Key.int_text hr ⟨hle, le_rfl⟩
      refine .inr ⟨r, hr, (k.parse_stdToString _).mp ?_, (k.parse_stdToString _).mp ?_⟩
      · rw [← hlo]
        exact h lo
      · rw [← hhi]
        exact h hi

-- ---------------------------------------------------------------------------
-- What is read
-- ---------------------------------------------------------------------------

section
variable {V : Type} [J : JsonCpp V] {F : Floats} [N : JsonDoubles V F]
variable (D : DocumentedReads V F) (P : Platform)

/-- The document is read without an exception, and the flag is true. -/
def Ty.Accepts (t : Ty) (v : V) : Prop := t.Conforms D visited v ∧ t.Safe D v

theorem Scalar.InRange.between {b : Scalar} (hlo : b.InRange lo) (hhi : b.InRange hi) (h : lo ≤ n)
    (h' : n ≤ hi) : b.InRange n := by
  cases b <;> simp only [Scalar.InRange] at * <;> omega

theorem Scalar.is_number {b : Scalar} (hbool : b ≠ .bool) (hstring : b ≠ .string)
    (hview : D.view v = .int n) : b.is F v = true := by
  cases b with
  | bool => exact absurd rfl hbool
  | string => exact absurd rfl hstring
  | float | double => exact (D.isDouble v).mpr (.inr ⟨n, hview⟩)
  | _ => exact D.isIntegral v n hview

theorem Scalar.accepts_written {b : Scalar} {s : Ty} (htakes : b.Takes s) (h : s.Writes P F v) :
    (Ty.scalar b).Accepts D v := by
  cases b with
  | bool =>
    cases htakes
    obtain ⟨x, hx⟩ := h
    cases hx.run
    exact ⟨(D.isBool _).mpr ⟨x, D.view_ofBool x⟩, fun _ _ => trivial⟩
  | string =>
    cases htakes
    obtain ⟨x, hx⟩ := h
    cases hx.run
    exact ⟨(D.isString _).mpr ⟨x, D.view_ofString x⟩, fun _ _ => trivial⟩
  | _ =>
    obtain ⟨r, hr, hlo, hhi⟩ := htakes
    obtain ⟨n, hn, hle, hle'⟩ := int_written D.toDocumented P hr h
    refine ⟨Scalar.is_number D (by simp) (by simp) hn, fun n' hn' => ?_⟩
    cases hn.symm.trans hn'
    exact hlo.between hhi hle hle'

theorem Scalar.takes_number {b : Scalar} {s : Ty} (hs : s.Proper)
    (hb : ∀ v, b.is F v = true → D.view v = .real ∨ ∃ n, D.view v = .int n)
    (h : ∀ v, s.Writes P F v → (Ty.scalar b).Accepts D v) :
    ∃ r, s.range? = some r ∧ b.InRange r.1 ∧ b.InRange r.2 := by
  obtain ⟨v, hv⟩ := Ty.exists_writes D.toDocumented P F s hs
  have hshape := Ty.shape_written D.toDocumented P hs hv
  rcases hb v (h v hv).1 with hreal | ⟨n, hn⟩
  · rw [hreal] at hshape
    exact hshape.elim
  · rw [hn] at hshape
    obtain ⟨r, hr⟩ := hshape
    obtain ⟨_, -, hlo, hhi⟩ := int_written D.toDocumented P hr hv
    have hin : ∀ n, r.1 ≤ n ∧ n ≤ r.2 → b.InRange n := by
      intro n hn
      obtain ⟨j, hj, hview⟩ := int_writes (F := F) D.toDocumented P hr hn
      exact (h j hj).2 n hview
    exact ⟨r, hr, hin _ ⟨le_rfl, hlo.trans hhi⟩, hin _ ⟨hlo.trans hhi, le_rfl⟩⟩

theorem Scalar.takes_of_accepts {b : Scalar} {s : Ty} (hs : s.Proper)
    (h : ∀ v, s.Writes P F v → (Ty.scalar b).Accepts D v) : b.Takes s := by
  obtain ⟨v, hv⟩ := Ty.exists_writes D.toDocumented P F s hs
  have hshape := Ty.shape_written D.toDocumented P hs hv
  cases b with
  | bool =>
    obtain ⟨x, hx⟩ := (D.isBool v).mp (h v hv).1
    rw [hx] at hshape
    exact hshape
  | string =>
    obtain ⟨x, hx⟩ := (D.isString v).mp (h v hv).1
    rw [hx] at hshape
    exact hshape
  | float | double => exact Scalar.takes_number D P hs (fun v hv => (D.isDouble v).mp hv) h
  | _ => exact Scalar.takes_number D P hs (fun v hv => .inr (D.integral v hv)) h

-- ---------------------------------------------------------------------------
-- Types that take each other
-- ---------------------------------------------------------------------------

theorem members_written {k : Key} {takes : Ty → Prop} {s : Ty} (ht : k.TakesMembers takes s)
    (hs : s.Proper) (h : s.Writes P F v) :
    ∃ m, D.view v = .object m ∧ ∀ q ∈ m, (∃ key, k.parse q.1 = .ok key) ∧
      ∃ e : Ty, takes e ∧ e.Proper ∧ e.Writes P F q.2 := by
  rcases ht with ⟨k', e, he, hkey, hte⟩ | ⟨hne, hall⟩
  · obtain ⟨m, hm, hwritten⟩ := map_written D.toDocumented P he hs h
    refine ⟨m, hm, fun q hq => ?_⟩
    obtain ⟨⟨key, htext⟩, hw⟩ := hwritten q hq
    rw [htext]
    exact ⟨(k.takes_iff k').mp hkey key, e, hte, hs.entry he, hw⟩
  · obtain ⟨fields, rfl⟩ := Ty.struct_of_fields hne
    obtain ⟨m, hm, hwritten, -⟩ := struct_written D.toDocumented P hs h
    refine ⟨m, hm, fun q hq => ?_⟩
    obtain ⟨e, he, hw⟩ := hwritten q hq
    exact ⟨(hall _ he).1, e, (hall _ he).2, hs.field he, hw⟩

theorem Fields.exists_taken (members : Fields) {fs : List (Str × Ty)} (h : members.Takes fs) :
    ∃ f, f ∈ fs := by
  cases members with
  | last name t =>
    obtain ⟨e, he, -⟩ := h
    exact ⟨_, he⟩
  | cons name t rest =>
    obtain ⟨⟨e, he, -⟩, -⟩ := h
    exact ⟨_, he⟩

theorem field_accepts {t : Ty} {m : List (Str × V)} (hm : (m.map Prod.fst).Nodup)
    (hc : (name, c) ∈ m) (h : t.Accepts D c) :
    (∃ c, (name, c) ∈ m ∧ t.Conforms D visited c) ∧ ∀ c, (name, c) ∈ m → t.Safe D c := by
  refine ⟨⟨c, hc, h.1⟩, fun c' hc' => ?_⟩
  rw [member_unique hm hc' hc]
  exact h.2

mutual
theorem Ty.accepts_written : (t : Ty) → {s : Ty} → t.Takes s → s.Proper → {v : V} →
    s.Writes P F v → t.Accepts D v
  | .scalar _, _, htakes, hs, _, h => Scalar.accepts_written D P htakes h
  | .vector t, s, ⟨e, he, ht⟩, hs, v, h | .set t, s, ⟨e, he, ht⟩, hs, v, h
  | .unorderedSet t, s, ⟨e, he, ht⟩, hs, v, h => by
    obtain ⟨l, hl, -, hall⟩ := array_written D.toDocumented P he hs h
    have haccepts : ∀ c ∈ visited l, t.Accepts D c :=
      fun c hc => t.accepts_written ht (hs.elem he) (hall c (List.mem_of_mem_take hc))
    refine ⟨⟨l, hl, fun c hc => (haccepts c hc).1⟩, fun l' hl' c hc => ?_⟩
    cases hl.symm.trans hl'
    exact (haccepts c hc).2
  | .map k _ t, s, htakes, hs, v, h | .unorderedMap k t, s, htakes, hs, v, h => by
    obtain ⟨m, hm, hall⟩ := members_written D P htakes hs h
    have haccepts : ∀ q ∈ m, t.Accepts D q.2 := by
      intro q hq
      obtain ⟨-, e, ht, hproper, hw⟩ := hall q hq
      exact t.accepts_written ht hproper hw
    refine ⟨⟨m, hm, fun q hq => (haccepts q hq).1⟩, fun m' hm' q hq => ?_⟩
    cases hm.symm.trans hm'
    exact ⟨(hall q hq).1, (haccepts q hq).2⟩
  | .struct members, s, htakes, hs, v, h => by
    obtain ⟨f, hf⟩ := members.exists_taken htakes
    obtain ⟨fields, rfl⟩ := Ty.struct_of_fields (List.ne_nil_of_mem hf)
    obtain ⟨m, hm, -, hmembers⟩ := struct_written D.toDocumented P hs h
    have haccepts := members.accepts_written htakes (fun f hf => hs.field hf)
      (D.nodup v m hm) hmembers
    exact ⟨⟨m, hm, haccepts.1⟩, m, by rw [hm]; rfl, haccepts.2⟩
theorem Fields.accepts_written : (members : Fields) → {fs : List (Str × Ty)} →
    members.Takes fs → (∀ f ∈ fs, f.2.Proper) → {m : List (Str × V)} →
    (m.map Prod.fst).Nodup → (∀ f ∈ fs, ∃ c, (f.1, c) ∈ m ∧ f.2.Writes P F c) →
    members.Conforms D visited m ∧ members.Safe D m
  | .last name t, _, ⟨e, he, ht⟩, hs, m, hm, h => by
    obtain ⟨c, hc, hw⟩ := h _ he
    exact field_accepts D hm hc (t.accepts_written ht (hs _ he) hw)
  | .cons name t rest, _, ⟨⟨e, he, ht⟩, hrest⟩, hs, m, hm, h => by
    obtain ⟨c, hc, hw⟩ := h _ he
    obtain ⟨hconf, hsafe⟩ := field_accepts D hm hc (t.accepts_written ht (hs _ he) hw)
    obtain ⟨hconfs, hsafes⟩ := rest.accepts_written hrest hs hm h
    exact ⟨⟨hconf, hconfs⟩, hsafe, hsafes⟩
end

theorem elems_taken {t : Ty} {s : Ty} (hs : s.Proper)
    (h : ∀ v, s.Writes P F v → (Ty.vector t).Accepts D v) :
    ∃ e, s.elem? = some e ∧ e.Proper ∧ ∀ c, e.Writes P F c → t.Accepts D c := by
  obtain ⟨v, hv⟩ := Ty.exists_writes D.toDocumented P F s hs
  obtain ⟨⟨l, hl, -⟩, -⟩ := h v hv
  have hshape := Ty.shape_written D.toDocumented P hs hv
  rw [hl] at hshape
  obtain ⟨e, he⟩ := hshape
  refine ⟨e, he, hs.elem he, fun c hc => ?_⟩
  obtain ⟨j, l, hj, hl, hlen, hmem⟩ := array_writes D.toDocumented P he hs hc
  obtain ⟨⟨l', hl', hconf⟩, hsafe⟩ := h j hj
  cases hl.symm.trans hl'
  rw [visited_eq hlen] at hconf
  exact ⟨hconf c hmem, hsafe l hl c (by rwa [visited_eq hlen])⟩

theorem members_taken {k : Key} {t : Ty} {s : Ty} (hs : s.Proper)
    (h : ∀ v, s.Writes P F v → (Ty.unorderedMap k t).Accepts D v) :
    k.TakesMembers (fun e => e.Proper ∧ ∀ c, e.Writes P F c → t.Accepts D c) s := by
  obtain ⟨v, hv⟩ := Ty.exists_writes D.toDocumented P F s hs
  obtain ⟨⟨m, hm, -⟩, -⟩ := h v hv
  have hshape := Ty.shape_written D.toDocumented P hs hv
  rw [hm] at hshape
  have hmember : ∀ j m, s.Writes P F j → D.view j = .object m → ∀ q ∈ m,
      (∃ key, k.parse q.1 = .ok key) ∧ t.Accepts D q.2 := by
    intro j m hj hm q hq
    obtain ⟨⟨m', hm', hconf⟩, hsafe⟩ := h j hj
    cases hm.symm.trans hm'
    exact ⟨(hsafe m hm q hq).1, hconf q hq, (hsafe m hm q hq).2⟩
  rcases hshape with ⟨k', e, he⟩ | hne
  · have hproper := hs.entry he
    have hentry : ∀ key c, e.Writes P F c →
        (∃ key', k.parse (k'.text key) = .ok key') ∧ t.Accepts D c := by
      intro key c hc
      obtain ⟨j, hj, hm⟩ := map_writes D.toDocumented P he hs hc key
      exact hmember j _ hj hm _ (List.mem_singleton_self _)
    refine .inl ⟨k', e, he, (k.takes_iff k').mpr fun key => ?_, hproper, fun c hc => ?_⟩
    · obtain ⟨c, hc⟩ := Ty.exists_writes D.toDocumented P F e hproper
      exact (hentry key c hc).1
    · obtain ⟨key, -⟩ := k'.exists_text_ne []
      exact (hentry key c hc).2
  · obtain ⟨fields, rfl⟩ := Ty.struct_of_fields hne
    refine .inr ⟨hne, fun f hf => ?_⟩
    have hproper := hs.field hf
    have hfield : ∀ c, f.2.Writes P F c → (∃ key, k.parse f.1 = .ok key) ∧ t.Accepts D c := by
      intro c hc
      obtain ⟨j, m, hj, hm, hmem⟩ := struct_writes D.toDocumented P hs hf hc
      exact hmember j m hj hm _ hmem
    obtain ⟨c, hc⟩ := Ty.exists_writes D.toDocumented P F f.2 hproper
    exact ⟨(hfield c hc).1, hproper, fun c hc => (hfield c hc).2⟩

/-- A field of the reader is one of the writer's. Maps do not help: they need not
have the member. -/
theorem field_taken {t : Ty} {s : Ty} (hs : s.Proper)
    (h : ∀ v, s.Writes P F v → ∃ m, D.view v = .object m ∧
      (∃ c, (name, c) ∈ m ∧ t.Conforms D visited c) ∧ ∀ c, (name, c) ∈ m → t.Safe D c) :
    ∃ e, (name, e) ∈ s.fields ∧ e.Proper ∧ ∀ c, e.Writes P F c → t.Accepts D c := by
  obtain ⟨v, hv⟩ := Ty.exists_writes D.toDocumented P F s hs
  obtain ⟨m, hm, ⟨c, hc, -⟩, -⟩ := h v hv
  have hshape := Ty.shape_written D.toDocumented P hs hv
  rw [hm] at hshape
  rcases hshape with ⟨k, e, he⟩ | hne
  · -- a map whose only key is another one is written, too
    obtain ⟨key, hkey⟩ := k.exists_text_ne name
    obtain ⟨c, hc⟩ := Ty.exists_writes D.toDocumented P F e (hs.entry he)
    obtain ⟨j, hj, hm⟩ := map_writes D.toDocumented P he hs hc key
    obtain ⟨m', hm', ⟨c', hc', -⟩, -⟩ := h j hj
    cases hm.symm.trans hm'
    exact absurd (Prod.mk.inj (List.mem_singleton.mp hc')).1.symm hkey
  · obtain ⟨fields, rfl⟩ := Ty.struct_of_fields hne
    obtain ⟨m', hm', hfields, -⟩ := struct_written D.toDocumented P hs hv
    cases hm.symm.trans hm'
    obtain ⟨e, he, -⟩ := hfields _ hc
    refine ⟨e, he, hs.field he, fun c hc => ?_⟩
    obtain ⟨j, m, hj, hm, hmem⟩ := struct_writes D.toDocumented P hs he hc
    obtain ⟨m', hm', ⟨c', hc', hconf⟩, hsafe⟩ := h j hj
    cases hm.symm.trans hm'
    rw [member_unique (D.nodup j m hm) hc' hmem] at hconf
    exact ⟨hconf, hsafe c hmem⟩

mutual
theorem Ty.takes_of_accepts : (t : Ty) → {s : Ty} → s.Proper →
    (∀ v : V, s.Writes P F v → t.Accepts D v) → t.Takes s
  | .scalar _, _, hs, h => Scalar.takes_of_accepts D P hs h
  | .vector t, _, hs, h | .set t, _, hs, h | .unorderedSet t, _, hs, h => by
    obtain ⟨e, he, hproper, haccepts⟩ := elems_taken D P hs h
    exact ⟨e, he, t.takes_of_accepts hproper haccepts⟩
  | .map k _ t, _, hs, h | .unorderedMap k t, _, hs, h => by
    rcases members_taken D P hs h with ⟨k', e, he, hkey, hproper, haccepts⟩ | ⟨hne, hall⟩
    · exact .inl ⟨k', e, he, hkey, t.takes_of_accepts hproper haccepts⟩
    · refine .inr ⟨hne, fun f hf => ?_⟩
      obtain ⟨hkey, hproper, haccepts⟩ := hall f hf
      exact ⟨hkey, t.takes_of_accepts hproper haccepts⟩
  | .struct members, _, hs, h => by
    refine members.takes_of_accepts hs fun v hv => ?_
    obtain ⟨⟨m, hm, hconf⟩, m', hm', hsafe⟩ := h v hv
    rw [hm] at hm'
    cases hm'
    exact ⟨m, hm, hconf, hsafe⟩
theorem Fields.takes_of_accepts : (members : Fields) → {s : Ty} → s.Proper →
    (∀ v : V, s.Writes P F v → ∃ m, D.view v = .object m ∧ members.Conforms D visited m ∧
      members.Safe D m) → members.Takes s.fields
  | .last name t, _, hs, h => by
    obtain ⟨e, he, hproper, haccepts⟩ := field_taken D P hs h
    exact ⟨e, he, t.takes_of_accepts hproper haccepts⟩
  | .cons name t rest, s, hs, h => by
    have hfirst : ∀ v, s.Writes P F v → ∃ m, D.view v = .object m ∧
        (∃ c, (name, c) ∈ m ∧ t.Conforms D visited c) ∧ ∀ c, (name, c) ∈ m → t.Safe D c := by
      intro v hv
      obtain ⟨m, hm, hconf, hsafe⟩ := h v hv
      exact ⟨m, hm, hconf.1, hsafe.1⟩
    obtain ⟨e, he, hproper, haccepts⟩ := field_taken D P hs hfirst
    refine ⟨⟨e, he, t.takes_of_accepts hproper haccepts⟩, rest.takes_of_accepts hs fun v hv => ?_⟩
    obtain ⟨m, hm, hconf, hsafe⟩ := h v hv
    exact ⟨m, hm, hconf.2, hsafe.2⟩
end

end

def summary : Ty :=
  .struct (.cons "id".toList (.scalar .int64) (.last "tags".toList (.set (.scalar .string))))

/-- Negative keys are read as unsigned ones, negative values are not. -/
example : Key.Takes .uint32 .int64 ∧ ¬ Scalar.Takes .uint64 (.scalar .int32) := by
  refine ⟨.inr ⟨_, rfl, (by decide : (-2 ^ 63 : Int).natAbs < 2 ^ 64),
    (by decide : (2 ^ 63 - 1 : Int).natAbs < 2 ^ 64)⟩, ?_⟩
  rintro ⟨r, hr, ⟨hlo, -⟩, -⟩
  cases hr
  exact absurd hlo (by decide)

end CppUtil.JsonHelper

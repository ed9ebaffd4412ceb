import CppUtil.JsonHelper.MarshalLaws
import CppUtil.JsonHelper.Unmarshal

/-!
# What the loops of `Unmarshal` do

A loop returns exactly if each read it makes returns; then its flag is the
conjunction of theirs, and the container holds what they gave. Again the
templates are described for an arbitrary element function.
-/

namespace CppUtil.JsonHelper

open Lang (Str Exn)

/-- The elements that the loops over an array visit. -/
def visited (l : List V) : List V := l.take (intRounds l.length)

theorem intRounds_le (n : Nat) : intRounds n ≤ n := by
  have hn : (BitVec.ofNat 32 n).toNat ≤ n := by
    rw [BitVec.toNat_ofNat]
    exact Nat.mod_le ..
  rw [intRounds, BitVec.toInt_eq_toNat_cond]
  split <;> omega

theorem intRounds_ofNat (n : Nat) : intRounds (UInt32.ofNat n).toNat = intRounds n := by
  have hn : BitVec.ofNat 32 (UInt32.ofNat n).toNat = BitVec.ofNat 32 n :=
    BitVec.eq_of_toNat_eq (by simp)
  rw [intRounds, intRounds, hn]

theorem visited_eq {l : List α} (h : l.length < 2 ^ 31) : visited l = l := by
  rw [visited, intRounds_eq h, List.take_length]

variable {V : Type} [J : JsonCpp V] (D : Documented V)

-- ---------------------------------------------------------------------------
-- Scalars
-- ---------------------------------------------------------------------------

omit J in
theorem unmarshalScalar_ok_iff {is : V → Bool} {as : V → Except Exn α} {obj x : α} :
    unmarshalScalar is as root obj = .ok (ret, x) ↔
      is root = true ∧ as root = .ok x ∧ ret = true ∨ is root = false ∧ ret = false ∧ x = obj := by
  cases h : is root with
  | false => simp [unmarshalScalar, h, eq_comm]
  | true => cases hx : as root <;> simp [unmarshalScalar, h, hx, Except.map, eq_comm, and_comm]

-- ---------------------------------------------------------------------------
-- Arrays
-- ---------------------------------------------------------------------------

/-- What `Unmarshal` for vectors and for sets have in common. -/
def unmarshalArray (u : Nat → V → α → Except Exn (Bool × α)) (tmp : Nat → α) (add : β → α → β)
    (start : β) (root : V) (obj : β) : Except Exn (Bool × β) :=
  if J.isArray root then
    unmarshalElems u tmp add root (intRounds (J.size root).toNat) 0 true start
  else .ok (false, obj)

section
variable {u : Nat → V → α → Except Exn (Bool × α)}

theorem unmarshalVector_eq (tmp : Nat → α) :
    unmarshalVector u tmp = unmarshalArray u tmp (fun l x => l ++ [x]) [] := rfl

theorem unmarshalSet_eq [DecidableEq α] (tmp : Nat → α) :
    unmarshalSet u tmp = unmarshalArray u tmp (fun s x => insert x s) ∅ := rfl

theorem foldl_snoc (xs l : List α) : xs.foldl (fun l x => l ++ [x]) l = l ++ xs := by
  induction xs generalizing l with
  | nil => simp
  | cons x xs ih => simp [ih]

theorem foldl_insert [DecidableEq α] (xs : List α) (s : Finset α) :
    xs.foldl (fun s x => insert x s) s = s ∪ xs.toFinset := by
  induction xs generalizing s with
  | nil => simp
  | cons x xs ih => simp [ih, Finset.insert_union]

inductive ElemReads (u : Nat → V → α → Except Exn (Bool × α)) (tmp : Nat → α) :
    Nat → List V → List (Bool × α) → Prop
  | nil : ElemReads u tmp i [] []
  | cons (h : u i c (tmp i) = .ok r) (rest : ElemReads u tmp (i + 1) cs rs) :
      ElemReads u tmp i (c :: cs) (r :: rs)

omit J in
theorem ElemReads.forall₂ {R : V → Bool × α → Prop} (h : ElemReads u tmp i cs rs)
    (hR : ∀ i, ∀ c ∈ cs, ∀ r, u i c (tmp i) = .ok r → R c r) : List.Forall₂ R cs rs := by
  induction h with
  | nil => exact .nil
  | cons hc _ ih =>
    exact .cons (hR _ _ List.mem_cons_self _ hc)
      (ih fun i c hc => hR i c (List.mem_cons_of_mem _ hc))

omit J in
theorem ElemReads.exists_iff {S : V → Prop} (hu : ∀ i c w, (∃ r, u i c w = .ok r) ↔ S c) :
    (∃ rs, ElemReads u tmp i cs rs) ↔ ∀ c ∈ cs, S c := by
  induction cs generalizing i with
  | nil => exact iff_of_true ⟨[], .nil⟩ (by simp)
  | cons c cs ih =>
    rw [List.forall_mem_cons, ← ih (i := i + 1), ← hu i c (tmp i)]
    constructor
    · rintro ⟨_, hreads⟩
      cases hreads with
      | cons hc hrest => exact ⟨⟨_, hc⟩, _, hrest⟩
    · rintro ⟨⟨r, hc⟩, rs, hrest⟩
      exact ⟨r :: rs, .cons hc hrest⟩

theorem unmarshalElems_ok_iff {add : β → α → β} (hview : D.view root = .array l)
    (hlen : i + rounds ≤ l.length) :
    unmarshalElems u tmp add root rounds i ret obj = .ok (ret', out) ↔
      ∃ rs, ElemReads u tmp i ((l.drop i).take rounds) rs ∧ ret' = (ret && rs.all Prod.fst) ∧
        out = (rs.map Prod.snd).foldl add obj := by
  induction rounds generalizing i ret obj with
  | zero =>
    rw [unmarshalElems, List.take_zero]
    constructor
    · rintro ⟨⟩
      exact ⟨[], .nil, by simp, rfl⟩
    · rintro ⟨_, ⟨⟩, hret, hout⟩
      simp [hret, hout]
  | succ rounds ih =>
    have hi : i < l.length := by omega
    have helem : J.elem root i = .ok l[i] := D.elem root l i _ hview (List.getElem?_eq_getElem hi)
    rw [List.drop_eq_getElem_cons hi, List.take_succ_cons]
    simp only [unmarshalElems, helem, ok_bind, bind_ok, ih (i := i + 1) (by omega)]
    constructor
    · rintro ⟨⟨ok, x⟩, hx, rs, hrs, hret, hout⟩
      exact ⟨(ok, x) :: rs, .cons hx hrs, by simp [hret, Bool.and_assoc], hout⟩
    · rintro ⟨_, hreads, hret, hout⟩
      cases hreads with
      | cons hx hrs => exact ⟨_, hx, _, hrs, by simp [hret, Bool.and_assoc], hout⟩

/-- `Unmarshal` reads the elements that are visited, or it is no array and the target
stays as it is. -/
theorem unmarshalArray_ok_iff {add : β → α → β}
    (hsize : ∀ l, D.view root = .array l → intRounds (J.size root).toNat = intRounds l.length) :
    unmarshalArray u tmp add start root obj = .ok (ret, out) ↔
      (∃ l rs, D.view root = .array l ∧ ElemReads u tmp 0 (visited l) rs ∧
        ret = rs.all Prod.fst ∧ out = (rs.map Prod.snd).foldl add start) ∨
      (∀ l, D.view root ≠ .array l) ∧ ret = false ∧ out = obj := by
  unfold unmarshalArray
  split
  case isTrue h =>
    obtain ⟨l, hl⟩ := (D.isArray root).mp h
    have hrounds : 0 + intRounds l.length ≤ l.length := by
      rw [Nat.zero_add]
      exact intRounds_le _
    rw [hsize l hl, unmarshalElems_ok_iff D hl hrounds]
    simp [hl, visited]
  case isFalse h =>
    have hnot : ∀ l, D.view root ≠ .array l := fun l hl => h ((D.isArray root).mpr ⟨l, hl⟩)
    simp [hnot, eq_comm]

end

-- ---------------------------------------------------------------------------
-- Maps
-- ---------------------------------------------------------------------------

section
variable [DecidableEq κ] {parse : Str → Except Exn κ} {u : Nat → V → α → Except Exn (Bool × α)}
  {fresh : α}

/-- What a map holds after its members were assigned one after the other. -/
def assignAll (es : List (Sigma fun _ : κ => α)) : Finmap fun _ : κ => α :=
  es.foldl (fun m e => m.insert e.1 e.2) ∅

inductive MemberReads (parse : Str → Except Exn κ) (u : Nat → V → α → Except Exn (Bool × α))
    (fresh : α) : Nat → List (Str × V) → (Finmap fun _ : κ => α) →
    List (Bool × Sigma fun _ : κ => α) → Prop
  | nil : MemberReads parse u fresh i [] obj []
  | cons {q : Str × V} (hkey : parse q.1 = .ok key)
      (h : u i q.2 ((obj.lookup key).getD fresh) = .ok (ok, x))
      (rest : MemberReads parse u fresh (i + 1) js (obj.insert key x) rs) :
      MemberReads parse u fresh i (q :: js) obj ((ok, ⟨key, x⟩) :: rs)

omit J in
theorem MemberReads.forall₂ {R : Str × V → Bool × (Sigma fun _ : κ => α) → Prop}
    {rs : List (Bool × Sigma fun _ : κ => α)} (h : MemberReads parse u fresh i js obj rs)
    (hR : ∀ i, ∀ q ∈ js, ∀ w key ok x, parse q.1 = .ok key → u i q.2 w = .ok (ok, x) →
      R q (ok, ⟨key, x⟩)) : List.Forall₂ R js rs := by
  induction h with
  | nil => exact .nil
  | cons hkey hq _ ih =>
    exact .cons (hR _ _ List.mem_cons_self _ _ _ _ hkey hq)
      (ih fun i q hq => hR i q (List.mem_cons_of_mem _ hq))

omit J in
theorem MemberReads.exists_iff {S : V → Prop} (hu : ∀ i c w, (∃ r, u i c w = .ok r) ↔ S c)
    {js : List (Str × V)} {obj : Finmap fun _ : κ => α} :
    (∃ rs, MemberReads parse u fresh i js obj rs) ↔
      ∀ q ∈ js, (∃ key, parse q.1 = .ok key) ∧ S q.2 := by
  induction js generalizing i obj with
  | nil => exact iff_of_true ⟨[], .nil⟩ (by simp)
  | cons q js ih =>
    rw [List.forall_mem_cons]
    constructor
    · rintro ⟨_, hreads⟩
      cases hreads with
      | cons hkey hq hrest => exact ⟨⟨⟨_, hkey⟩, (hu _ _ _).mp ⟨_, hq⟩⟩, ih.mp ⟨_, hrest⟩⟩
    · rintro ⟨⟨⟨key, hkey⟩, hq⟩, hrest⟩
      obtain ⟨⟨ok, x⟩, hx⟩ := (hu i q.2 ((obj.lookup key).getD fresh)).mpr hq
      obtain ⟨rs, hrs⟩ := ih.mpr hrest
      exact ⟨_, .cons hkey hx hrs⟩

theorem unmarshalMembers_ok_iff {js : List (Str × V)} {obj out : Finmap fun _ : κ => α}
    (hview : D.view root = .object ms) (hsub : ∀ q ∈ js, q ∈ ms) :
    unmarshalMembers parse u fresh root (js.map Prod.fst) i ret obj = .ok (ret', out) ↔
      ∃ rs, MemberReads parse u fresh i js obj rs ∧ ret' = (ret && rs.all Prod.fst) ∧
        out = (rs.map Prod.snd).foldl (fun m e => m.insert e.1 e.2) obj := by
  induction js generalizing i ret obj with
  | nil =>
    rw [List.map_nil, unmarshalMembers]
    constructor
    · rintro ⟨⟩
      exact ⟨[], .nil, by simp, rfl⟩
    · rintro ⟨_, ⟨⟩, hret, hout⟩
      simp [hret, hout]
  | cons q js ih =>
    have hmember := D.member root ms q.1 q.2 hview (hsub q List.mem_cons_self)
    have hsub' : ∀ q ∈ js, q ∈ ms := fun q hq => hsub q (List.mem_cons_of_mem _ hq)
    simp only [List.map_cons, unmarshalMembers, hmember, ok_bind, bind_ok, ih hsub']
    constructor
    · rintro ⟨key, hkey, ⟨ok, x⟩, hx, rs, hrs, hret, hout⟩
      exact ⟨(ok, ⟨key, x⟩) :: rs, .cons hkey hx hrs, by simp [hret, Bool.and_assoc], hout⟩
    · rintro ⟨_, hreads, hret, hout⟩
      cases hreads with
      | cons hkey hx hrs => exact ⟨_, hkey, _, hx, _, hrs, by simp [hret, Bool.and_assoc], hout⟩

theorem unmarshalMap_ok_iff {obj out : Finmap fun _ : κ => α} :
    unmarshalMap parse u fresh root obj = .ok (ret, out) ↔
      (∃ ms rs, D.view root = .object ms ∧ MemberReads parse u fresh 0 ms ∅ rs ∧
        ret = rs.all Prod.fst ∧ out = assignAll (rs.map Prod.snd)) ∨
      (∀ ms, D.view root ≠ .object ms) ∧ ret = false ∧ out = obj := by
  unfold unmarshalMap
  split
  case isTrue h =>
    obtain ⟨ms, hms⟩ := (D.isObject root).mp h
    rw [D.getMemberNames root ms hms, ok_bind, unmarshalMembers_ok_iff D hms (fun _ h => h)]
    simp [hms, assignAll]
  case isFalse h =>
    have hnot : ∀ ms, D.view root ≠ .object ms := fun ms hms => h ((D.isObject root).mpr ⟨ms, hms⟩)
    simp [hnot, eq_comm]

end

-- ---------------------------------------------------------------------------
-- Calls that return true
-- ---------------------------------------------------------------------------

def Yields (u : Nat → V → α → Except Exn (Bool × α)) (x : α) : Prop :=
  ∃ i j w, u i j w = .ok (true, x)

section
variable {u : Nat → V → α → Except Exn (Bool × α)}

theorem unmarshalElems_yields {add : β → α → β}
    (h : unmarshalElems u tmp add root rounds i ret obj = .ok (true, out)) :
    ret = true ∧
      ∃ xs : List α, xs.length = rounds ∧ out = xs.foldl add obj ∧ ∀ x ∈ xs, Yields u x := by
  induction rounds generalizing i ret obj with
  | zero =>
    simp only [unmarshalElems, Except.ok.injEq, Prod.mk.injEq] at h
    exact ⟨h.1, [], rfl, h.2.symm, by simp⟩
  | succ rounds ih =>
    simp only [unmarshalElems, bind_ok] at h
    obtain ⟨child, -, ⟨ok, x⟩, hx, hrest⟩ := h
    obtain ⟨hret, xs, hlen, hout, hxs⟩ := ih hrest
    rw [Bool.and_eq_true] at hret
    obtain ⟨hret, rfl⟩ := hret
    refine ⟨hret, x :: xs, by rw [List.length_cons, hlen], hout, ?_⟩
    exact List.forall_mem_cons.mpr ⟨⟨i, child, _, hx⟩, hxs⟩

theorem unmarshalVector_yields (h : unmarshalVector u tmp root obj = .ok (true, out)) :
    out.length < 2 ^ 31 ∧ ∀ x ∈ out, Yields u x := by
  rw [unmarshalVector] at h
  split at h
  · obtain ⟨-, xs, hlen, hout, hxs⟩ := unmarshalElems_yields h
    rw [foldl_snoc, List.nil_append] at hout
    subst hout
    exact ⟨hlen ▸ intRounds_lt _, hxs⟩
  · cases h

theorem unmarshalSet_yields [DecidableEq α] {obj out : Finset α}
    (h : unmarshalSet u tmp root obj = .ok (true, out)) :
    out.card < 2 ^ 31 ∧ ∀ x ∈ out, Yields u x := by
  rw [unmarshalSet] at h
  split at h
  · obtain ⟨-, xs, hlen, hout, hxs⟩ := unmarshalElems_yields h
    rw [foldl_insert, Finset.empty_union] at hout
    subst hout
    refine ⟨?_, fun x hx => hxs x (List.mem_toFinset.mp hx)⟩
    calc
      xs.toFinset.card ≤ xs.length := xs.toFinset_card_le
      _ < 2 ^ 31 := hlen ▸ intRounds_lt _
  · cases h

theorem unmarshalMembers_yields [DecidableEq κ] {parse : Str → Except Exn κ}
    {obj out : Finmap fun _ : κ => α}
    (h : unmarshalMembers parse u fresh root names i ret obj = .ok (true, out)) :
    ret = true ∧ ∀ key x, out.lookup key = some x → obj.lookup key = some x ∨ Yields u x := by
  induction names generalizing i ret obj with
  | nil =>
    simp only [unmarshalMembers, Except.ok.injEq, Prod.mk.injEq] at h
    obtain ⟨rfl, rfl⟩ := h
    exact ⟨rfl, fun _ _ => .inl⟩
  | cons name names ih =>
    simp only [unmarshalMembers, bind_ok] at h
    obtain ⟨child, -, key, -, ⟨ok, x⟩, hx, hrest⟩ := h
    obtain ⟨hret, hout⟩ := ih hrest
    rw [Bool.and_eq_true] at hret
    obtain ⟨hret, rfl⟩ := hret
    refine ⟨hret, fun key' y hy => ?_⟩
    rcases hout key' y hy with hmem | hy
    · rcases eq_or_ne key' key with rfl | hne
      · rw [Finmap.lookup_insert, Option.some_inj] at hmem
        subst hmem
        exact .inr ⟨i, child, _, hx⟩
      · rw [Finmap.lookup_insert_of_ne _ hne] at hmem
        exact .inl hmem
    · exact .inr hy

theorem unmarshalMap_yields [DecidableEq κ] {parse : Str → Except Exn κ}
    {obj out : Finmap fun _ : κ => α}
    (h : unmarshalMap parse u fresh root obj = .ok (true, out)) :
    ∀ e ∈ out.entries, Yields u e.2 := by
  rw [unmarshalMap] at h
  split at h
  · obtain ⟨names, -, hrun⟩ := bind_ok.mp h
    intro e he
    rcases (unmarshalMembers_yields hrun).2 e.1 e.2 (Finmap.lookup_eq_some_iff.mpr he) with h | h
    · rw [Finmap.lookup_empty] at h
      cases h
    · exact h
  · cases h

end

end CppUtil.JsonHelper

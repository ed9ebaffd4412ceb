import CppUtil.JsonHelper.Exceptions
import CppUtil.Lib.Outcomes

/-!
# What a read may leave

The loops over an array read each element into a local `T tmp;`, whose content is
not determined where `T` is a scalar. `Ty.May` relates what was in the target to
what may be in it after a call, whatever the temporaries of all nested calls held.
The temporaries of different calls are independent of each other, so what a loop
may leave is composed of what its reads may leave.
-/

namespace CppUtil.JsonHelper

open Lang (Str Exn)
open Lib (Chain outcomes Resets Choice)

-- ---------------------------------------------------------------------------
-- What a temporary can hold
-- ---------------------------------------------------------------------------

section
variable {F : Floats}

def Scalar.Initial : (s : Scalar) → s.Val F → Prop
  | .string, (x : Str) => x = []
  | _, _ => True

mutual
/-- What an object can hold that is declared as `T tmp;`. Strings and containers are
empty, other scalars can hold anything. -/
def Ty.Initial : (t : Ty) → t.Val F → Prop
  | .scalar s, x => s.Initial x
  | .vector _, (x : List _) => x = []
  | .set _, (x : Finset _) | .unorderedSet _, (x : Finset _) => x = ∅
  | .map _ _ _, (x : Finmap _) | .unorderedMap _ _, (x : Finmap _) => x = ∅
  | .struct fields, x => fields.Initial x
def Fields.Initial : (fields : Fields) → fields.Val F → Prop
  | .last _ t, x => t.Initial x
  | .cons _ t rest, x => t.Initial x.1 ∧ rest.Initial x.2
end

structure Locals.Initial (fresh : (t : Ty) → t.Val F) (L : Locals F) : Prop where
  tmp : ∀ path i (t : Ty), t.Initial (L.tmp path i t)
  fresh : L.fresh = fresh

variable {fresh : (t : Ty) → t.Val F}

theorem Locals.Initial.inner {L : Locals F} (h : L.Initial fresh) (i : Nat) :
    (L.inner i).Initial fresh :=
  ⟨fun path => h.tmp (i :: path), h.fresh⟩

mutual
theorem Ty.exists_initial (fresh : (t : Ty) → t.Val F) : (t : Ty) → ∃ x : t.Val F, t.Initial x
  | .scalar s => by
    cases s with
    | string => exact ⟨([] : Str), rfl⟩
    | _ => exact ⟨fresh _, trivial⟩
  | .vector t => ⟨([] : List (t.Val F)), rfl⟩
  | .set t | .unorderedSet t => ⟨(∅ : Finset (t.Val F)), rfl⟩
  | .map k _ t | .unorderedMap k t => ⟨(∅ : Finmap fun _ : k.Val => t.Val F), rfl⟩
  | .struct fields => fields.exists_initial fresh
theorem Fields.exists_initial (fresh : (t : Ty) → t.Val F) :
    (fields : Fields) → ∃ x : fields.Val F, fields.Initial x
  | .last _ t => t.exists_initial fresh
  | .cons _ t rest => by
    obtain ⟨x, hx⟩ := t.exists_initial fresh
    obtain ⟨xs, hxs⟩ := rest.exists_initial fresh
    exact ⟨(x, xs), hx, hxs⟩
end

theorem Locals.exists_initial (fresh : (t : Ty) → t.Val F) : ∃ L : Locals F, L.Initial fresh := by
  choose blank hblank using Ty.exists_initial fresh
  exact ⟨⟨fun _ _ => blank, fresh⟩, fun _ _ => hblank, rfl⟩

/-- The temporaries `first` in the call itself, and `Ls i` in the `i`-th nested call. -/
def Locals.combine (fresh : (t : Ty) → t.Val F) (first : Nat → (t : Ty) → t.Val F)
    (Ls : Nat → Locals F) : Locals F where
  tmp
    | [], i, t => first i t
    | i :: path, j, t => (Ls i).tmp path j t
  fresh := fresh

theorem Locals.combine_inner {Ls : Nat → Locals F} (h : ∀ i, (Ls i).Initial fresh)
    (first : Nat → (t : Ty) → t.Val F) (i : Nat) : (combine fresh first Ls).inner i = Ls i := by
  simp only [combine, inner, ← (h i).fresh]

theorem Locals.combine_initial {first : Nat → (t : Ty) → t.Val F} {Ls : Nat → Locals F}
    (hfirst : ∀ i (t : Ty), t.Initial (first i t)) (h : ∀ i, (Ls i).Initial fresh) :
    (combine fresh first Ls).Initial fresh where
  tmp path i t := by
    cases path with
    | nil => exact hfirst i t
    | cons j path => exact (h j).tmp path i t
  fresh := rfl

end

-- ---------------------------------------------------------------------------
-- Loops in which every position has locals of its own
-- ---------------------------------------------------------------------------

section
variable {V : Type} {u u' : Nat → V → α → Except Exn (Bool × α)}

theorem ElemReads.congr (h : ElemReads u tmp n cs rs)
    (hsame : ∀ i, n ≤ i → u i = u' i ∧ tmp i = tmp' i) : ElemReads u' tmp' n cs rs := by
  induction h with
  | nil => exact .nil
  | cons hc _ ih =>
    obtain ⟨hu, htmp⟩ := hsame _ le_rfl
    exact .cons (hu ▸ htmp ▸ hc) (ih fun i hi => hsame i (Nat.le_of_succ_le hi))

theorem MemberReads.congr [DecidableEq κ] {parse : Str → Except Exn κ}
    {obj : Finmap fun _ : κ => α} {rs : List (Bool × Sigma fun _ : κ => α)}
    (h : MemberReads parse u start n js obj rs) (hsame : ∀ i, n ≤ i → u i = u' i) :
    MemberReads parse u' start n js obj rs := by
  induction h with
  | nil => exact .nil
  | cons hkey hq _ ih =>
    exact .cons hkey (hsame _ le_rfl ▸ hq) (ih fun i hi => hsame i (Nat.le_of_succ_le hi))

end

section
variable {V : Type} {p : σ → Prop} {u : σ → V → α → Except Exn (Bool × α)}

theorem ElemReads.of_choice {q : α → Prop} (hp : ∃ a, p a) (hq : ∃ w, q w)
    (h : Choice (fun c => {x | ∃ w, q w ∧ ∃ a, p a ∧ ∃ ok, u a c w = .ok (ok, x)}) cs xs) (n : Nat) :
    ∃ (f : Nat → σ) (tmp : Nat → α) (rs : _), (∀ i, p (f i)) ∧ (∀ i, q (tmp i)) ∧
      ElemReads (fun i => u (f i)) tmp n cs rs ∧ rs.map Prod.snd = xs := by
  induction h generalizing n with
  | nil =>
    obtain ⟨a, ha⟩ := hp
    obtain ⟨w, hw⟩ := hq
    exact ⟨fun _ => a, fun _ => w, [], fun _ => ha, fun _ => hw, .nil, rfl⟩
  | @cons c x cs xs hx _ ih =>
    obtain ⟨w, hw, a, ha, ok, hx⟩ := hx
    obtain ⟨f, tmp, rs, hf, htmp, hrs, hmap⟩ := ih (n + 1)
    refine ⟨Function.update f n a, Function.update tmp n w, (ok, x) :: rs, ?_, ?_, .cons ?_ ?_, ?_⟩
    · exact (Function.forall_update_iff f fun _ => p).mpr ⟨ha, fun i _ => hf i⟩
    · exact (Function.forall_update_iff tmp fun _ => q).mpr ⟨hw, fun i _ => htmp i⟩
    · simpa using hx
    · refine hrs.congr fun i hi => ?_
      have hne : i ≠ n := by omega
      simp [hne]
    · rw [List.map_cons, hmap]

inductive MayMembers [DecidableEq κ] (parse : Str → Except Exn κ) (R : V → α → α → Prop)
    (start : α) : List (Str × V) → (Finmap fun _ : κ => α) → (Finmap fun _ : κ => α) → Prop
  | nil : MayMembers parse R start [] obj obj
  | cons {q : Str × V} (hkey : parse q.1 = .ok key) (h : R q.2 ((obj.lookup key).getD start) x)
      (rest : MayMembers parse R start js (obj.insert key x) out) :
      MayMembers parse R start (q :: js) obj out

variable [DecidableEq κ] {parse : Str → Except Exn κ} {obj out : Finmap fun _ : κ => α}

theorem mayMembers_iff (hp : ∃ a, p a) (n : Nat) :
    MayMembers parse (fun c w x => ∃ a, p a ∧ ∃ ok, u a c w = .ok (ok, x)) start js obj out ↔
      ∃ (f : Nat → σ) (rs : _), (∀ i, p (f i)) ∧
        MemberReads parse (fun i => u (f i)) start n js obj rs ∧
        out = (rs.map Prod.snd).foldl (fun m e => m.insert e.1 e.2) obj := by
  constructor
  · intro h
    induction h generalizing n with
    | nil =>
      obtain ⟨a, ha⟩ := hp
      exact ⟨fun _ => a, [], fun _ => ha, .nil, rfl⟩
    | cons hkey hx _ ih =>
      obtain ⟨a, ha, ok, hx⟩ := hx
      obtain ⟨f, rs, hf, hrs, hout⟩ := ih (n + 1)
      refine ⟨Function.update f n a, (ok, _) :: rs, ?_, .cons hkey ?_ ?_, hout⟩
      · exact (Function.forall_update_iff f fun _ => p).mpr ⟨ha, fun i _ => hf i⟩
      · simpa using hx
      · refine hrs.congr fun i hi => ?_
        have hne : i ≠ n := by omega
        simp [hne]
  · rintro ⟨f, rs, hf, hrs, rfl⟩
    induction hrs with
    | nil => exact .nil
    | cons hkey hx _ ih => exact .cons hkey ⟨_, hf _, _, hx⟩ ih

def docsOf (parse : Str → Except Exn κ) (key : κ) (js : List (Str × V)) : List V :=
  js.filterMap fun q => match parse q.1 with
    | .ok key' => if key' = key then some q.2 else none
    | .error _ => none

theorem docsOf_cons_self {q : Str × V} (hkey : parse q.1 = .ok key) (js : List (Str × V)) :
    docsOf parse key (q :: js) = q.2 :: docsOf parse key js := by
  simp [docsOf, hkey]

theorem docsOf_cons_of_ne {q : Str × V} (hkey : parse q.1 = .ok key') (hne : key ≠ key')
    (js : List (Str × V)) : docsOf parse key (q :: js) = docsOf parse key js := by
  simp [docsOf, hkey, hne.symm]

variable {R : V → α → α → Prop}

/-- An entry of a map, where `S` is what may come of the documents that are read into
it. -/
def EntryIn (S : List V → Set α) (docs : List V) (o : Option α) : Prop :=
  docs = [] ∧ o = none ∨ docs ≠ [] ∧ ∃ x ∈ S docs, o = some x

theorem MayMembers.exists (hkeys : ∀ q ∈ js, ∃ key, parse q.1 = .ok key)
    (htotal : ∀ q ∈ js, ∀ w, ∃ x, R q.2 w x) (start : α) (obj : Finmap fun _ : κ => α) :
    ∃ out, MayMembers parse R start js obj out := by
  induction js generalizing obj with
  | nil => exact ⟨obj, .nil⟩
  | cons q js ih =>
    obtain ⟨key, hkey⟩ := hkeys q List.mem_cons_self
    obtain ⟨x, hx⟩ := htotal q List.mem_cons_self ((obj.lookup key).getD start)
    obtain ⟨out, hout⟩ := ih (fun q hq => hkeys q (List.mem_cons_of_mem _ hq))
      (fun q hq => htotal q (List.mem_cons_of_mem _ hq)) (obj.insert key x)
    exact ⟨out, .cons hkey hx hout⟩

theorem mayMembers_iff_lookup (hkeys : ∀ q ∈ js, ∃ key, parse q.1 = .ok key) (start : α)
    (obj out : Finmap fun _ : κ => α) :
    MayMembers parse R start js obj out ↔ ∀ key,
      docsOf parse key js = [] ∧ out.lookup key = obj.lookup key ∨
      docsOf parse key js ≠ [] ∧
        ∃ x, Chain R (docsOf parse key js) ((obj.lookup key).getD start) x ∧
          out.lookup key = some x := by
  induction js generalizing obj with
  | nil =>
    constructor
    · rintro ⟨⟩ key
      exact .inl ⟨rfl, rfl⟩
    · intro h
      obtain rfl : out = obj := Finmap.ext_lookup fun key => (h key).elim And.right
        fun hne => absurd rfl hne.1
      exact .nil
  | cons q js ih =>
    have ih := ih fun q hq => hkeys q (List.mem_cons_of_mem _ hq)
    obtain ⟨key', hkey'⟩ := hkeys q List.mem_cons_self
    constructor
    · rintro (_ | ⟨hkey, hx, hrest⟩) key
      cases hkey'.symm.trans hkey
      have hentry := (ih _).mp hrest key
      rcases eq_or_ne key key' with rfl | hne
      · rw [docsOf_cons_self hkey]
        rw [Finmap.lookup_insert] at hentry
        refine .inr ⟨List.cons_ne_nil _ _, ?_⟩
        rcases hentry with ⟨hnil, ho⟩ | ⟨-, y, hy, ho⟩
        · exact ⟨_, ⟨_, hx, by rw [hnil]; rfl⟩, ho⟩
        · exact ⟨y, ⟨_, hx, hy⟩, ho⟩
      · rw [Finmap.lookup_insert_of_ne _ hne] at hentry
        rwa [docsOf_cons_of_ne hkey hne]
    · intro h
      obtain ⟨hnil, -⟩ | ⟨-, y, ⟨x, hx, hy⟩, ho⟩ := docsOf_cons_self hkey' js ▸ h key'
      · cases hnil
      · refine .cons hkey' hx ((ih _).mpr fun key => ?_)
        rcases eq_or_ne key key' with rfl | hne
        · rw [Finmap.lookup_insert, ho]
          by_cases hnil : docsOf parse key js = []
          · rw [hnil] at hy
            exact .inl ⟨hnil, congrArg some hy⟩
          · exact .inr ⟨hnil, y, hy, rfl⟩
        · rw [Finmap.lookup_insert_of_ne _ hne, ← docsOf_cons_of_ne hkey' hne]
          exact h key

/-- The entries do not depend on each other. -/
theorem mayMembers_iff_entries (hkeys : ∀ q ∈ js, ∃ key, parse q.1 = .ok key) (start : α)
    (out : Finmap fun _ : κ => α) :
    MayMembers parse R start js ∅ out ↔
      ∀ key, EntryIn (outcomes R · {start}) (docsOf parse key js) (out.lookup key) := by
  rw [mayMembers_iff_lookup hkeys]
  simp [EntryIn, outcomes]

theorem mayMembers_subsingleton_iff (start : α) (hkeys : ∀ q ∈ js, ∃ key, parse q.1 = .ok key)
    (htotal : ∀ q ∈ js, ∀ w, ∃ x, R q.2 w x) :
    {out | MayMembers parse R start js ∅ out}.Subsingleton ↔
      ∀ key, (outcomes R (docsOf parse key js) {start}).Subsingleton := by
  have hentries := mayMembers_iff_entries (R := R) hkeys start
  constructor
  · intro hsame key x hx y hy
    by_cases hnil : docsOf parse key js = []
    · rw [hnil] at hx hy
      obtain ⟨_, rfl, rfl⟩ := hx
      obtain ⟨_, rfl, rfl⟩ := hy
      rfl
    · obtain ⟨out, hout⟩ := MayMembers.exists hkeys htotal start ∅
      -- any outcome can be put into the entry of `key`
      have hinsert {z} (hz : z ∈ outcomes R (docsOf parse key js) {start}) :
          MayMembers parse R start js ∅ (out.insert key z) := by
        refine (hentries _).mpr fun key' => ?_
        rcases eq_or_ne key' key with rfl | hne
        · exact .inr ⟨hnil, z, hz, Finmap.lookup_insert _⟩
        · rw [Finmap.lookup_insert_of_ne _ hne]
          exact (hentries out).mp hout key'
      have hlookup := congrArg (Finmap.lookup key) (hsame (hinsert hx) (hinsert hy))
      rw [Finmap.lookup_insert, Finmap.lookup_insert] at hlookup
      exact Option.some.inj hlookup
  · intro hsame out hout out' hout'
    refine Finmap.ext_lookup fun key => ?_
    rcases (hentries out).mp hout key with ⟨hnil, ho⟩ | ⟨hne, x, hx, ho⟩
    · rcases (hentries out').mp hout' key with ⟨-, ho'⟩ | ⟨hne, -⟩
      · rw [ho, ho']
      · exact absurd hnil hne
    · rcases (hentries out').mp hout' key with ⟨hnil, -⟩ | ⟨-, y, hy, ho'⟩
      · exact absurd hnil hne
      · rw [ho, ho', hsame key hx hy]

end

-- ---------------------------------------------------------------------------
-- What a read may leave
-- ---------------------------------------------------------------------------

section
variable {V : Type} [J : JsonCpp V] {F : Floats} [N : JsonDoubles V F]
variable (fresh : (t : Ty) → t.Val F)

/-- Some temporaries make the read of `v` turn `w` into `x`. -/
def Ty.May (t : Ty) (v : V) (w x : t.Val F) : Prop :=
  ∃ L : Locals F, L.Initial fresh ∧ ∃ ok, t.unmarshal L v w = .ok (ok, x)

def Fields.May (fields : Fields) (v : V) (w x : fields.Val F) : Prop :=
  ∃ L : Locals F, L.Initial fresh ∧ ∃ ret ok, fields.unmarshal L v w ret = .ok (ok, x)

/-- What the read of `v` into a temporary may leave in it. -/
def Ty.Leaves (t : Ty) (v : V) : Set (t.Val F) := {x | ∃ w, t.Initial w ∧ t.May fresh v w x}

theorem Ty.leaves_eq (t : Ty) (v : V) :
    t.Leaves fresh v = outcomes (t.May fresh) [v] {w | t.Initial w} := by
  ext x
  rw [Lib.mem_outcomes_singleton]
  rfl

theorem Scalar.may_resets (s : Scalar) : Resets ((Ty.scalar s).May (V := V) fresh) (s.is F)
    fun d => {x | s.as F d = .ok x} := by
  obtain ⟨L, hL⟩ := Locals.exists_initial fresh
  intro d w x
  constructor
  · rintro ⟨_, -, ok, hx⟩
    rcases unmarshalScalar_ok_iff.mp hx with ⟨his, has, -⟩ | ⟨his, -, rfl⟩
    · exact .inl ⟨his, has⟩
    · exact .inr ⟨his, rfl⟩
  · rintro (⟨his, has⟩ | ⟨his, rfl⟩)
    · exact ⟨L, hL, true, unmarshalScalar_ok_iff.mpr (.inl ⟨his, has, rfl⟩)⟩
    · exact ⟨L, hL, false, unmarshalScalar_ok_iff.mpr (.inr ⟨his, rfl, rfl⟩)⟩

variable (D : DocumentedReads V F)

theorem Ty.May.exists {t : Ty} (h : t.Safe D v) (w : t.Val F) : ∃ x, t.May fresh v w x := by
  obtain ⟨L, hL⟩ := Locals.exists_initial fresh
  obtain ⟨⟨ok, x⟩, hx⟩ := (t.unmarshal_returns D L v w).mpr h
  exact ⟨x, L, hL, ok, hx⟩

theorem Fields.May.exists {fields : Fields} (h : (D.view v).members? = some m)
    (hs : fields.Safe D m) (w : fields.Val F) : ∃ x, fields.May fresh v w x := by
  obtain ⟨L, hL⟩ := Locals.exists_initial fresh
  obtain ⟨⟨ok, x⟩, hx⟩ := (fields.unmarshal_returns D L h w true).mpr hs
  exact ⟨x, L, hL, true, ok, hx⟩

theorem Ty.leaves_nonempty {t : Ty} (h : t.Safe D v) : (t.Leaves fresh v).Nonempty := by
  obtain ⟨w, hw⟩ := t.exists_initial fresh
  obtain ⟨x, hx⟩ := May.exists fresh D h w
  exact ⟨x, w, hw, hx⟩

theorem array_may_resets (t : Ty) (add : β → t.Val F → β) (start : β) :
    Resets (fun (v : V) w out => ∃ L : Locals F, L.Initial fresh ∧ ∃ ok,
        unmarshalArray (fun i => t.unmarshal (L.inner i)) (fun i => L.tmp [] i t) add start v w =
          .ok (ok, out))
      J.isArray
      fun v => {out | ∃ l xs, D.view v = .array l ∧ Choice (t.Leaves fresh) (visited l) xs ∧
        out = xs.foldl add start} := by
  intro v w out
  constructor
  · rintro ⟨L, hL, ok, h⟩
    obtain ⟨l, rs, hl, hrs, -, rfl⟩ | ⟨hnot, -, rfl⟩ :=
      (unmarshalArray_ok_iff D.toDocumented (rounds_size D v)).mp h
    · refine .inl ⟨(D.isArray v).mpr ⟨l, hl⟩, l, rs.map Prod.snd, hl, ?_, rfl⟩
      rw [Choice, List.forall₂_map_right_iff]
      exact hrs.forall₂ fun i c _ r hr => ⟨_, hL.tmp [] i t, L.inner i, hL.inner i, r.1, hr⟩
    · refine .inr ⟨Bool.eq_false_iff.mpr fun h => ?_, rfl⟩
      obtain ⟨l, hl⟩ := (D.isArray v).mp h
      exact hnot l hl
  · rintro (⟨-, l, xs, hl, hxs, rfl⟩ | ⟨hv, rfl⟩)
    · obtain ⟨Ls, tmp, rs, hLs, htmp, hrs, rfl⟩ :=
        ElemReads.of_choice (Locals.exists_initial fresh) (t.exists_initial fresh) hxs 0
      classical
      -- at type `t` the temporaries are those of the reads
      let first (i : Nat) := Function.update ((Ls i).tmp [] i) t (tmp i)
      have hfirst (i) : ∀ t' : Ty, t'.Initial (first i t') :=
        (Function.forall_update_iff _ Ty.Initial).mpr ⟨htmp i, fun t' _ => (hLs i).tmp [] i t'⟩
      refine ⟨.combine fresh first Ls, Locals.combine_initial hfirst hLs, rs.all Prod.fst,
        (unmarshalArray_ok_iff D.toDocumented (rounds_size D v)).mpr (.inl ⟨l, rs, hl, ?_, rfl, rfl⟩)⟩
      refine hrs.congr fun i _ => ⟨?_, ?_⟩
      · rw [Locals.combine_inner hLs]
      · simp [Locals.combine, first]
    · obtain ⟨L, hL⟩ := Locals.exists_initial fresh
      refine ⟨L, hL, false, (unmarshalArray_ok_iff D.toDocumented (rounds_size D v)).mpr
        (.inr ⟨fun l hl => ?_, rfl, rfl⟩)⟩
      rw [(D.isArray v).mpr ⟨l, hl⟩] at hv
      cases hv

theorem map_may_resets (k : Key) (t : Ty) :
    Resets (fun (v : V) w out => ∃ L : Locals F, L.Initial fresh ∧ ∃ ok,
        unmarshalMap k.parse (fun i => t.unmarshal (L.inner i)) (L.fresh t) v w = .ok (ok, out))
      J.isObject
      fun v => {out | ∃ m, D.view v = .object m ∧
        MayMembers k.parse (t.May fresh) (fresh t) m ∅ out} := by
  intro v w out
  constructor
  · rintro ⟨L, hL, ok, h⟩
    obtain ⟨m, rs, hm, hrs, -, hout⟩ | ⟨hnot, -, rfl⟩ := (unmarshalMap_ok_iff D.toDocumented).mp h
    · rw [hL.fresh] at hrs
      exact .inl ⟨(D.isObject v).mpr ⟨m, hm⟩, m, hm,
        (mayMembers_iff (Locals.exists_initial fresh) 0).mpr ⟨L.inner, rs, hL.inner, hrs, hout⟩⟩
    · refine .inr ⟨Bool.eq_false_iff.mpr fun h => ?_, rfl⟩
      obtain ⟨m, hm⟩ := (D.isObject v).mp h
      exact hnot m hm
  · rintro (⟨-, m, hm, hrun⟩ | ⟨hv, rfl⟩)
    · obtain ⟨Ls, rs, hLs, hrs, rfl⟩ := (mayMembers_iff (Locals.exists_initial fresh) 0).mp hrun
      refine ⟨.combine fresh (fun i => (Ls i).tmp [] i) Ls,
        Locals.combine_initial (fun i t => (hLs i).tmp [] i t) hLs, rs.all Prod.fst,
        (unmarshalMap_ok_iff D.toDocumented).mpr (.inl ⟨m, rs, hm, ?_, rfl, rfl⟩)⟩
      simp only [Locals.combine_inner hLs]
      exact hrs
    · obtain ⟨L, hL⟩ := Locals.exists_initial fresh
      refine ⟨L, hL, false, (unmarshalMap_ok_iff D.toDocumented).mpr
        (.inr ⟨fun m hm => ?_, rfl, rfl⟩)⟩
      rw [(D.isObject v).mpr ⟨m, hm⟩] at hv
      cases hv

-- ---------------------------------------------------------------------------
-- Structs
-- ---------------------------------------------------------------------------

omit D in
theorem Fields.unmarshal_flag : (fields : Fields) → {L : Locals F} → {w x : fields.Val F} →
    fields.unmarshal L v w ret = .ok (ok, x) →
      ∀ ret', ∃ ok', fields.unmarshal (V := V) L v w ret' = .ok (ok', x)
  | .last name t, L, w, x, h, ret' => by
    simp only [Fields.unmarshal, bind_ok] at h
    obtain ⟨c, hc, r, hr, hx⟩ := h
    cases hx
    exact ⟨ret' && r.1, by simp only [Fields.unmarshal, hc, hr, ok_bind]⟩
  | .cons name t rest, L, w, x, h, ret' => by
    simp only [Fields.unmarshal, bind_ok] at h
    obtain ⟨c, hc, r, hr, q, hq, hx⟩ := h
    cases hx
    obtain ⟨ok', hrest⟩ := rest.unmarshal_flag hq (ret' && r.1)
    exact ⟨ok', by simp only [Fields.unmarshal, hc, hr, hrest, ok_bind]⟩

omit D in
theorem Ty.may_struct (fields : Fields) :
    (Ty.struct fields).May (V := V) fresh = fields.May fresh := by
  funext v w x
  refine propext ⟨?_, ?_⟩
  · rintro ⟨L, hL, ok, h⟩
    exact ⟨L, hL, true, ok, h⟩
  · rintro ⟨L, hL, ret, ok, h⟩
    obtain ⟨ok', h'⟩ := fields.unmarshal_flag h true
    exact ⟨L, hL, ok', h'⟩

omit D in
theorem Fields.may_last {v : V} {w x : t.Val F} : (Fields.last name t).May fresh v w x ↔
    ∃ c, J.member v name = .ok c ∧ t.May fresh c w x := by
  constructor
  · rintro ⟨L, hL, ret, ok, h⟩
    simp only [Fields.unmarshal, bind_ok] at h
    obtain ⟨c, hc, r, hr, hx⟩ := h
    cases hx
    exact ⟨c, hc, L.inner 0, hL.inner 0, r.1, hr⟩
  · rintro ⟨c, hc, L, hL, ok, hx⟩
    refine ⟨.combine fresh (L.tmp []) fun _ => L, Locals.combine_initial (hL.tmp []) (fun _ => hL),
      true, ok, ?_⟩
    simp only [Fields.unmarshal, hc, ok_bind, Locals.combine_inner (fun _ => hL), hx, Bool.true_and]

omit D in
theorem Fields.may_cons (name : Str) (t : Ty) (rest : Fields) (v : V)
    (w x : (Fields.cons name t rest).Val F) : (Fields.cons name t rest).May fresh v w x ↔
      (Fields.last name t).May fresh v w.1 x.1 ∧ rest.May fresh v w.2 x.2 := by
  rw [Fields.may_last]
  constructor
  · rintro ⟨L, hL, ret, ok, h⟩
    simp only [Fields.unmarshal, bind_ok] at h
    obtain ⟨c, hc, r, hr, q, hq, hx⟩ := h
    cases hx
    exact ⟨⟨c, hc, L.inner 0, hL.inner 0, r.1, hr⟩, L.inner 1, hL.inner 1, _, _, hq⟩
  · rintro ⟨⟨c, hc, L, hL, ok, hx⟩, L', hL', ret, ok', hxs⟩
    let Ls (i : Nat) := if i = 0 then L else L'
    have hLs (i) : (Ls i).Initial fresh := by
      unfold Ls
      split
      · exact hL
      · exact hL'
    obtain ⟨ok'', hxs⟩ := rest.unmarshal_flag hxs (true && ok)
    refine ⟨.combine fresh (L.tmp []) Ls, Locals.combine_initial (hL.tmp []) hLs, true, ok'', ?_⟩
    have hzero : Ls 0 = L := if_pos rfl
    have hone : Ls 1 = L' := if_neg one_ne_zero
    simp only [Fields.unmarshal, hc, ok_bind, Locals.combine_inner hLs, hzero, hone, hx, hxs]
    rfl

theorem member_safe {t : Ty} (h : (D.view v).members? = some m)
    (hs : ∀ c, (name, c) ∈ m → t.Safe D c) : ∃ c, J.member v name = .ok c ∧ t.Safe D c := by
  rcases member_cases D h name with ⟨c, hc, hmember, -⟩ | ⟨-, hmember⟩
  · exact ⟨c, hmember, hs c hc⟩
  · exact ⟨_, hmember, t.safe_null D⟩

end

end CppUtil.JsonHelper

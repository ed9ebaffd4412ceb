import CppUtil.Lang.StringView
import Mathlib.Data.Finset.Card
import Mathlib.Combinatorics.Pigeonhole

/-!
# `util::enum_name`

The names of an enumeration are read from the text in which the compiler prints
the signature of `enum_name<value>()`. The table of names ends at the first value
whose text is a cast, found by one instantiation of `enum_max` per value.

So it holds the enumerators up to the first gap and none behind it
(`enumName_name_iff`). When every value is an enumerator, the instantiations do
not end, or they get to a number that is no value of the enumeration: without a
fixed underlying type, its conversion is undefined then and no constant.
-/

namespace CppUtil.Util.MagicEnum

open Lang

-- ---------------------------------------------------------------------------
-- Enumerations
-- ---------------------------------------------------------------------------

inductive Underlying
  | bool
  | unsigned (bits : Nat)
  | signed (bits : Nat)
  deriving DecidableEq

def Underlying.convert : Underlying → Nat → Int
  | .bool, n => if n = 0 then 0 else 1
  | .unsigned bits, n => (n % 2 ^ bits : Nat)
  | .signed bits, n => (n : Int).bmod (2 ^ bits)

/-- The values of an enumeration without a fixed underlying type are those of as
many bits as its greatest enumerator needs, one at least. -/
def valueBits (enumerators : List (Nat × Str)) : Nat :=
  ((enumerators.map Prod.fst).foldr max 0).log2 + 1

structure EnumType where
  /-- The one the compiler has taken, unless it is fixed. -/
  underlying : Underlying
  fixed : Bool
  /-- The values of the enumerators and their qualified names. -/
  enumerators : List (Nat × Str)
  distinct : (enumerators.map Prod.fst).Nodup
  representable : ∀ x ∈ enumerators, underlying.convert x.1 = x.1
  plain : ∀ x ∈ enumerators, ')' ∉ x.2

/-- `static_cast<T>(N)` in a constant expression. A strict compiler takes no number
that is not a value of the enumeration (clang, as the standard has it), others
convert it to the underlying type (gcc). -/
def EnumType.cast (T : EnumType) (strict : Bool) (N : Nat) : Option Int :=
  if strict = true ∧ T.fixed = false ∧ 2 ^ valueBits T.enumerators ≤ N then none
  else some (T.underlying.convert N)

-- ---------------------------------------------------------------------------
-- Signatures
-- ---------------------------------------------------------------------------

inductive Compiler
  | clang
  | gnuc
  | msvc
  deriving DecidableEq

def Compiler.marker : Compiler → Str
  | .clang | .gnuc => "value = ".toList
  | .msvc => "enum_name<".toList

def Compiler.closing : Compiler → Char
  | .clang | .gnuc => ']'
  | .msvc => '>'

structure Printing where
  compiler : Compiler
  strict : Bool
  head : Str
  /-- The text of a value that is no enumerator. -/
  castText : Int → Str
  tail : Str
  marked : find compiler.marker (head ++ compiler.marker) = some head.length
  cast : ∀ v, ')' ∈ castText v
  closed : compiler.closing ∉ tail

variable (P : Printing) (T : EnumType)

def valueText (v : Int) : Str :=
  match T.enumerators.find? fun x => (x.1 : Int) = v with
  | some x => x.2
  | none => P.castText v

def signature (v : Int) : Str :=
  P.head ++ P.compiler.marker ++ (valueText P T v ++ P.compiler.closing :: P.tail)

/-- `enum_name<value>()`. Without a marker, or with an end before the start, there
is no text. -/
def enumNameOf (v : Int) : Option Str := do
  let name := signature P T v
  let start := (← find P.compiler.marker name) + P.compiler.marker.length
  let last ← findLastOf P.compiler.closing name
  if start ≤ last then some ((name.drop start).take (last - start)) else none

-- ---------------------------------------------------------------------------
-- The table
-- ---------------------------------------------------------------------------

def enumMaxFrom : Nat → Nat → Option Nat
  | 0, _ => none
  | depth + 1, N => do
    let value ← T.cast P.strict N
    let name ← enumNameOf P T value
    if find [')'] name = none then enumMaxFrom depth (N + 1) else some N

/-- One depth more than there are enumerators is enough (`enumMax_eq_none_iff`). -/
def enumMax : Option Nat := enumMaxFrom P T (T.enumerators.length + 1) 0

def names : Option (List Str) := do
  let num ← enumMax P T
  (List.range num).mapM fun i => do enumNameOf P T (← T.cast P.strict i)

inductive Lookup
  | notCompiled
  | outOfBounds
  | name (text : Str)
  deriving DecidableEq

def enumName (value : Nat) : Lookup :=
  match names P T with
  | none => .notCompiled
  | some names =>
    match names[value]? with
    | none => .outOfBounds
    | some text => .name text

variable {P T}

-- ---------------------------------------------------------------------------
-- What the texts say
-- ---------------------------------------------------------------------------

/-- `v` is the value of an enumerator. -/
def EnumType.Has (T : EnumType) (v : Int) : Prop := ∃ x ∈ T.enumerators, (x.1 : Int) = v

instance EnumType.decidableHas (T : EnumType) (v : Int) : Decidable (T.Has v) :=
  List.decidableBEx (fun x : Nat × Str => (x.1 : Int) = v) T.enumerators

theorem enumNameOf_eq (v : Int) : enumNameOf P T v = some (valueText P T v) := by
  have hstart : find P.compiler.marker (signature P T v) = some P.head.length :=
    find_append P.marked _
  have hlast : findLastOf P.compiler.closing (signature P T v) =
      some (P.head ++ P.compiler.marker ++ valueText P T v).length := by
    rw [signature, ← List.append_assoc]
    exact findLastOf_append _ P.closed
  have hlen : (P.head ++ P.compiler.marker).length = P.head.length + P.compiler.marker.length :=
    List.length_append
  simp only [enumNameOf, hstart, hlast, Option.bind_eq_bind, Option.bind_some, ← hlen]
  have hsub : (P.head ++ P.compiler.marker ++ valueText P T v).length -
      (P.head ++ P.compiler.marker).length = (valueText P T v).length := by
    rw [@List.length_append _ (P.head ++ P.compiler.marker), Nat.add_sub_cancel_left]
  rw [if_pos (by simp), hsub, signature, List.drop_left, List.take_left]

theorem valueText_cases (P : Printing) (T : EnumType) (v : Int) :
    (∃ x ∈ T.enumerators, (x.1 : Int) = v ∧ valueText P T v = x.2) ∨
      (¬ T.Has v ∧ valueText P T v = P.castText v) := by
  cases hfind : T.enumerators.find? (fun y => (y.1 : Int) = v) with
  | none =>
    refine .inr ⟨?_, by rw [valueText, hfind]⟩
    rintro ⟨x, hx, hv⟩
    exact List.find?_eq_none.mp hfind x hx (decide_eq_true hv)
  | some x =>
    have hv := List.find?_some hfind
    exact .inl ⟨x, List.mem_of_find?_eq_some hfind, of_decide_eq_true hv, by rw [valueText, hfind]⟩

theorem valueText_enumerator (h : x ∈ T.enumerators) : valueText P T x.1 = x.2 := by
  obtain ⟨y, hy, hv, htext⟩ | ⟨hnot, -⟩ := valueText_cases P T x.1
  · rw [htext, List.inj_on_of_nodup_map T.distinct hy h (Int.ofNat_inj.mp hv)]
  · exact absurd ⟨x, h, rfl⟩ hnot

theorem paren_notMem_iff : ')' ∉ valueText P T v ↔ T.Has v := by
  obtain ⟨x, hx, hv, htext⟩ | ⟨hnot, htext⟩ := valueText_cases P T v
  · rw [htext]
    exact ⟨fun _ => ⟨x, hx, hv⟩, fun _ => T.plain x hx⟩
  · rw [htext]
    exact ⟨fun hplain => absurd (P.cast v) hplain, fun h => absurd h hnot⟩

-- ---------------------------------------------------------------------------
-- Where the table ends
-- ---------------------------------------------------------------------------

theorem EnumType.cast_none_of_le (h : T.cast strict i = none) (hij : i ≤ j) :
    T.cast strict j = none := by
  unfold cast at h ⊢
  split at h
  · rename_i hout
    exact if_pos ⟨hout.1, hout.2.1, hout.2.2.trans hij⟩
  · cases h

theorem EnumType.cast_eq_some (h : T.cast strict i = some v) : v = T.underlying.convert i := by
  unfold cast at h
  split at h
  · cases h
  · exact (Option.some.inj h).symm

/-- The cast of `N` is not taken, or it has the name of an enumerator. -/
def Passed (P : Printing) (T : EnumType) (N : Nat) : Prop :=
  ∀ v, T.cast P.strict N = some v → T.Has v

theorem enumMaxFrom_succ (h : T.cast P.strict N = some v) (depth : Nat) :
    enumMaxFrom P T (depth + 1) N =
      if ')' ∉ valueText P T v then enumMaxFrom P T depth (N + 1) else some N := by
  simp only [enumMaxFrom, h, enumNameOf_eq, Option.bind_eq_bind, Option.bind_some,
    find_char_eq_none_iff]

theorem enumMaxFrom_eq_none_iff : enumMaxFrom P T depth N = none ↔
    ∀ i, N ≤ i → i < N + depth → Passed P T i := by
  induction depth generalizing N with
  | zero => exact ⟨fun _ i hle hlt => absurd hlt (Nat.not_lt.mpr hle), fun _ => rfl⟩
  | succ depth ih =>
    cases hcast : T.cast P.strict N with
    | none =>
      refine ⟨fun _ i hle _ v hv => ?_, fun _ => by simp [enumMaxFrom, hcast]⟩
      cases (T.cast_none_of_le hcast hle).symm.trans hv
    | some v =>
      rw [enumMaxFrom_succ hcast]
      split
      · rename_i hplain
        rw [ih]
        constructor
        · intro h i hle hlt
          rcases Nat.eq_or_lt_of_le hle with rfl | hlt'
          · intro w hw
            cases Option.some.inj (hcast.symm.trans hw)
            exact paren_notMem_iff.mp hplain
          · exact h i hlt' (by omega)
        · exact fun h i hle hlt => h i (by omega) (by omega)
      · rename_i hparen
        constructor
        · intro h
          cases h
        · intro h
          exact absurd (paren_notMem_iff.mpr (h N (Nat.le_refl N) (by omega) v hcast)) hparen

theorem enumMaxFrom_eq_some (h : enumMaxFrom P T depth N = some m) :
    (∃ v, T.cast P.strict m = some v ∧ ¬ T.Has v) ∧ ∀ i, N ≤ i → i < m → Passed P T i := by
  induction depth generalizing N with
  | zero => cases h
  | succ depth ih =>
    cases hcast : T.cast P.strict N with
    | none => simp [enumMaxFrom, hcast] at h
    | some v =>
      rw [enumMaxFrom_succ hcast] at h
      split at h
      · rename_i hplain
        obtain ⟨hm, hbelow⟩ := ih h
        refine ⟨hm, fun i hle hlt => ?_⟩
        rcases Nat.eq_or_lt_of_le hle with rfl | hlt'
        · intro w hw
          cases Option.some.inj (hcast.symm.trans hw)
          exact paren_notMem_iff.mp hplain
        · exact hbelow i hlt' hlt
      · rename_i hparen
        cases h
        exact ⟨⟨v, hcast, mt paren_notMem_iff.mpr hparen⟩,
          fun i hle hlt => absurd hlt (Nat.not_lt.mpr hle)⟩

-- ---------------------------------------------------------------------------
-- Values of the underlying type
-- ---------------------------------------------------------------------------

theorem le_of_mod_eq {i j m : Nat} (h : i % m = j % m) (hij : i < j) : m ≤ j := by
  by_contra hlt
  rw [Nat.not_le] at hlt
  rw [Nat.mod_eq_of_lt hlt, Nat.mod_eq_of_lt (Nat.lt_trans hij hlt)] at h
  exact Nat.ne_of_lt hij h

theorem Underlying.signed_convert (bits n : Nat) : (Underlying.signed bits).convert n =
    if n % 2 ^ bits < (2 ^ bits + 1) / 2 then ((n % 2 ^ bits : Nat) : Int)
    else ((n % 2 ^ bits : Nat) : Int) - (2 ^ bits : Nat) := by
  rw [convert, Int.bmod_def, ← Int.natCast_mod]
  split <;> split <;> omega

theorem Underlying.signed_inj (h : (Underlying.signed bits).convert i = (signed bits).convert j) :
    i % 2 ^ bits = j % 2 ^ bits := by
  have hi := Nat.mod_lt i (Nat.two_pow_pos bits)
  have hj := Nat.mod_lt j (Nat.two_pow_pos bits)
  rw [signed_convert, signed_convert] at h
  split at h <;> split at h <;> omega

theorem Underlying.convert_repeats (u : Underlying) (h : u.convert i = u.convert j) (hij : i < j)
    (n : Nat) : ∃ k < j, u.convert n = u.convert k := by
  cases u with
  | bool =>
    have hi : i ≠ 0 := by
      rintro rfl
      simp [convert, Nat.ne_of_gt hij] at h
    by_cases hn : n = 0
    · exact ⟨0, by omega, by rw [hn]⟩
    · exact ⟨1, by omega, by simp [convert, hn]⟩
  | unsigned bits =>
    have hle := le_of_mod_eq (Int.ofNat_inj.mp h) hij
    refine ⟨n % 2 ^ bits, Nat.lt_of_lt_of_le (Nat.mod_lt n (Nat.two_pow_pos bits)) hle, ?_⟩
    rw [convert, convert, Nat.mod_mod]
  | signed bits =>
    have hle := le_of_mod_eq (signed_inj h) hij
    refine ⟨n % 2 ^ bits, Nat.lt_of_lt_of_le (Nat.mod_lt n (Nat.two_pow_pos bits)) hle, ?_⟩
    rw [signed_convert, signed_convert, Nat.mod_mod]

theorem Underlying.convert_of_le (u : Underlying) (h : u.convert v = v) (hi : i ≤ v) :
    u.convert i = i := by
  cases u with
  | bool =>
    simp only [convert] at h ⊢
    split at h <;> split <;> omega
  | unsigned bits =>
    have hlt := Nat.mod_lt v (Nat.two_pow_pos bits)
    rw [Int.ofNat_inj.mp h] at hlt
    rw [convert, Nat.mod_eq_of_lt (Nat.lt_of_le_of_lt hi hlt)]
  | signed bits =>
    have hlt := Nat.mod_lt v (Nat.two_pow_pos bits)
    rw [signed_convert] at h ⊢
    split at h
    · rename_i hhalf
      rw [Int.ofNat_inj.mp h] at hhalf hlt
      rw [Nat.mod_eq_of_lt (Nat.lt_of_le_of_lt hi hlt), if_pos (Nat.lt_of_le_of_lt hi hhalf)]
    · omega

-- ---------------------------------------------------------------------------
-- Enumerators and their names
-- ---------------------------------------------------------------------------

theorem foldr_max_ge {l : List Nat} (h : n ∈ l) : n ≤ l.foldr max 0 := by
  induction l with
  | nil => cases h
  | cons m l ih =>
    rcases List.mem_cons.mp h with rfl | h
    · exact Nat.le_max_left ..
    · exact (ih h).trans (Nat.le_max_right ..)

theorem lt_valueBits {l : List (Nat × Str)} (h : x ∈ l) : x.1 < 2 ^ valueBits l :=
  Nat.lt_of_le_of_lt (foldr_max_ge (List.mem_map_of_mem h)) Nat.lt_log2_self

theorem cast_of_le (h : x ∈ T.enumerators) (hi : i ≤ x.1) : T.cast strict i = some (i : Int) := by
  have hlt : i < 2 ^ valueBits T.enumerators := Nat.lt_of_le_of_lt hi (lt_valueBits h)
  have hself : T.underlying.convert i = i := T.underlying.convert_of_le (T.representable x h) hi
  rw [EnumType.cast, if_neg (fun hout => Nat.not_lt.mpr hout.2.2 hlt), hself]

/-- More numbers than enumerators, and all of them passed: then the values repeat,
or the casts have come to their end. -/
theorem passed_all (h : ∀ i < T.enumerators.length + 1, Passed P T i) (n : Nat) :
    Passed P T n := by
  intro v hv
  by_cases hall : ∀ i < T.enumerators.length + 1, T.cast P.strict i ≠ none
  · have hhas : ∀ i < T.enumerators.length + 1, T.Has (T.underlying.convert i) := by
      intro i hi
      obtain ⟨w, hw⟩ := Option.ne_none_iff_exists'.mp (hall i hi)
      exact T.cast_eq_some hw ▸ h i hi w hw
    let values := (T.enumerators.map fun x => (x.1 : Int)).toFinset
    have hcard : values.card < (Finset.range (T.enumerators.length + 1)).card := by
      rw [Finset.card_range]
      refine Nat.lt_succ_of_le (Nat.le_trans (List.toFinset_card_le _) ?_)
      rw [List.length_map]
    obtain ⟨i, hi, j, hj, hne, heq⟩ := Finset.exists_ne_map_eq_of_card_lt_of_maps_to hcard
      (f := T.underlying.convert) fun i hi => by
        obtain ⟨x, hx, hx'⟩ := hhas i (Finset.mem_range.mp hi)
        exact List.mem_toFinset.mpr (List.mem_map.mpr ⟨x, hx, hx'⟩)
    rw [Finset.mem_range] at hi hj
    rw [T.cast_eq_some hv]
    rcases Nat.lt_or_gt_of_ne hne with hlt | hlt
    · obtain ⟨k, hk, hconv⟩ := T.underlying.convert_repeats heq hlt n
      exact hconv ▸ hhas k (Nat.lt_trans hk hj)
    · obtain ⟨k, hk, hconv⟩ := T.underlying.convert_repeats heq.symm hlt n
      exact hconv ▸ hhas k (Nat.lt_trans hk hi)
  · push Not at hall
    obtain ⟨i, hi, hnone⟩ := hall
    rcases Nat.lt_or_ge n i with hlt | hge
    · exact h n (Nat.lt_trans hlt hi) v hv
    · cases (T.cast_none_of_le hnone hge).symm.trans hv

theorem enumMax_eq_none_iff : enumMax P T = none ↔ ∀ depth, enumMaxFrom P T depth 0 = none := by
  constructor
  · intro h depth
    rw [enumMax, enumMaxFrom_eq_none_iff] at h
    refine enumMaxFrom_eq_none_iff.mpr fun n _ _ => passed_all (fun i hi => ?_) n
    exact h i (Nat.zero_le i) (by omega)
  · intro h
    exact h _

theorem lt_enumMax_iff (h : enumMax P T = some num) (hx : x ∈ T.enumerators) :
    x.1 < num ↔ ∀ i < x.1, T.Has i := by
  obtain ⟨⟨v, hv, hnum⟩, hbelow⟩ := enumMaxFrom_eq_some h
  constructor
  · intro hlt i hi
    exact hbelow i (Nat.zero_le i) (Nat.lt_trans hi hlt) i (cast_of_le hx (Nat.le_of_lt hi))
  · intro hall
    by_contra hge
    rw [Nat.not_lt] at hge
    cases Option.some.inj (hv.symm.trans (cast_of_le hx hge))
    rcases Nat.eq_or_lt_of_le hge with rfl | hlt
    · exact hnum ⟨x, hx, rfl⟩
    · exact hnum (hall num hlt)

theorem mapM_eq_some_map {f : α → Option β} {g : α → β} {l : List α}
    (h : ∀ a ∈ l, f a = some (g a)) : l.mapM f = some (l.map g) := by
  induction l with
  | nil => rfl
  | cons a l ih =>
    obtain ⟨ha, hl⟩ := List.forall_mem_cons.mp h
    simp [List.mapM_cons, ha, ih hl]

theorem names_eq (h : enumMax P T = some num) :
    names P T = some ((List.range num).map fun i => valueText P T (T.underlying.convert i)) := by
  obtain ⟨⟨v, hv, -⟩, -⟩ := enumMaxFrom_eq_some h
  have hcast : ∀ i ∈ List.range num,
      (T.cast P.strict i).bind (enumNameOf P T) =
        some (valueText P T (T.underlying.convert i)) := by
    intro i hi
    cases hi' : T.cast P.strict i with
    | none => cases (T.cast_none_of_le hi' (Nat.le_of_lt (List.mem_range.mp hi))).symm.trans hv
    | some w => rw [Option.bind_some, enumNameOf_eq, T.cast_eq_some hi']
  simp only [names, h, Option.bind_eq_bind, Option.bind_some]
  exact mapM_eq_some_map hcast

theorem enumName_eq (h : enumMax P T = some num) (value : Nat) : enumName P T value =
    if value < num then .name (valueText P T (T.underlying.convert value)) else .outOfBounds := by
  by_cases hlt : value < num <;> simp [enumName, names_eq h, hlt]

/-- `enum_name` compiles exactly if some value of the enumeration is no
enumerator. Then an enumerator is found under its name exactly if there is no gap
below it; behind a gap the table is read behind its end. -/
theorem enumName_name_iff (P : Printing) (T : EnumType) (hx : x ∈ T.enumerators) :
    (enumName P T x.1 = .name x.2 ↔
      (∃ n v, T.cast P.strict n = some v ∧ ¬ T.Has v) ∧ ∀ i < x.1, T.Has i) ∧
    (enumName P T x.1 = .outOfBounds ↔
      (∃ n v, T.cast P.strict n = some v ∧ ¬ T.Has v) ∧ ∃ i < x.1, ¬ T.Has i) := by
  cases hmax : enumMax P T with
  | none =>
    have hall (n : Nat) : Passed P T n :=
      enumMaxFrom_eq_none_iff.mp (enumMax_eq_none_iff.mp hmax (n + 1)) n (Nat.zero_le n) (by omega)
    have hno : ¬ ∃ n v, T.cast P.strict n = some v ∧ ¬ T.Has v := by
      rintro ⟨n, v, hv, hnot⟩
      exact hnot (hall n v hv)
    simp [enumName, names, hmax, hno]
  | some num =>
    have hend : ∃ n v, T.cast P.strict n = some v ∧ ¬ T.Has v :=
      ⟨num, (enumMaxFrom_eq_some hmax).1⟩
    have hbelow := lt_enumMax_iff hmax hx
    have hgap : (∃ i < x.1, ¬ T.Has i) ↔ ¬ x.1 < num := by
      rw [hbelow]
      simp only [not_forall, exists_prop]
    rw [enumName_eq hmax, T.representable x hx, valueText_enumerator hx, ← hbelow, hgap]
    by_cases hlt : x.1 < num <;> simp [hlt, hend]

-- ---------------------------------------------------------------------------
-- Two enumerations
-- ---------------------------------------------------------------------------

def clangHead : Str := "auto util::enum_name() [".toList

theorem clangHead_marked :
    find Compiler.clang.marker (clangHead ++ Compiler.clang.marker) = some clangHead.length := by
  decide +kernel

theorem castText_paren (v : Int) : ')' ∈ "(util::Color)".toList ++ stdToString v :=
  List.mem_append_left _ (by decide)

def clang : Printing where
  compiler := .clang
  strict := true
  head := clangHead
  castText v := "(util::Color)".toList ++ stdToString v
  tail := []
  marked := clangHead_marked
  cast := castText_paren
  closed := List.not_mem_nil

def color : EnumType where
  underlying := .unsigned 32
  fixed := false
  enumerators := [(0, "util::RED".toList), (1, "util::GREEN".toList), (2, "util::BLUE".toList)]
  distinct := by decide
  representable := by decide +kernel
  plain := by decide +kernel

def sparse : EnumType where
  underlying := .unsigned 32
  fixed := false
  enumerators := [(0, "util::RED".toList), (2, "util::BLUE".toList)]
  distinct := by decide
  representable := by decide +kernel
  plain := by decide +kernel

theorem enumName_blue : enumName clang color 2 = .name "util::BLUE".toList :=
  (@enumName_name_iff (2, "util::BLUE".toList) clang color (by decide +kernel)).1.mpr
    ⟨⟨3, 3, by decide +kernel⟩, by decide +kernel⟩

/-- The enumerator behind the gap is looked up behind the end of the table. -/
theorem enumName_behind_gap : enumName clang sparse 2 = .outOfBounds := by decide +kernel

end CppUtil.Util.MagicEnum

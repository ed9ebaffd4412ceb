import CppUtil.Lang.Numeric
import CppUtil.Lib.Walk

/-!
# `Trie`

A tree of nodes with 26 children each, for words of the letters from `a` to `z`.
The nodes are in a heap, and a child is a pointer into it. An access outside of
`childrens_`, which other characters than letters lead to, has no outcome.

The root is at the address 0. `Shape` says that the pointers form a tree, so
that a word has a node of its own; `Holds` says that the nodes are those of the
inserted words and their prefixes, and the marked ones those of the words.
-/

namespace CppUtil.DataStructure.Trie

open Lang Lib

abbrev Addr := Nat

structure Node where
  childrens_ : List (Option Addr)
  isEnd_ : Bool

abbrev Heap := List Node

-- ---------------------------------------------------------------------------
-- The code
-- ---------------------------------------------------------------------------

def Node.new : Node where
  childrens_ := List.replicate 26 none
  isEnd_ := false

def new : Heap := [.new]

-- `ch - 'a'` as a `size_t`
def index (ch : Char) : Nat := (ch.toNat + 2 ^ 64 - 'a'.toNat) % 2 ^ 64

def addChild (node : Addr) (n : Node) (i : Nat) (h : Heap) : Heap :=
  h.set node { n with childrens_ := n.childrens_.set i (some h.length) } ++ [.new]

/-- The loop of `Insert`: where it ends. -/
def insertLoop (node : Addr) : Str → Heap → Option (Addr × Heap)
  | [], h => some (node, h)
  | ch :: word, h => do
    let n ← h[node]?
    match ← n.childrens_[index ch]? with
    | some child => insertLoop child word h
    | none => insertLoop h.length word (addChild node n (index ch) h)

def insert (word : Str) (h : Heap) : Option Heap := do
  let (node, h) ← insertLoop 0 word h
  let n ← h[node]?
  some (h.set node { n with isEnd_ := true })

/-- The loop of `SearchPrefix`; the result is a pointer that may be null. -/
def searchLoop (h : Heap) (node : Addr) : Str → Option (Option Addr)
  | [] => some (some node)
  | ch :: word => do
    let n ← h[node]?
    match ← n.childrens_[index ch]? with
    | some child => searchLoop h child word
    | none => some none

def searchPrefix (h : Heap) (word : Str) : Option (Option Addr) := searchLoop h 0 word

def search (h : Heap) (word : Str) : Option Bool := do
  match ← searchPrefix h word with
  | none => some false
  | some node => (h[node]?).map Node.isEnd_

def startWith (h : Heap) (word : Str) : Option Bool := (searchPrefix h word).map Option.isSome

def insertAll : List Str → Heap → Option Heap
  | [], h => some h
  | word :: words, h => (insert word h).bind (insertAll words)

-- ---------------------------------------------------------------------------
-- Words and their nodes
-- ---------------------------------------------------------------------------

def Lower (word : Str) : Prop := ∀ ch ∈ word, 'a' ≤ ch ∧ ch ≤ 'z'

instance (word : Str) : Decidable (Lower word) := List.decidableBAll _ word

def codes (word : Str) : List Nat := word.map index

theorem index_of_lower (h : 'a' ≤ ch ∧ ch ≤ 'z') :
    index ch < 26 ∧ index ch + 'a'.toNat = ch.toNat := by
  have hlow : 97 ≤ ch.toNat := h.1
  have hhigh : ch.toNat ≤ 122 := h.2
  have hindex : index ch = ch.toNat - 97 := by
    show (ch.toNat + 2 ^ 64 - 97) % 2 ^ 64 = _
    omega
  have ha : 'a'.toNat = 97 := rfl
  omega

theorem codes_inj (hu : Lower u) (hv : Lower v) (h : codes u = codes v) : u = v := by
  induction u generalizing v with
  | nil =>
    cases v with
    | nil => rfl
    | cons => cases h
  | cons ch u ih =>
    cases v with
    | nil => cases h
    | cons ch' v =>
      obtain ⟨hch, hcodes⟩ := List.cons.inj h
      obtain ⟨hlu, hu⟩ := List.forall_mem_cons.mp hu
      obtain ⟨hlv, hv⟩ := List.forall_mem_cons.mp hv
      have hnat : ch.toNat = ch'.toNat := by
        rw [← (index_of_lower hlu).2, ← (index_of_lower hlv).2, hch]
      rw [Char.toNat_inj.mp hnat, ih hu hv hcodes]

theorem codes_prefix_iff (hu : Lower u) (hv : Lower v) : codes u <+: codes v ↔ u <+: v := by
  constructor
  · intro h
    obtain ⟨w, hw, hcodes⟩ := List.prefix_map_iff.mp h
    rw [codes_inj (fun ch hch => hv ch (hw.subset hch)) hu hcodes.symm] at hw
    exact hw
  · exact fun h => h.map index

def edge (h : Heap) (a : Addr) (i : Nat) : Option Addr :=
  (h[a]?.bind fun n => n.childrens_[i]?).join

def isEnd (h : Heap) (a : Addr) : Bool := (h[a]?.map Node.isEnd_).getD false

structure Shape (h : Heap) : Prop where
  wide : ∀ n ∈ h, n.childrens_.length = 26
  tree : IsTree (edge h) 0
  valid : ∀ v a, walk (edge h) 0 v = some a → a < h.length

variable {h h' : Heap} {node : Addr}

theorem Shape.child (hs : Shape h) (hu : walk (edge h) 0 u = some node)
    (hch : 'a' ≤ ch ∧ ch ≤ 'z') :
    ∃ n child, h[node]? = some n ∧ n.childrens_[index ch]? = some child ∧
      edge h node (index ch) = child ∧ index ch < n.childrens_.length := by
  obtain ⟨n, hn⟩ : ∃ n, h[node]? = some n := ⟨_, List.getElem?_eq_getElem (hs.valid u node hu)⟩
  have hi : index ch < n.childrens_.length := by
    have hwide := hs.wide n (List.mem_of_getElem? hn)
    exact hwide ▸ (index_of_lower hch).1
  obtain ⟨child, hchild⟩ : ∃ child, n.childrens_[index ch]? = some child :=
    ⟨_, List.getElem?_eq_getElem hi⟩
  have hedge : edge h node (index ch) = child := by
    simp only [edge, hn, Option.bind_some, hchild, Option.join_some]
  exact ⟨n, child, hn, hchild, hedge, hi⟩

theorem searchLoop_eq (hs : Shape h) (hu : walk (edge h) 0 u = some node) (hword : Lower word) :
    searchLoop h node word = some (walk (edge h) node (codes word)) := by
  induction word generalizing u node with
  | nil => rfl
  | cons ch word ih =>
    obtain ⟨hch, hword⟩ := List.forall_mem_cons.mp hword
    obtain ⟨n, child, hn, hchild, hedge, -⟩ := hs.child hu hch
    have hwalk : walk (edge h) 0 (u ++ [index ch]) = child := by
      rw [walk_concat, hu, Option.bind_some, hedge]
    simp only [searchLoop, hn, hchild, codes, List.map_cons, walk, hedge, Option.bind_eq_bind,
      Option.bind_some]
    cases child with
    | none => rfl
    | some child => exact ih hwalk hword

-- ---------------------------------------------------------------------------
-- A new node
-- ---------------------------------------------------------------------------

theorem getElem?_addChild (hn : h[node]? = some n) (a : Addr) :
    (addChild node n i h)[a]? =
      if a = node then some { n with childrens_ := n.childrens_.set i (some h.length) }
      else if a = h.length then some .new else h[a]? := by
  have hlt : node < h.length := (List.getElem?_eq_some_iff.mp hn).1
  by_cases hnode : a = node
  · subst hnode
    rw [if_pos rfl, addChild, List.getElem?_append_left (by simpa using hlt),
      List.getElem?_set_self hlt]
  · rw [if_neg hnode, addChild]
    rcases Nat.lt_trichotomy a h.length with ha | rfl | ha
    · rw [if_neg (Nat.ne_of_lt ha), List.getElem?_append_left (by simpa using ha),
        List.getElem?_set_ne (Ne.symm hnode)]
    · rw [if_pos rfl, List.getElem?_append_right (by simp)]
      simp
    · rw [if_neg (Nat.ne_of_gt ha), List.getElem?_eq_none (Nat.le_of_lt ha)]
      exact List.getElem?_eq_none (by simpa using Nat.succ_le_of_lt ha)

theorem edge_addChild (hn : h[node]? = some n) (hi : i < n.childrens_.length) :
    edge (addChild node n i h) = link (edge h) node i h.length := by
  have hlt : node < h.length := (List.getElem?_eq_some_iff.mp hn).1
  funext a j
  by_cases hnode : a = node
  · subst hnode
    simp only [edge, getElem?_addChild hn, if_true, Option.bind_some]
    by_cases hj : j = i
    · subst hj
      rw [link_self, List.getElem?_set_self hi, Option.join_some]
    · rw [link_of_ne (.inr hj), List.getElem?_set_ne (Ne.symm hj), edge, hn, Option.bind_some]
  · rw [link_of_ne (.inl hnode)]
    simp only [edge, getElem?_addChild hn, if_neg hnode]
    split
    · subst a
      have hnone : ∀ j : Nat, (Node.new.childrens_[j]?).join = none := by
        intro j
        simp only [Node.new, List.getElem?_replicate]
        split <;> rfl
      rw [Option.bind_some, hnone, List.getElem?_eq_none (Nat.le_refl _)]
      rfl
    · rfl

theorem isEnd_addChild (hn : h[node]? = some n) : isEnd (addChild node n i h) = isEnd h := by
  funext a
  simp only [isEnd, getElem?_addChild hn]
  split
  · subst a
    rw [hn]
    rfl
  · split
    · subst a
      rw [List.getElem?_eq_none (Nat.le_refl _)]
      rfl
    · rfl

theorem Shape.addChild (hs : Shape h) (hu : walk (edge h) 0 u = some node)
    (hn : h[node]? = some n) (hi : i < n.childrens_.length) (hfree : edge h node i = none) :
    Shape (addChild node n i h) ∧
      ∀ v, walk (edge (addChild node n i h)) 0 v =
        if v = u ++ [i] then some h.length else walk (edge h) 0 v := by
  have hnew : ∀ v, walk (edge h) 0 v ≠ some h.length :=
    fun v hv => Nat.lt_irrefl _ (hs.valid v _ hv)
  have hleaf : ∀ j, edge h h.length j = none := by
    intro j
    rw [edge, List.getElem?_eq_none (Nat.le_refl _)]
    rfl
  have hwalk : ∀ v, walk (edge (Trie.addChild node n i h)) 0 v =
      if v = u ++ [i] then some h.length else walk (edge h) 0 v := by
    intro v
    rw [edge_addChild hn hi]
    exact walk_link hs.tree hu hfree hnew hleaf v
  refine ⟨⟨?_, ?_, ?_⟩, hwalk⟩
  · intro m hm
    rcases List.mem_append.mp hm with hm | hm
    · rcases List.mem_or_eq_of_mem_set hm with hm | rfl
      · exact hs.wide m hm
      · rw [List.length_set]
        exact hs.wide n (List.mem_of_getElem? hn)
    · rw [List.mem_singleton.mp hm]
      exact List.length_replicate
  · rw [edge_addChild hn hi]
    exact hs.tree.link hu hfree hnew hleaf
  · intro v a hv
    rw [hwalk] at hv
    rw [Trie.addChild, List.length_append, List.length_set, List.length_singleton]
    split at hv
    · cases hv
      exact Nat.lt_succ_self _
    · exact Nat.lt_succ_of_lt (hs.valid v a hv)

-- ---------------------------------------------------------------------------
-- `Insert`
-- ---------------------------------------------------------------------------

/-- The loop goes on from the end of the walk `u`: it adds the nodes that are
missing on the way, and leaves the others where they are. -/
theorem insertLoop_spec (hs : Shape h) (hu : walk (edge h) 0 u = some node) (hword : Lower word) :
    ∃ node' h', insertLoop node word h = some (node', h') ∧ Shape h' ∧ isEnd h' = isEnd h ∧
      walk (edge h') 0 (u ++ codes word) = some node' ∧
      (∀ v a, walk (edge h) 0 v = some a → walk (edge h') 0 v = some a) ∧
      ∀ v, (walk (edge h') 0 v).isSome ↔
        (walk (edge h) 0 v).isSome ∨ v <+: u ++ codes word := by
  induction word generalizing u node h with
  | nil =>
    refine ⟨node, h, rfl, hs, rfl, by simpa [codes] using hu, fun _ _ hv => hv, fun v => ?_⟩
    have hpre : v <+: u → (walk (edge h) 0 v).isSome := by
      rintro ⟨w, rfl⟩
      exact walk_isSome_of_append (by rw [hu]; rfl)
    simpa [codes] using hpre
  | cons ch word ih =>
    obtain ⟨hch, hword⟩ := List.forall_mem_cons.mp hword
    obtain ⟨n, child, hn, hchild, hedge, hi⟩ := hs.child hu hch
    have hcodes : u ++ codes (ch :: word) = u ++ [index ch] ++ codes word := by
      simp [codes]
    have hwalk : walk (edge h) 0 (u ++ [index ch]) = child := by
      rw [walk_concat, hu, Option.bind_some, hedge]
    simp only [insertLoop, hn, hchild, Option.bind_eq_bind, Option.bind_some]
    rw [hcodes]
    cases child with
    | some child => exact ih hs hwalk hword
    | none =>
      obtain ⟨hs₁, hwalk₁⟩ := hs.addChild hu hn hi hedge
      have hnew :
          walk (edge (addChild node n (index ch) h)) 0 (u ++ [index ch]) = some h.length := by
        rw [hwalk₁, if_pos rfl]
      obtain ⟨node', h', hloop, hs', hend, hnode', hkeep, hsome⟩ := ih hs₁ hnew hword
      refine ⟨node', h', hloop, hs', hend.trans (isEnd_addChild hn), hnode', fun v a hv => ?_,
        fun v => ?_⟩
      · have hne : v ≠ u ++ [index ch] := by
          rintro rfl
          rw [hwalk] at hv
          cases hv
        exact hkeep v a (by rw [hwalk₁, if_neg hne, hv])
      · rw [hsome, hwalk₁]
        by_cases hv : v = u ++ [index ch]
        · simp [hv]
        · rw [if_neg hv]

theorem getElem?_mark (hn : h[node]? = some n) (a : Addr) :
    (h.set node { n with isEnd_ := true })[a]? =
      if a = node then some { n with isEnd_ := true } else h[a]? := by
  have hlt : node < h.length := (List.getElem?_eq_some_iff.mp hn).1
  by_cases hnode : a = node
  · subst hnode
    rw [if_pos rfl, List.getElem?_set_self hlt]
  · rw [if_neg hnode, List.getElem?_set_ne (Ne.symm hnode)]

theorem edge_mark (hn : h[node]? = some n) :
    edge (h.set node { n with isEnd_ := true }) = edge h := by
  funext a i
  simp only [edge, getElem?_mark hn]
  split
  · subst a
    rw [hn]
    rfl
  · rfl

theorem isEnd_mark (hn : h[node]? = some n) (a : Addr) :
    isEnd (h.set node { n with isEnd_ := true }) a = true ↔ isEnd h a = true ∨ a = node := by
  simp only [isEnd, getElem?_mark hn]
  split
  · simp [*]
  · simp [*]

structure Holds (words : List Str) (h : Heap) : Prop where
  shape : Shape h
  nodes : ∀ v, (walk (edge h) 0 v).isSome ↔ v = [] ∨ ∃ word ∈ words, v <+: codes word
  ends : ∀ a, isEnd h a = true ↔ ∃ word ∈ words, walk (edge h) 0 (codes word) = some a

theorem new_holds : Holds [] new := by
  have hedge : ∀ i, edge new 0 i = none := by
    intro i
    simp only [edge, new, List.getElem?_cons_zero, Option.bind_some, Node.new,
      List.getElem?_replicate]
    split <;> rfl
  have hwalk : ∀ v a, walk (edge new) 0 v = some a ↔ v = [] ∧ a = 0 := by
    intro v a
    cases v with
    | nil => simp [walk, eq_comm]
    | cons i v => simp [walk, hedge]
  refine ⟨⟨?_, ?_, ?_⟩, ?_, ?_⟩
  · intro n hn
    rw [List.mem_singleton.mp hn]
    exact List.length_replicate
  · intro u v a hu hv
    rw [((hwalk u a).mp hu).1, ((hwalk v a).mp hv).1]
  · intro v a hv
    rw [((hwalk v a).mp hv).2]
    exact Nat.zero_lt_one
  · intro v
    simp [Option.isSome_iff_exists, hwalk]
  · intro a
    cases a with
    | zero => simp [isEnd, new, Node.new]
    | succ a => simp [isEnd, new]

theorem Holds.insert (hh : Holds words h) (hword : Lower word) :
    ∃ h', insert word h = some h' ∧ Holds (words ++ [word]) h' := by
  have hroot : walk (edge h) 0 [] = some 0 := rfl
  obtain ⟨node, h₁, hloop, hs, hend, hnode, hkeep, hsome⟩ := insertLoop_spec hh.shape hroot hword
  rw [List.nil_append] at hnode hsome
  obtain ⟨n, hn⟩ : ∃ n, h₁[node]? = some n := ⟨_, List.getElem?_eq_getElem (hs.valid _ node hnode)⟩
  refine ⟨h₁.set node { n with isEnd_ := true }, ?_, ⟨?_, ?_, ?_⟩, ?_, ?_⟩
  · simp only [Trie.insert, hloop, Option.bind_eq_bind, Option.bind_some, hn]
  · intro m hm
    rcases List.mem_or_eq_of_mem_set hm with hm | rfl
    · exact hs.wide m hm
    · exact hs.wide n (List.mem_of_getElem? hn)
  · rw [edge_mark hn]
    exact hs.tree
  · rw [edge_mark hn, List.length_set]
    exact hs.valid
  · intro v
    rw [edge_mark hn, hsome, hh.nodes]
    simp [or_and_right, exists_or, or_assoc]
  · intro a
    have hsame : ∀ w ∈ words, walk (edge h₁) 0 (codes w) = walk (edge h) 0 (codes w) := by
      intro w hw
      obtain ⟨b, hb⟩ := Option.isSome_iff_exists.mp
        ((hh.nodes (codes w)).mpr (.inr ⟨w, hw, List.prefix_rfl⟩))
      rw [hkeep _ b hb, hb]
    rw [isEnd_mark hn, edge_mark hn, hend, hh.ends]
    simp only [List.mem_append, List.mem_singleton, or_and_right, exists_or, exists_eq_left, hnode,
      Option.some.injEq, @eq_comm _ node]
    refine or_congr_left (exists_congr fun w => and_congr_right fun hw => ?_)
    rw [hsame w hw]

-- ---------------------------------------------------------------------------
-- Every sequence of words
-- ---------------------------------------------------------------------------

theorem Holds.insertAll (hh : Holds words h) (hlower : ∀ word ∈ words', Lower word) :
    ∃ h', insertAll words' h = some h' ∧ Holds (words ++ words') h' := by
  induction words' generalizing words h with
  | nil => exact ⟨h, rfl, by simpa using hh⟩
  | cons word words' ih =>
    obtain ⟨hword, hlower⟩ := List.forall_mem_cons.mp hlower
    obtain ⟨h₁, hins, hh₁⟩ := hh.insert hword
    obtain ⟨h', hrest, hh'⟩ := ih hh₁ hlower
    refine ⟨h', by rw [Trie.insertAll, hins, Option.bind_some, hrest], by simpa using hh'⟩

theorem Holds.searchPrefix (hh : Holds words h) (hword : Lower word) :
    searchPrefix h word = some (walk (edge h) 0 (codes word)) :=
  searchLoop_eq (u := []) hh.shape rfl hword

theorem Holds.startWith (hh : Holds words h) (hlower : ∀ w ∈ words, Lower w)
    (hword : Lower word) :
    startWith h word = some (decide (word = [] ∨ ∃ w ∈ words, word <+: w)) := by
  have hiff : (walk (edge h) 0 (codes word)).isSome = true ↔
      word = [] ∨ ∃ w ∈ words, word <+: w := by
    rw [hh.nodes]
    refine or_congr (by simp [codes]) (exists_congr fun w => and_congr_right fun hw => ?_)
    exact codes_prefix_iff hword (hlower w hw)
  rw [Trie.startWith, hh.searchPrefix hword, Option.map_some, Option.some.injEq, Bool.eq_iff_iff,
    decide_eq_true_iff]
  exact hiff

/-- The node of a word is marked if and only if the word was inserted, because no
other word has that node. -/
theorem Holds.isEnd_iff (hh : Holds words h) (hlower : ∀ w ∈ words, Lower w)
    (hword : Lower word) (hnode : walk (edge h) 0 (codes word) = some node) :
    isEnd h node = true ↔ word ∈ words := by
  rw [hh.ends]
  constructor
  · rintro ⟨w, hw, hwalk⟩
    have hsame : codes w = codes word := hh.shape.tree _ _ _ hwalk hnode
    exact codes_inj (hlower w hw) hword hsame ▸ hw
  · exact fun hw => ⟨word, hw, hnode⟩

theorem Holds.search (hh : Holds words h) (hlower : ∀ w ∈ words, Lower w) (hword : Lower word) :
    search h word = some (decide (word ∈ words)) := by
  simp only [Trie.search, hh.searchPrefix hword, Option.bind_eq_bind, Option.bind_some]
  cases hwalk : walk (edge h) 0 (codes word) with
  | none =>
    have hout : word ∉ words := by
      intro hw
      have hsome := (hh.nodes (codes word)).mpr (.inr ⟨word, hw, List.prefix_rfl⟩)
      rw [hwalk] at hsome
      cases hsome
    rw [decide_eq_false hout]
  | some node =>
    have hlt : node < h.length := hh.shape.valid _ _ hwalk
    have hend : isEnd h node = h[node].isEnd_ := by
      rw [isEnd, List.getElem?_eq_getElem hlt]
      rfl
    have hiff := hh.isEnd_iff hlower hword hwalk
    rw [hend] at hiff
    simp only [List.getElem?_eq_getElem hlt, Option.map_some, Option.some.injEq]
    rw [Bool.eq_iff_iff, decide_eq_true_iff]
    exact hiff

/-- The words decide the answers: neither their order nor a repetition matters. -/
theorem trie_answers (words : List Str) (hwords : ∀ w ∈ words, Lower w) :
    ∃ h, insertAll words new = some h ∧
      (∀ w, Lower w → search h w = some (decide (w ∈ words))) ∧
      (∀ p, Lower p → p ≠ [] → startWith h p = some (decide (∃ w ∈ words, p <+: w))) ∧
      ∀ words' h', (∀ w, w ∈ words' ↔ w ∈ words) → insertAll words' new = some h' →
        ∀ w, Lower w → search h' w = search h w ∧ startWith h' w = startWith h w := by
  obtain ⟨h, hins, hh⟩ := new_holds.insertAll hwords
  rw [List.nil_append] at hh
  refine ⟨h, hins, fun w hw => hh.search hwords hw, fun p hp hne => ?_, ?_⟩
  · rw [hh.startWith hwords hp]
    simp only [hne, false_or]
  · intro words' h' hsame hins' w hw
    have hwords' : ∀ w ∈ words', Lower w := fun w hw => hwords w ((hsame w).mp hw)
    obtain ⟨h₁, hins₁, hh'⟩ := new_holds.insertAll hwords'
    cases hins₁.symm.trans hins'
    rw [List.nil_append] at hh'
    rw [hh'.search hwords' hw, hh.search hwords hw, hh'.startWith hwords' hw,
      hh.startWith hwords hw]
    simp only [hsame, and_self]

theorem trie_answers_three :
    ∃ h, insertAll ["ab".toList, "".toList, "abc".toList] new = some h ∧
      search h "a".toList = some false ∧ startWith h "a".toList = some true := by
  obtain ⟨h, hins, hsearch, hstart, -⟩ :=
    trie_answers ["ab".toList, "".toList, "abc".toList] (by decide)
  refine ⟨h, hins, ?_, ?_⟩
  · rw [hsearch "a".toList (by decide)]
    decide
  · rw [hstart "a".toList (by decide) (by decide)]
    decide

end CppUtil.DataStructure.Trie

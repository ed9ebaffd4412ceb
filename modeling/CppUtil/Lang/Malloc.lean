import CppUtil.Lang.CString
import CppUtil.Lang.NewDelete

/-!
# `malloc`, `free` and characters in memory

A block that `malloc` has made is a list of characters, each of which may not
have been written yet. To write beyond the end of a block is undefined, and so
is to read a C string from it that meets such a character, or the end of the
block, before a NUL.

`malloc` may give a null pointer. Every access through one is undefined, only
`free` does nothing then.
-/

namespace CppUtil.Lang

abbrev Block := List (Option Char)

namespace Block

/-- A C string and the rest of its block. -/
def ofText (text : Str) (rest : Block) : Block := (cString text).map some ++ some nul :: rest

def readText : Block → Option Str
  | some c :: b => if c = nul then some [] else (readText b).map (c :: ·)
  | _ => none

theorem readText_ofText (text : Str) (rest : Block) :
    (ofText text rest).readText = some (cString text) := by
  have h : ∀ s : Str, nul ∉ s → readText (s.map some ++ some nul :: rest) = some s := by
    intro s hs
    induction s with
    | nil => simp [readText]
    | cons c s ih =>
      rw [List.mem_cons, not_or] at hs
      simp [readText, Ne.symm hs.1, ih hs.2]
  exact h _ (nul_notMem_cString text)

theorem length_ofText (text : Str) (rest : Block) :
    (ofText text rest).length = (cString text).length + 1 + rest.length := by
  simp [ofText]
  omega

end Block

namespace Memory

def access (m : Memory Block) (p : Ptr) : Except Stop Block :=
  if p = nullptr then .error .undefined else m.load p

def malloc (m : Memory Block) (p : Ptr) (size : Nat) : Except Stop (Memory Block) :=
  if p = nullptr then .ok m else m.new p (List.replicate size none)

def free (m : Memory Block) (p : Ptr) : Except Stop (Memory Block) :=
  if p = nullptr then .ok m else m.delete p

def memset (m : Memory Block) (p : Ptr) (c : Char) (n : Nat) : Except Stop (Memory Block) := do
  let b ← m.access p
  if n ≤ b.length then m.store p (List.replicate n (some c) ++ b.drop n) else .error .undefined

def strcpy (m : Memory Block) (p : Ptr) (text : Str) : Except Stop (Memory Block) := do
  let b ← m.access p
  let n := (cString text).length + 1
  if n ≤ b.length then m.store p (.ofText text (b.drop n)) else .error .undefined

def text (m : Memory Block) (p : Ptr) : Except Stop Str := do
  let b ← m.access p
  match b.readText with
  | some s => .ok s
  | none => .error .undefined

end Memory

namespace Cells

variable {m₀ m : Memory Block} {cells : List (Ptr × Block)} {b : Block} {p : Ptr}

theorem access (h : Cells m₀ m ((p, b) :: cells)) (hp : p ≠ nullptr) : m.access p = .ok b := by
  rw [Memory.access, if_neg hp, Memory.load, h.holds (p, b) List.mem_cons_self]

theorem gives_malloc (h : Cells m₀ m cells) (hp : p ≠ nullptr) :
    Gives (m.malloc p size) fun m' => Cells m₀ m' ((p, List.replicate size none) :: cells) := by
  rw [Memory.malloc, if_neg hp]
  exact h.gives_new.mono fun m' hm' => hm'.2

theorem gives_free (h : Cells m₀ m ((p, b) :: cells)) (hp : p ≠ nullptr) :
    Gives (m.free p) fun m' => Cells m₀ m' cells := by
  rw [Memory.free, if_neg hp]
  exact gives_delete (a := []) h

theorem gives_memset (h : Cells m₀ m ((p, b) :: cells)) (hp : p ≠ nullptr) (hn : n ≤ b.length) :
    Gives (m.memset p c n) fun m' =>
      Cells m₀ m' ((p, List.replicate n (some c) ++ b.drop n) :: cells) := by
  refine (Gives.of_eq (h.access hp)).bind ?_
  rintro _ rfl
  rw [if_pos hn]
  exact gives_store (a := []) h

theorem gives_strcpy (h : Cells m₀ m ((p, b) :: cells)) (hp : p ≠ nullptr)
    (hfits : (cString s).length < b.length) :
    Gives (m.strcpy p s) fun m' => ∃ b', b'.length = b.length ∧ b'.readText = some (cString s) ∧
      Cells m₀ m' ((p, b') :: cells) := by
  refine (Gives.of_eq (h.access hp)).bind ?_
  rintro _ rfl
  rw [if_pos (Nat.succ_le_of_lt hfits)]
  refine (gives_store (a := []) h).mono ?_
  rintro m' hm'
  refine ⟨_, ?_, Block.readText_ofText .., hm'⟩
  rw [Block.length_ofText, List.length_drop]
  omega

theorem gives_text (h : Cells m₀ m ((p, b) :: cells)) (hp : p ≠ nullptr)
    (hs : b.readText = some s) : Gives (m.text p) (· = s) := by
  refine (Gives.of_eq (h.access hp)).bind ?_
  rintro _ rfl
  rw [hs]
  rfl

end Cells

end CppUtil.Lang

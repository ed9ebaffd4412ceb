import CppUtil.Lang.Malloc
import CppUtil.Logger.Backtrace

/-!
# The buffer of `StackDumper`

A `StackDumper` hands its buffer to `__cxa_demangle` for every frame. A name
that does not fit comes back in a block of its own; the buffer is freed or has
moved then, and from there on each name gets a block that `Backtrace` frees.

`dumper_frees`: whatever names the frames have and wherever the blocks are, the
texts are those of `StackDumper.dump`, nothing is written beyond a block or read
after it was freed, and at the end all blocks are freed. The constructor does
not look at what `malloc` gives, nor `Dump` at what `backtrace_create_state`
does: a null pointer from one of them is all that can go wrong.
-/

namespace CppUtil.Logger

open Lang StackDumper

/-- A `StackDumper`, the memory, and the number of blocks that have been made. -/
structure Dumper where
  memory : Memory Block
  mallocs : Nat
  demangleBuff_ : Ptr

namespace Dumper

def demangleBufferSize : Nat := 4096

section

-- where the blocks are, and what is behind the name in those of `__cxa_demangle`
variable (alloc : Nat → Ptr) (slack : Nat → Block)

def new (m : Memory Block) : Except Stop Dumper := do
  let m ← m.malloc (alloc 0) demangleBufferSize
  let m ← m.memset (alloc 0) nul demangleBufferSize
  return ⟨m, 1, alloc 0⟩

def destroy (d : Dumper) : Except Stop (Memory Block) :=
  if d.demangleBuff_ ≠ nullptr then d.memory.free d.demangleBuff_ else .ok d.memory

/-- `__cxa_demangle` with a buffer of `n` characters. Where the name does not fit
into it, the buffer makes room for a block that can be in the same place. Where
there is no memory it fails, and leaves the buffer as it is. -/
def cxaDemangle (demangle : Str → Option Str) (name : Str) (buf : Ptr) (n : Nat) (d : Dumper) : Except Stop (Ptr × Dumper) :=
  match demangle name with
  | none => .ok (nullptr, d)
  | some text =>
    if buf ≠ nullptr ∧ (cString text).length < n then do
      let memory ← d.memory.strcpy buf text
      return (buf, { d with memory })
    else do
      let memory ← d.memory.free buf
      let p := alloc d.mallocs
      let memory ← memory.new p (.ofText text (slack d.mallocs))
      return (p, { d with memory, mallocs := d.mallocs + 1 })

def demangleName (demangle : Str → Option Str) (name : Str) (d : Dumper) : Except Stop (Ptr × Dumper) := do
  let n := if d.demangleBuff_ ≠ nullptr then demangleBufferSize else 0
  let (p, d) ← d.cxaDemangle alloc slack demangle name d.demangleBuff_ n
  if p ≠ nullptr ∧ p ≠ d.demangleBuff_ then return (p, { d with demangleBuff_ := nullptr })
  else return (p, d)

def function (demangle : Str → Option Str) : Option Str → Dumper → Except Stop (Str × Ptr × Dumper)
  | none, d => .ok ("???".toList, nullptr, d)
  | some func, d => do
    let (p, d) ← d.demangleName alloc slack demangle func
    let text ← if p ≠ nullptr then d.memory.text p else .ok func
    return (text, p, d)

def freeUnlessBuff (p : Ptr) (d : Dumper) : Except Stop Dumper :=
  if p ≠ nullptr ∧ p ≠ d.demangleBuff_ then do
    let memory ← d.memory.free p
    return { d with memory }
  else .ok d

def backtrace (demangle : Str → Option Str) (sym : Symbol) (count : Nat) (stackFrames : List Str) (d : Dumper) :
    Except Stop ((Int × Nat × List Str) × Dumper) :=
  if ¬ sym.known then .ok ((0, count, stackFrames), d)
  else if count ≥ maxStackFrames then
    .ok ((-1, count, stackFrames ++ [truncatedText count]), d)
  else do
    let (func, p, d) ← d.function alloc slack demangle sym.func
    let text := "#".toList ++ stdToString count ++
      " [".toList ++ sym.file.getD "???".toList ++ ":".toList ++ stdToString sym.line ++
      "][".toList ++ func ++ "]".toList
    let d ← d.freeUnlessBuff p
    return ((0, count + 1, stackFrames ++ [text]), d)

variable (demangle : Nat → Str → Option Str)

def dumpFrom : List Symbol → Nat → List Str → Dumper → Except Stop (List Str × Dumper)
  | [], _, stackFrames, d => .ok (stackFrames, d)
  | sym :: syms, count, stackFrames, d => do
    let ((res, count, stackFrames), d) ←
      d.backtrace alloc slack (demangle count) sym count stackFrames
    if res = 0 then dumpFrom syms count stackFrames d else return (stackFrames, d)

/-- A `StackDumper` from its constructor to its destructor. `created` is whether
`backtrace_create_state` gives a state: what it gives goes to `backtrace_full`
in any case. -/
def dump (created : Bool) (m : Memory Block) (syms : List Symbol) :
    Except Stop (List Str × Memory Block) := do
  let d ← new alloc m
  if created then
    let (stackFrames, d) ← d.dumpFrom alloc slack demangle syms 0 []
    let m ← d.destroy
    return (stackFrames, m)
  else .error .undefined

end

-- ---------------------------------------------------------------------------
-- The blocks
-- ---------------------------------------------------------------------------

/-- The buffer, and no other block, is in memory. It is as large as
`__cxa_demangle` is told, or larger. -/
inductive Holds (m₀ : Memory Block) (d : Dumper) : Prop
  | buffer {b : Block} (hset : d.demangleBuff_ ≠ nullptr) (hlen : demangleBufferSize ≤ b.length)
      (hcells : Cells m₀ d.memory [(d.demangleBuff_, b)])
  | gone (hset : d.demangleBuff_ = nullptr) (hcells : Cells m₀ d.memory [])

/-- The text at `p` is `text`: in the buffer, or in a block of its own. -/
inductive Returned (m₀ : Memory Block) (text : Str) (p : Ptr) (d : Dumper) : Prop
  | buffer {b : Block} (hset : p ≠ nullptr) (hp : p = d.demangleBuff_)
      (hlen : demangleBufferSize ≤ b.length) (htext : b.readText = some text)
      (hcells : Cells m₀ d.memory [(p, b)])
  | own {b : Block} (hset : p ≠ nullptr) (hbuff : d.demangleBuff_ = nullptr)
      (htext : b.readText = some text) (hcells : Cells m₀ d.memory [(p, b)])

variable {alloc : Nat → Ptr} {slack : Nat → Block} {demangle : Str → Option Str}
variable {m₀ : Memory Block} {d : Dumper}

theorem gives_new (halloc : alloc 0 ≠ nullptr) : Gives (new alloc m₀) (Holds m₀) := by
  refine ((Cells.nil m₀).gives_malloc halloc).bind ?_
  rintro m₁ hm₁
  refine (hm₁.gives_memset halloc (by simp)).bind ?_
  rintro m₂ hm₂
  exact .buffer halloc (by simp) hm₂

theorem Holds.gives_destroy (h : Holds m₀ d) : Gives d.destroy (· = m₀) := by
  rw [destroy]
  cases h with
  | buffer hset hlen hcells =>
    rw [if_pos hset]
    exact (hcells.gives_free hset).mono fun m hm => hm.eq
  | gone hset hcells =>
    rw [if_neg (not_not.mpr hset)]
    exact hcells.eq

theorem Returned.gives_text (h : Returned m₀ text p d) : Gives (d.memory.text p) (· = text) := by
  cases h with
  | buffer hset _ _ htext hcells | own hset _ htext hcells => exact hcells.gives_text hset htext

theorem Returned.set (h : Returned m₀ text p d) : p ≠ nullptr := by
  cases h with
  | buffer hset | own hset => exact hset

theorem Returned.gives_freeUnlessBuff (h : Returned m₀ text p d) :
    Gives (d.freeUnlessBuff p) (Holds m₀) := by
  rw [freeUnlessBuff]
  cases h with
  | buffer hset hp hlen _ hcells =>
    rw [if_neg (by simp [hp])]
    exact .buffer (hp ▸ hset) hlen (hp ▸ hcells)
  | own hset hbuff _ hcells =>
    rw [if_pos ⟨hset, hbuff ▸ hset⟩]
    refine (hcells.gives_free hset).bind ?_
    rintro m hm
    exact .gone hbuff hm

/-- The name is in the only block. Where that is in the buffer's place, it is as
large as the buffer was. -/
theorem Holds.gives_cxaDemangle (h : Holds m₀ d) (hname : demangle name = some text) :
    Gives (d.cxaDemangle alloc slack demangle name d.demangleBuff_
      (if d.demangleBuff_ ≠ nullptr then demangleBufferSize else 0)) fun x =>
        x.2.demangleBuff_ = d.demangleBuff_ ∧ x.1 ≠ nullptr ∧
          ∃ b, Cells m₀ x.2.memory [(x.1, b)] ∧ b.readText = some (cString text) ∧
            (x.1 = d.demangleBuff_ → demangleBufferSize ≤ b.length) := by
  generalize hn : (if d.demangleBuff_ ≠ nullptr then demangleBufferSize else 0) = n
  simp only [cxaDemangle, hname]
  split
  · next hfits =>
    cases h with
    | buffer hset hlen hcells =>
      rw [if_pos hset] at hn
      refine (hcells.gives_strcpy hset ((hn ▸ hfits.2).trans_le hlen)).bind ?_
      rintro m ⟨b', hlen', htext, hm⟩
      exact ⟨rfl, hset, b', hm, htext, fun _ => hlen'.symm ▸ hlen⟩
    | gone hset hcells => exact absurd hset hfits.1
  · next hfits =>
    have hfree : Gives (d.memory.free d.demangleBuff_) fun m => Cells m₀ m [] := by
      cases h with
      | buffer hset hlen hcells => exact hcells.gives_free hset
      | gone hset hcells =>
        rw [Memory.free, if_pos hset]
        exact hcells
    refine hfree.bind ?_
    rintro m hm
    refine hm.gives_new.bind ?_
    rintro m' ⟨hset, hm'⟩
    refine ⟨rfl, hset, _, hm', Block.readText_ofText .., fun hp => ?_⟩
    have hbuff : d.demangleBuff_ ≠ nullptr := hp ▸ hset
    have hlong := not_and.mp hfits hbuff
    rw [if_pos hbuff] at hn
    rw [Block.length_ofText]
    omega

theorem Holds.gives_demangleName (h : Holds m₀ d) (hname : demangle name = some text) :
    Gives (d.demangleName alloc slack demangle name) fun x =>
      Returned m₀ (cString text) x.1 x.2 := by
  refine (h.gives_cxaDemangle hname).bind ?_
  rintro ⟨p, d'⟩ ⟨hbuff, hset, b, hcells, htext, hlen⟩
  dsimp only
  split
  · exact .own hset rfl htext hcells
  · next hp =>
    have hp' : p = d'.demangleBuff_ := by simpa [hset] using hp
    exact .buffer hset hp' (hlen (hp'.trans hbuff)) htext hcells

theorem demangleName_none (hname : demangle name = none) :
    d.demangleName alloc slack demangle name = .ok (nullptr, d) := by
  simp [demangleName, cxaDemangle, hname, bind, Except.bind, pure, Except.pure]

theorem Holds.gives_function (h : Holds m₀ d) (func : Option Str) :
    Gives (d.function alloc slack demangle func) fun x =>
      x.1 = (func.map fun f => ((demangle f).map cString).getD f).getD "???".toList ∧
        Gives (x.2.2.freeUnlessBuff x.2.1) (Holds m₀) := by
  have hnull : Gives (d.freeUnlessBuff nullptr) (Holds m₀) := by
    rw [freeUnlessBuff, if_neg (by simp)]
    exact h
  cases func with
  | none => exact ⟨rfl, hnull⟩
  | some func =>
    cases hname : demangle func with
    | none =>
      rw [function, demangleName_none hname]
      exact ⟨by simp [hname], hnull⟩
    | some text =>
      refine (h.gives_demangleName hname).bind ?_
      rintro ⟨p, d'⟩ hret
      dsimp only
      rw [if_pos hret.set]
      refine hret.gives_text.bind ?_
      rintro _ rfl
      exact ⟨by simp [hname], hret.gives_freeUnlessBuff⟩

theorem Holds.gives_backtrace (h : Holds m₀ d) (sym : Symbol) (count : Nat)
    (stackFrames : List Str) :
    Gives (d.backtrace alloc slack demangle sym count stackFrames) fun x =>
      x.1 = StackDumper.backtrace (fun f => (demangle f).map cString) sym count stackFrames ∧
        Holds m₀ x.2 := by
  rw [backtrace, StackDumper.backtrace]
  split
  · exact ⟨rfl, h⟩
  split
  · exact ⟨rfl, h⟩
  refine (h.gives_function sym.func).bind ?_
  rintro ⟨func, p, d'⟩ ⟨hfunc, hfree⟩
  refine hfree.bind ?_
  rintro d'' h''
  refine ⟨?_, h''⟩
  dsimp only at hfunc ⊢
  rw [hfunc]
  rfl

theorem Holds.gives_dumpFrom {demangle : Nat → Str → Option Str} (h : Holds m₀ d) (syms : List Symbol) (count : Nat)
    (stackFrames : List Str) :
    Gives (d.dumpFrom alloc slack demangle syms count stackFrames) fun x =>
      x.1 = StackDumper.dumpFrom (fun i f => (demangle i f).map cString) syms count stackFrames ∧
        Holds m₀ x.2 := by
  induction syms generalizing d count stackFrames with
  | nil => exact ⟨rfl, h⟩
  | cons sym syms ih =>
    refine (h.gives_backtrace sym count stackFrames).bind ?_
    rw [StackDumper.dumpFrom]
    rintro ⟨x, d'⟩ ⟨rfl, h'⟩
    dsimp only
    split
    · exact ih h' ..
    · exact ⟨rfl, h'⟩

theorem dump_malloc_null {demangle : Nat → Str → Option Str} (halloc : alloc 0 = nullptr) :
    dump alloc slack demangle created m₀ syms = .error .undefined := by
  simp [dump, new, halloc, Memory.malloc, Memory.memset, Memory.access, bind, Except.bind]

theorem new_refused (halloc : alloc 0 ≠ nullptr) (hused : m₀ (alloc 0) ≠ none) :
    new alloc m₀ = .error .refused := by
  obtain ⟨b, hb⟩ := Option.ne_none_iff_exists'.mp hused
  simp [new, Memory.malloc, Memory.new, halloc, hb, bind, Except.bind]

theorem new_ok (halloc : alloc 0 ≠ nullptr) (hfree : m₀ (alloc 0) = none) :
    ∃ d, new alloc m₀ = .ok d := by
  simp [new, Memory.malloc, Memory.new, Memory.memset, Memory.access, Memory.load, Memory.store,
    halloc, hfree, bind, Except.bind, pure, Except.pure]

/-- A stack is dumped without undefined behaviour exactly if there is memory for
the buffer and a state to walk with. Then the texts are those of the frames, and
every block is freed. -/
theorem dumper_frees (alloc : Nat → Ptr) (slack : Nat → Block)
    (demangle : Nat → Str → Option Str) (created : Bool) (m : Memory Block) (syms : List Symbol) :
    (dump alloc slack demangle created m syms = .error .undefined ↔
      alloc 0 = nullptr ∨ m (alloc 0) = none ∧ created = false) ∧
      ∀ stackFrames m', dump alloc slack demangle created m syms = .ok (stackFrames, m') →
        m' = m ∧ stackFrames = StackDumper.dump (fun i f => (demangle i f).map cString) syms := by
  by_cases halloc : alloc 0 = nullptr
  · simp [dump_malloc_null halloc, halloc]
  by_cases hfree : m (alloc 0) = none
  case neg =>
    have hrefused : dump alloc slack demangle created m syms = .error .refused := by
      rw [dump, new_refused halloc hfree]
      rfl
    simp [hrefused, halloc, hfree]
  cases created with
  | false =>
    obtain ⟨d, hd⟩ := new_ok halloc hfree
    have hundefined : dump alloc slack demangle false m syms = .error .undefined := by
      rw [dump, hd]
      rfl
    simp [hundefined, hfree]
  | true =>
    have hgives : Gives (dump alloc slack demangle true m syms) fun x =>
        x.2 = m ∧ x.1 = StackDumper.dump (fun i f => (demangle i f).map cString) syms := by
      refine (gives_new halloc).bind ?_
      rintro d hd
      refine (hd.gives_dumpFrom syms 0 []).bind ?_
      rintro ⟨stackFrames, d'⟩ ⟨rfl, hd'⟩
      refine hd'.gives_destroy.bind ?_
      rintro m' rfl
      exact ⟨rfl, rfl⟩
    refine ⟨iff_of_false hgives.not_undefined ?_, fun stackFrames m' h => hgives.of_eq_ok h⟩
    simp [halloc]

def longName : Except Stop (List Str × Memory Block) :=
  dump (fun n => BitVec.ofNat 64 (n + 1)) (fun _ => [])
    (fun i f => if i = 2 then none else some (f ++ List.replicate (4096 * (f.length - 1)) 'a'))
    true (fun _ => none)
    [⟨none, 3, some ['f']⟩, ⟨none, 4, some ['f', 'g']⟩, ⟨none, 5, some ['g']⟩]

set_option maxRecDepth 20000 in
theorem dumper_frees_longName :
    ∃ stackFrames m, longName = .ok (stackFrames, m) ∧
      stackFrames.map List.length = [13, 4110, 13] ∧ m = fun _ => none := by
  have hlengths : longName.map (fun x => x.1.map List.length) = .ok [13, 4110, 13] := by
    decide +kernel
  cases hdump : longName with
  | error e =>
    rw [hdump] at hlengths
    cases hlengths
  | ok r =>
    rw [hdump] at hlengths
    exact ⟨r.1, r.2, rfl, Except.ok.inj hlengths, ((dumper_frees ..).2 _ _ hdump).1⟩

end Dumper

end CppUtil.Logger

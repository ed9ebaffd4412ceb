import CppUtil.Logger.Sinks

/-!
# The call stack of a FATAL log

`StackDumper` makes one text of each frame and stops after 128 of them. `Logger`
joins the texts and writes them to both files as the format of a `Write` without
arguments, through the buffer of 4096 characters.

So the files get the list as it is exactly if no frame has a percent sign or a
NUL and all of them together fit into the buffer (`backtrace_complete_iff`).
-/

namespace CppUtil.Logger

open Lang Lib

-- ---------------------------------------------------------------------------
-- `StackDumper`
-- ---------------------------------------------------------------------------

namespace StackDumper

structure Symbol where
  file : Option Str
  line : Int
  func : Option Str

def maxStackFrames : Nat := 128

def truncatedText (count : Nat) : Str :=
  "#".toList ++ stdToString count ++ " [reach max stack frames, truncated]".toList

def frameText (demangle : Str → Option Str) (count : Nat) (sym : Symbol) : Str :=
  "#".toList ++ stdToString count ++
    " [".toList ++ sym.file.getD "???".toList ++ ":".toList ++ stdToString sym.line ++
    "][".toList ++ (sym.func.map fun f => (demangle f).getD f).getD "???".toList ++ "]".toList

def Symbol.known (sym : Symbol) : Bool := sym.file.isSome || sym.func.isSome

def backtrace (demangle : Str → Option Str) (sym : Symbol) (count : Nat)
    (stackFrames : List Str) : Int × Nat × List Str :=
  if ¬ sym.known then (0, count, stackFrames)
  -- a result other than zero ends the walk
  else if count ≥ maxStackFrames then (-1, count, stackFrames ++ [truncatedText count])
  else (0, count + 1, stackFrames ++ [frameText demangle count sym])

-- for each frame: `__cxa_demangle` also fails where it gets no memory
variable (demangle : Nat → Str → Option Str)

/-- The loop of `backtrace_full` over the frames that are left. -/
def dumpFrom : List Symbol → Nat → List Str → List Str
  | [], _, stackFrames => stackFrames
  | sym :: syms, count, stackFrames =>
    let (res, count, stackFrames) := backtrace (demangle count) sym count stackFrames
    if res = 0 then dumpFrom syms count stackFrames else stackFrames

def dump (syms : List Symbol) : List Str := dumpFrom demangle syms 0 []

def texts (count : Nat) (syms : List Symbol) : List Str :=
  syms.mapIdx fun i sym => frameText (demangle (count + i)) (count + i) sym

variable {demangle}

theorem texts_cons : texts demangle count (sym :: syms) =
    frameText (demangle count) count sym :: texts demangle (count + 1) syms := by
  simp [texts, List.mapIdx_cons, Nat.add_comm 1, Nat.add_assoc]

theorem dumpFrom_eq (hcount : count ≤ maxStackFrames) :
    dumpFrom demangle syms count stackFrames =
      stackFrames ++ texts demangle count
        ((syms.filter Symbol.known).take (maxStackFrames - count)) ++
      if maxStackFrames - count < (syms.filter Symbol.known).length then
        [truncatedText maxStackFrames]
      else [] := by
  induction syms generalizing count stackFrames with
  | nil => simp [dumpFrom, texts]
  | cons sym syms ih =>
    cases hknown : sym.known with
    | false =>
      rw [List.filter_cons_of_neg (by simp [hknown])]
      simp [dumpFrom, backtrace, hknown, ih hcount]
    | true =>
      rw [List.filter_cons_of_pos hknown]
      rcases Nat.eq_or_lt_of_le hcount with rfl | hlt
      · simp [dumpFrom, backtrace, hknown, texts]
      · obtain ⟨left, hleft⟩ : ∃ left, maxStackFrames - count = left + 1 :=
          ⟨maxStackFrames - count - 1, by omega⟩
        have hrest := @ih (count + 1) (stackFrames ++ [frameText (demangle count) count sym]) hlt
        rw [show maxStackFrames - (count + 1) = left by omega] at hrest
        simp only [hleft, List.take_succ_cons, texts_cons, List.length_cons,
          Nat.add_lt_add_iff_right]
        simp [dumpFrom, backtrace, hknown, Nat.not_le.mpr hlt, hrest]

theorem dump_eq (syms : List Symbol) : dump demangle syms =
    texts demangle 0 ((syms.filter Symbol.known).take maxStackFrames) ++
      if maxStackFrames < (syms.filter Symbol.known).length then [truncatedText maxStackFrames]
      else [] :=
  dumpFrom_eq (Nat.zero_le _)

end StackDumper

-- ---------------------------------------------------------------------------
-- One line
-- ---------------------------------------------------------------------------

theorem line_eq (text : Str) : line text = cString (text.take (FileAppender.buffSize - 1)) := by
  have hnul (s : Str) : cString (s ++ [nul]) = cString s := by
    induction s with
    | nil => rfl
    | cons c s ih => by_cases hc : c = nul <;> simp_all [cString]
  exact hnul _

theorem line_length_le (text : Str) : (line text).length ≤ text.length := by
  rw [line_eq]
  exact ((List.takeWhile_sublist _).trans (List.take_sublist _ _)).length_le

theorem line_length_lt (text : Str) : (line text).length < FileAppender.buffSize := by
  rw [line_eq]
  refine Nat.lt_of_le_of_lt (List.takeWhile_sublist _).length_le ?_
  rw [List.length_take]
  exact Nat.lt_of_le_of_lt (Nat.min_le_left _ _) (by decide)

theorem line_eq_self (hnul : nul ∉ text) (hfits : text.length < FileAppender.buffSize) :
    line text = text := by
  rw [line_eq, List.take_of_length_le (Nat.le_sub_one_of_lt hfits)]
  exact cString_eq_self_iff.mpr hnul

theorem lines_cutIfNeed (a : FileAppender) (x : CutInput) (sh : Shared) :
    (sh.cutIfNeed a x).2.flatMap Event.lines = [] := by
  unfold Shared.cutIfNeed
  split
  · dsimp only
    split
    · refine List.flatMap_eq_nil_iff.mpr fun e he => ?_
      cases e with
      | wrote s => exact absurd he wrote_notMem_cut
      | rotated | removed | dropped => rfl
    · rfl
  · rfl

theorem lines_write (x : CutInput) (text : Str) (files : FileSystem) (app : Option Appender) :
    (Appender.write x text files app).2.2.flatMap Event.lines =
      if Appender.opens x files app = true then [line text] else [] := by
  cases app with
  | none => rfl
  | some a =>
    simp only [Appender.write, Shared.write, List.flatMap_append, lines_cutIfNeed, List.nil_append]
    cases hopen : Appender.opens x files (some a) with
    | false =>
      have hclosed : ((a.shared files).cutIfNeed a.conf x).1.isOpen = false := hopen
      simp [Shared.append, hclosed, Event.lines]
    | true =>
      have hopened : ((a.shared files).cutIfNeed a.conf x).1.isOpen = true := hopen
      simp [Shared.append, hopened, Event.lines, line]

theorem cutIfNeed_isOpen (a : FileAppender) (x : CutInput) (sh : Shared) :
    (sh.cutIfNeed a x).1.isOpen =
      if a.isCut_ = true ∧ a.genHourSuffix x.tvSec > sh.lastHourSuffix_ then x.opened
      else sh.isOpen := by
  have hopen (sh : Shared) : (sh.openStream a x.opened).isOpen = x.opened := by
    unfold Shared.openStream
    cases x.opened <;> rfl
  have hdelete (sh : Shared) (hour : Int) : (sh.deleteOverdueFile a hour).1.isOpen = sh.isOpen := by
    unfold Shared.deleteOverdueFile
    split <;> rfl
  by_cases hcut : a.isCut_ = true <;>
    by_cases hlate : a.genHourSuffix x.tvSec > sh.lastHourSuffix_ <;>
      by_cases hretain : a.retainHours_ > 0 <;>
        simp [Shared.cutIfNeed, Shared.cut, hcut, hlate, hretain, hopen, hdelete]

namespace LoggerState

variable {l : LoggerState}

-- ---------------------------------------------------------------------------
-- What `Backtrace` writes
-- ---------------------------------------------------------------------------

def fileLines (os : List Output) : List Str :=
  os.flatMap fun
    | .file e => e.lines
    | _ => []

def crashFileLines (os : List Output) : List Str :=
  os.flatMap fun
    | .crashFile e => e.lines
    | _ => []

theorem fileLines_append (os os' : List Output) :
    fileLines (os ++ os') = fileLines os ++ fileLines os' :=
  List.flatMap_append

theorem crashFileLines_append (os os' : List Output) :
    crashFileLines (os ++ os') = crashFileLines os ++ crashFileLines os' :=
  List.flatMap_append

theorem fileLines_writeFile (x : CutInput) (msg : Str) (l : LoggerState) :
    fileLines (l.writeFile x msg).2 = if l.fileOpen x = true then [line msg] else [] := by
  simp only [fileLines, writeFile, List.flatMap_map, fileOpen]
  exact lines_write ..

theorem crashFileLines_writeCrashFile (x : CutInput) (msg : Str) (l : LoggerState) :
    crashFileLines (l.writeCrashFile x msg).2 =
      if l.crashFileOpen x = true then [line msg] else [] := by
  simp only [crashFileLines, writeCrashFile, List.flatMap_map, crashFileOpen]
  exact lines_write ..

theorem fileLines_writeCrashFile : fileLines (l.writeCrashFile x msg).2 = [] := by
  simp [fileLines, writeCrashFile, List.flatMap_map]

theorem crashFileLines_writeFile : crashFileLines (l.writeFile x msg).2 = [] := by
  simp [crashFileLines, writeFile, List.flatMap_map]

theorem crashFileOpen_writeFile (x y : CutInput) (msg : Str) (l : LoggerState) :
    (l.writeFile x msg).1.crashFileOpen y = l.crashFileOpen y := by
  cases h : l.crashFileAppender_ with
  | none => simp [crashFileOpen, Appender.opens, writeFile, h]
  | some a =>
    simp [crashFileOpen, Appender.opens, writeFile, h, cutIfNeed_isOpen, Appender.shared]

variable {x : LogInput} {stackFrames : List Str}

theorem fileLines_backtrace (h : x.stackFrames = some stackFrames) :
    fileLines (l.backtrace x).2 = if l.fileOpen x.backtraceCut = true then
      [line (formatNoArgs x.unpassed (cString (listing stackFrames)))] else [] := by
  simp only [backtrace, h, List.cons_append]
  rw [← List.singleton_append, fileLines_append, fileLines_append, fileLines_writeFile,
    fileLines_writeCrashFile, List.append_nil]
  rfl

theorem crashFileLines_backtrace (h : x.stackFrames = some stackFrames) :
    crashFileLines (l.backtrace x).2 = if l.crashFileOpen x.backtraceCut = true then
      [line (formatNoArgs x.unpassed (cString (listing stackFrames)))] else [] := by
  simp only [backtrace, h, List.cons_append]
  rw [← List.singleton_append, crashFileLines_append, crashFileLines_append,
    crashFileLines_writeFile, crashFileLines_writeCrashFile, crashFileOpen_writeFile]
  rfl

-- ---------------------------------------------------------------------------
-- The complete list
-- ---------------------------------------------------------------------------

/-- Both files get this text, once, and no other. -/
def Receive (text : Str) (os : List Output) : Prop :=
  fileLines os = [text] ∧ crashFileLines os = [text]

def Plain (sf : Str) : Prop := '%' ∉ sf ∧ nul ∉ sf

theorem mem_listing_iff (htab : c ≠ '\t') (hnewline : c ≠ '\n') :
    c ∈ listing stackFrames ↔ ∃ sf ∈ stackFrames, c ∈ sf := by
  simp [listing, htab, hnewline]

theorem listing_plain_iff : Plain (listing stackFrames) ↔ ∀ sf ∈ stackFrames, Plain sf := by
  have hpercent := @mem_listing_iff stackFrames '%' (by decide) (by decide)
  have hnul := @mem_listing_iff stackFrames nul (by decide) (by decide)
  simp only [Plain, hpercent, hnul, not_exists, not_and, forall_and]

theorem backtrace_complete (hplain : ∀ sf ∈ stackFrames, Plain sf)
    (hfits : (listing stackFrames).length < FileAppender.buffSize)
    (h : x.stackFrames = some stackFrames) (hfile : l.fileOpen x.backtraceCut = true)
    (hcrash : l.crashFileOpen x.backtraceCut = true) :
    Receive (listing stackFrames) (l.backtrace x).2 := by
  obtain ⟨hpercent, hnul⟩ := listing_plain_iff.mpr hplain
  have hline : line (formatNoArgs x.unpassed (cString (listing stackFrames))) =
      listing stackFrames := by
    rw [cString_eq_self_iff.mpr hnul, formatNoArgs_eq_self hpercent, line_eq_self hnul hfits]
  constructor
  · rw [fileLines_backtrace h, if_pos hfile, hline]
  · rw [crashFileLines_backtrace h, if_pos hcrash, hline]

/-- A call stack within the limit reaches the files with one line for each of its
frames. -/
theorem dump_complete (hfew : (syms.filter StackDumper.Symbol.known).length ≤
      StackDumper.maxStackFrames)
    (hplain : ∀ sf ∈ StackDumper.dump demangle syms, Plain sf)
    (hfits : (listing (StackDumper.dump demangle syms)).length < FileAppender.buffSize)
    (h : x.stackFrames = some (StackDumper.dump demangle syms))
    (hfile : l.fileOpen x.backtraceCut = true) (hcrash : l.crashFileOpen x.backtraceCut = true) :
    Receive (listing (StackDumper.texts demangle 0 (syms.filter StackDumper.Symbol.known)))
      (l.backtrace x).2 := by
  have hall := backtrace_complete hplain hfits h hfile hcrash
  rwa [StackDumper.dump_eq, List.take_of_length_le hfew, if_neg (Nat.not_lt.mpr hfew),
    List.append_nil] at hall

def openLogger : LoggerState :=
  let conf : FileAppender := .new [] [] 0 false fun _ => ⟨0, 1, 0, 70⟩
  let a : Appender := { Appender.new conf with isOpen := true }
  { new fun _ => none with fileAppender_ := some a, crashFileAppender_ := some a }

def stackLog (stackFrames : List Str) : LogInput :=
  { plainLog with stackFrames := some stackFrames }

theorem stackLog_writes (stackFrames : List Str) :
    fileLines (openLogger.backtrace (stackLog stackFrames)).2 =
      [line (formatNoArgs (fun _ => []) (cString (listing stackFrames)))] :=
  fileLines_backtrace rfl

/-- The files get the complete list for exactly these call stacks, whatever an
unpassed argument would print. -/
theorem backtrace_complete_iff (stackFrames : List Str) :
    (∀ (x : LogInput) (l : LoggerState), x.stackFrames = some stackFrames →
      l.fileOpen x.backtraceCut = true → l.crashFileOpen x.backtraceCut = true →
      Receive (listing stackFrames) (l.backtrace x).2) ↔
    (∀ sf ∈ stackFrames, Plain sf) ∧ (listing stackFrames).length < FileAppender.buffSize := by
  constructor
  · intro hall
    have hreceive := hall (stackLog stackFrames) openLogger rfl rfl rfl
    have hline := List.singleton_inj.mp ((stackLog_writes stackFrames).symm.trans hreceive.1)
    have hnul : nul ∉ listing stackFrames := by
      rw [← hline]
      exact nul_notMem_cString _
    have hpercent : '%' ∉ listing stackFrames := by
      intro hmem
      have hlt := formatNoArgs_length_lt hmem
      have hle := line_length_le (formatNoArgs (fun _ => []) (cString (listing stackFrames)))
      rw [hline, cString_eq_self_iff.mpr hnul] at hle
      exact Nat.not_lt.mpr hle hlt
    refine ⟨listing_plain_iff.mp ⟨hpercent, hnul⟩, ?_⟩
    have hlt := line_length_lt (formatNoArgs (fun _ => []) (cString (listing stackFrames)))
    rwa [hline] at hlt
  · rintro ⟨hplain, hfits⟩ x l h hfile hcrash
    exact backtrace_complete hplain hfits h hfile hcrash

theorem take_listing (c : Char) (hk : k ≤ n) :
    (listing [List.replicate n c]).take (2 + k) = "\t\t".toList ++ List.replicate k c := by
  simp [listing, List.take_append, List.take_replicate, Nat.add_comm 2, hk,
    Nat.sub_eq_zero_of_le hk]

/-- A percent sign is lost from a frame with two of them, and the end of a long
frame is cut off. -/
theorem backtrace_incomplete :
    fileLines (openLogger.backtrace (stackLog ["#0 [a%%b.cc:1][f]".toList])).2 =
      ["\t\t#0 [a%b.cc:1][f]\n".toList] ∧
    fileLines (openLogger.backtrace (stackLog [List.replicate 5000 'f'])).2 =
      ["\t\t".toList ++ List.replicate 4093 'f'] := by
  constructor
  · decide +kernel
  · have hplain : Plain (listing [List.replicate 5000 'f']) := by
      rw [listing_plain_iff, List.forall_mem_singleton, Plain, List.mem_replicate,
        List.mem_replicate]
      decide
    have htake : (listing [List.replicate 5000 'f']).take (FileAppender.buffSize - 1) =
        "\t\t".toList ++ List.replicate 4093 'f' := @take_listing 4093 5000 'f' (by decide)
    have hnul : nul ∉ "\t\t".toList ++ List.replicate 4093 'f' := by
      rw [← htake]
      exact fun hmem => hplain.2 (List.mem_of_mem_take hmem)
    rw [stackLog_writes, cString_eq_self_iff.mpr hplain.2, formatNoArgs_eq_self hplain.1, line_eq,
      htake, cString_eq_self_iff.mpr hnul]

end LoggerState

end CppUtil.Logger

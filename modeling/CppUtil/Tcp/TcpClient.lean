import CppUtil.Lang.CString
import CppUtil.Lang.StringStream
import CppUtil.Lib.Pieces

/-!
# `TcpClient`

What the receive thread prints. It splits what one `read` returned into lines
and keeps nothing for the next `read`, and it ends the buffer with a NUL behind
the bytes it read, which is outside of the buffer when `read` filled it.

So the messages are the lines of the stream exactly when no `read` fills the
buffer and none ends inside a line.
-/

namespace CppUtil.Tcp

open Lang Lib

def maxBufferSize : Nat := 4096

/-- The loop of `Split`. Every round reads at least one character or ends the
stream, so the characters left bound the rounds. -/
def splitLoop (delim : Char) : (fuel : Nat) → StringStream → Str → List Str → List Str
  | 0, _, _, res => res
  | fuel + 1, iss, temp, res =>
    if !iss.eof then
      let (temp, iss) := iss.getline delim temp
      splitLoop delim fuel iss temp
        (if temp ≠ "\n".toList ∧ temp ≠ [] then res ++ [temp] else res)
    else res

def split (msg : Str) (delim : Char) : List Str :=
  splitLoop delim (msg.length + 1) (.ofString msg) [] []

def readBuffer (bytes : Str) : Str := bytes ++ List.replicate (maxBufferSize - bytes.length) nul

/-- One round of the receive loop with data: the messages it prints, or nothing
when `buffer[nbytes] = '\0'` is outside of the buffer. -/
def receive (bytes : Str) : Option (List Str) :=
  let buffer := readBuffer bytes
  if bytes.length < buffer.length then
    some (split (cString (buffer.set bytes.length nul)) '\n')
  else none

def receiveAll : List Str → Option (List Str)
  | [] => some []
  | bytes :: reads =>
    (receive bytes).bind fun messages => (receiveAll reads).map fun more => messages ++ more

/-- The lines of a stream that are not empty: what the messages should be. -/
def messages (stream : Str) : List Str := pieces '\n' stream

-- ---------------------------------------------------------------------------
-- One read
-- ---------------------------------------------------------------------------

theorem splitLoop_eq (h : iss.good = true) (hfuel : iss.rest.length < fuel) :
    splitLoop '\n' fuel iss temp res = res ++ pieces '\n' iss.rest := by
  induction fuel generalizing iss temp res with
  | zero => exact absurd hfuel (Nat.not_lt_zero _)
  | succ fuel ih =>
    obtain ⟨text, next, hline, -, hnext⟩ := iss.getline_good h '\n' temp
    obtain ⟨hfree, heof⟩ := iss.getline_line h '\n' temp
    simp only [hline] at hfree heof
    -- the comparison with the delimiter itself never decides
    have hkept : (if text ≠ "\n".toList ∧ text ≠ [] then res ++ [text] else res) =
        res ++ [text].filter (· ≠ []) := by
      have hne : text ≠ "\n".toList := by
        rintro rfl
        simp at hfree
      by_cases hempty : text = []
      · rw [if_neg fun hand => hand.2 hempty]
        simp [hempty]
      · rw [if_pos ⟨hne, hempty⟩]
        simp [hempty]
    have hgo : iss.eof = false := (StringStream.good_iff.mp h).1
    simp only [splitLoop, hgo, Bool.not_false, if_true, hline, hkept]
    rcases hnext with ⟨hstop, hpieces⟩ | ⟨hgood, hpieces, hlen⟩
    · rw [pieces, hpieces]
      cases fuel <;> simp [splitLoop, heof, hstop]
    · rw [ih hgood (by omega), pieces, pieces, hpieces, List.append_assoc, ← List.filter_append]
      rfl

theorem split_eq (msg : Str) : split msg '\n' = pieces '\n' msg :=
  splitLoop_eq (StringStream.ofString_good msg) (Nat.lt_succ_self _)

theorem receive_eq (hnul : nul ∉ bytes) (hlen : bytes.length ≤ maxBufferSize) :
    receive bytes = if bytes.length < maxBufferSize then some (messages bytes) else none := by
  have hsize : (readBuffer bytes).length = maxBufferSize := by
    simp [readBuffer]
    omega
  rw [receive, hsize]
  split
  · next hlt =>
    obtain ⟨n, hn⟩ : ∃ n, maxBufferSize - bytes.length = n + 1 := ⟨_, (Nat.sub_add_cancel (by omega)).symm⟩
    have hset : (readBuffer bytes).set bytes.length nul = bytes ++ nul :: List.replicate n nul := by
      simp [readBuffer, hn, List.replicate_succ]
    rw [hset, cString_append_nul hnul, split_eq]
    rfl
  · rfl

theorem receiveAll_eq (hnul : ∀ bytes ∈ reads, nul ∉ bytes)
    (hlen : ∀ bytes ∈ reads, bytes.length ≤ maxBufferSize) :
    receiveAll reads =
      if ∀ bytes ∈ reads, bytes.length < maxBufferSize then some (reads.flatMap messages)
      else none := by
  induction reads with
  | nil => simp [receiveAll]
  | cons bytes reads ih =>
    rw [List.forall_mem_cons] at hnul hlen
    rw [receiveAll, receive_eq hnul.1 hlen.1, ih hnul.2 hlen.2]
    by_cases hlt : bytes.length < maxBufferSize
    · by_cases hall : ∀ bytes ∈ reads, bytes.length < maxBufferSize
      · have hcons : ∀ b ∈ bytes :: reads, b.length < maxBufferSize :=
          List.forall_mem_cons.mpr ⟨hlt, hall⟩
        rw [if_pos hlt, if_pos hall, if_pos hcons]
        rfl
      · simp [hlt, hall]
    · simp [hlt]

theorem receiveAll_of_lt (hnul : ∀ bytes ∈ reads, nul ∉ bytes)
    (hlt : ∀ bytes ∈ reads, bytes.length < maxBufferSize) :
    receiveAll reads = some (reads.flatMap messages) := by
  rw [receiveAll_eq hnul fun bytes hmem => (hlt bytes hmem).le, if_pos hlt]

-- ---------------------------------------------------------------------------
-- All reads
-- ---------------------------------------------------------------------------

theorem receiveAll_messages_iff (hnul : nul ∉ reads.flatten)
    (hread : ∀ bytes ∈ reads, 1 ≤ bytes.length ∧ bytes.length ≤ maxBufferSize) :
    receiveAll reads = some (messages reads.flatten) ↔
      (∀ bytes ∈ reads, bytes.length < maxBufferSize) ∧ reads.IsChain (Clean '\n') := by
  have hfree : ∀ bytes ∈ reads, nul ∉ bytes := fun bytes hmem hin =>
    hnul (List.mem_flatten_of_mem hmem hin)
  have hne : ∀ bytes ∈ reads, bytes ≠ [] := fun bytes hmem =>
    List.ne_nil_of_length_pos (hread bytes hmem).1
  rw [receiveAll_eq hfree fun bytes hmem => (hread bytes hmem).2, ← flatMap_pieces_eq_iff hne]
  split
  · next hall => exact ⟨fun h => ⟨hall, Option.some.inj h⟩, fun h => congrArg some h.2⟩
  · next hall => exact ⟨fun h => absurd h (by simp), fun h => absurd h.1 hall⟩

theorem receiveAll_messages_iff_glued :
    receiveAll ["hi\nyou".toList, "\n\nbye\n".toList] =
      some ["hi".toList, "you".toList, "bye".toList] :=
  (receiveAll_messages_iff (by decide) (by decide)).mpr ⟨by decide, by decide⟩

/-- One line that arrives in two reads is printed as two messages. -/
theorem receiveAll_fails_cut_line :
    receiveAll ["hel".toList, "lo\n".toList] = some ["hel".toList, "lo".toList] ∧
      messages (["hel".toList, "lo\n".toList] : List Str).flatten = ["hello".toList] ∧
      receiveAll ["hello\n".toList] = some ["hello".toList] :=
  ⟨receiveAll_of_lt (by decide) (by decide), by decide, receiveAll_of_lt (by decide) (by decide)⟩

end CppUtil.Tcp

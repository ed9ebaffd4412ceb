import CppUtil.HttpServer.Sending

/-!
# Where the stream of a response stands

Each call of `OnWriteable` reads a chunk from the stream, and `Rollback` takes
back what the socket has not taken of it. So the socket has the text up to the
position of the stream after every call, the last one included, as long as each
`Rollback` goes to a position that is a value of `int` (`stream_in_step_iff`).
-/

namespace CppUtil.HttpServer

open Lang (Str StringStream wrapInt)

/-- The socket has taken `accepted` of the text, and the stream stands behind it. -/
structure InStep (text accepted : Str) (ss : StringStream) : Prop where
  sent : accepted <+: text
  whole : ss.str = text
  position : ss.position = accepted.length

def Sending.KeepsStep (text : Str) : Sending → List Nat → Prop
  | _, [] => True
  | s, n :: ns => ∃ s', s.send n = some s' ∧
    InStep text s'.accepted (s.ctx.rolledBack n).resp.respBuff ∧ KeepsStep text s' ns

/-- A send from `offset` on takes all it is offered, or leaves an offset that is a
value of `int`. -/
def OffsetsFit (length : Nat) : (offset : Nat) → List Nat → Prop
  | _, [] => True
  | offset, n :: ns =>
    (n = min epollSocketWriteBufferSize (length - offset) ∨ offset + n < 2 ^ 31) ∧
      OffsetsFit length (offset + n) ns

-- ---------------------------------------------------------------------------
-- One call
-- ---------------------------------------------------------------------------

def chunkSize (text : Str) (p : Nat) : Nat := min epollSocketWriteBufferSize (text.length - p)

section
variable {s s' : Sending} {text : Str}

theorem HttpContext.toSend_chunk {c : HttpContext} (hat : c.pending = .positioned text p)
    (hp : p ≤ text.length) :
    c.toSend.2.1 = (text.drop p).take epollSocketWriteBufferSize ∧
      c.toSend.2.1.length = chunkSize text p ∧
      ∃ next, c.toSend.2.2.resp.respBuff = next ∧ next.str = text ∧
        next.position = p + chunkSize text p ∧
        (if next.eof then next.clear else next) = .positioned text (p + chunkSize text p) := by
  obtain ⟨next, hread, hnext⟩ := StringStream.read_positioned hp epollSocketWriteBufferSize
  have hbuffer : c.toSend.2.1 = (text.drop p).take epollSocketWriteBufferSize := by
    rw [toSend_buffer, hat, hread]
  refine ⟨hbuffer, ?_, next, by rw [toSend_stream, hat, hread], hnext⟩
  rw [hbuffer, List.length_take, List.length_drop, chunkSize]

/-- The stream is where the text that was taken ends, unless the socket took less than
it was offered and the position there is no value of `int`. -/
theorem HttpContext.rolledBack_position {c : HttpContext} (hat : c.pending = .positioned text p)
    (hp : p ≤ text.length) (hn : n ≤ chunkSize text p) :
    (c.rolledBack n).resp.respBuff.str = text ∧
      ((c.rolledBack n).resp.respBuff.position = p + n ↔
        n = chunkSize text p ∨ p + n < 2 ^ 31) := by
  obtain ⟨-, hlen, next, hstream, hstr, hpos, hclear⟩ := c.toSend_chunk hat hp
  have hend : p + chunkSize text p ≤ text.length := by
    rw [chunkSize]
    omega
  simp only [rolledBack, hlen]
  split
  · have hback := HttpResponse.rollback_positioned (by rw [hstream]; exact hclear) hend
      ((chunkSize text p : Int) - n)
    have hsub : ((p + chunkSize text p : Nat) : Int) - (chunkSize text p - n) = p + n := by omega
    obtain ⟨hstr', hpos'⟩ := StringStream.seekg_position hend (wrapInt (p + n))
    rw [hsub] at hback
    simp only [hback, hstr', hpos', true_and]
    rcases Nat.lt_or_ge (p + n) (2 ^ 31) with hfits | hlarge
    · rw [Lang.wrapInt_eq (by omega) (by omega), if_pos (by omega)]
      omega
    · have hwrap : wrapInt (p + n) + 2 ^ 32 ≤ p + n := Lang.wrapInt_add_le (by omega)
      split <;> omega
  · rw [hstream]
    refine ⟨hstr, ?_⟩
    omega

theorem Sending.OnTrack.send (ht : s.OnTrack text p) (h : s.send n = some s') :
    n ≤ chunkSize text p ∧ s'.accepted = text.take (p + n) ∧
      (InStep text s'.accepted (s.ctx.rolledBack n).resp.respBuff ↔
        n = chunkSize text p ∨ p + n < 2 ^ 31) := by
  obtain ⟨hat, hp, hacc⟩ := ht
  obtain ⟨-, hn, rfl⟩ := send_eq_some.mp h
  obtain ⟨hbuffer, hlen, -⟩ := s.ctx.toSend_chunk hat hp
  rw [hlen] at hn
  obtain ⟨hstr, hpos⟩ := s.ctx.rolledBack_position hat hp hn
  have hmax : n ≤ epollSocketWriteBufferSize := hn.trans (Nat.min_le_left _ _)
  have hrest : p + n ≤ text.length := by
    have := hn.trans (Nat.min_le_right _ _)
    omega
  have htake : s.accepted ++ s.ctx.toSend.2.1.take n = text.take (p + n) := by
    rw [hacc, hbuffer, List.take_take, Nat.min_eq_left hmax, List.take_add]
  refine ⟨hn, htake, ?_⟩
  simp only [htake]
  rw [← hpos]
  constructor
  · rintro ⟨-, -, hposition⟩
    rw [hposition, List.length_take, Nat.min_eq_left hrest]
  · intro hposition
    refine ⟨List.take_prefix _ _, hstr, ?_⟩
    rw [hposition, List.length_take, Nat.min_eq_left hrest]

-- ---------------------------------------------------------------------------
-- Whole responses
-- ---------------------------------------------------------------------------

theorem Sending.OnTrack.keepsStep_iff (ht : s.OnTrack text p) (hs : s.status = .writeContinue)
    (h : s.run ns = some s') : s.KeepsStep text ns ↔ OffsetsFit text.length p ns := by
  induction ns generalizing s p with
  | nil => exact iff_of_true trivial trivial
  | cons n ns ih =>
    obtain ⟨t, hsend, hrun⟩ := Option.bind_eq_some_iff.mp h
    obtain ⟨hn, hacc, hstep⟩ := ht.send hsend
    simp only [KeepsStep, OffsetsFit, hsend, Option.some.injEq, exists_eq_left']
    rw [hstep]
    refine and_congr_right fun hfit => ?_
    by_cases hcont : t.status = .writeContinue
    · -- only the last chunk is shorter than the buffer
      have hfull : p + epollSocketWriteBufferSize ≤ text.length := by
        by_contra hlast
        exact (send_last ht.1 ht.2.1 (by omega) hsend).1 hcont
      have hsize : chunkSize text p = epollSocketWriteBufferSize := by
        rw [chunkSize]
        omega
      rw [hsize] at hn hfit
      exact ih ⟨send_advances ht.1 hfull hfit hsend, by omega, hacc⟩ hcont hrun
    · obtain ⟨rfl, -⟩ := run_stopped hcont hrun
      exact iff_of_true trivial trivial

end

/-- After each call of `OnWriteable` the socket has taken the response up to the
position of its stream if and only if every `Rollback` goes to a position that is a
value of `int`. -/
theorem stream_in_step_iff {c : HttpContext} (hc : c.Unwritten)
    (hrun : Sending.run { ctx := c } ns = some s) :
    Sending.KeepsStep c.responseText { ctx := c } ns ↔ OffsetsFit c.responseText.length 0 ns :=
  Sending.OnTrack.keepsStep_iff ⟨hc.pending, Nat.zero_le _, List.take_zero.symm⟩ rfl hrun

theorem stream_in_step_hello : helloContext.Unwritten ∧
    (∃ s, Sending.run { ctx := helloContext } [10] = some s) ∧
    Sending.KeepsStep helloContext.responseText { ctx := helloContext } [10] := by
  have hc : helloContext.Unwritten := ⟨rfl, rfl⟩
  obtain ⟨s, hrun⟩ := Option.isSome_iff_exists.mp
    (show (Sending.run { ctx := helloContext } [10]).isSome = true by decide +kernel)
  exact ⟨hc, ⟨s, hrun⟩, (stream_in_step_iff hc hrun).mpr ⟨.inr (by decide), trivial⟩⟩

theorem keepContext_out_of_step (hbody : body.length = 2 ^ 31) :
    ∃ s s', Sending.run { ctx := keepContext body } (List.replicate (2 ^ 19) 4096) = some s ∧
      s.send 0 = some s' ∧ s'.accepted.length = 2 ^ 31 ∧
      (s.ctx.rolledBack 0).resp.respBuff.position ≠ 2 ^ 31 := by
  have hc : (keepContext body).Unwritten := ⟨rfl, rfl⟩
  have hlen : (keepContext body).responseText.length = 2 ^ 31 + 143 := by
    have hdigits : (Lang.stdToString (2 ^ 31 : Nat)).length = 10 := by decide +kernel
    rw [keepContext_length, hbody, hdigits, Nat.add_comm]
  have hstart : Sending.OnTrack { ctx := keepContext body } (keepContext body).responseText 0 :=
    ⟨hc.pending, Nat.zero_le _, List.take_zero.symm⟩
  have hoffset : 0 + epollSocketWriteBufferSize * 2 ^ 19 = 2 ^ 31 := by decide
  obtain ⟨s, hrun, ht, hs, -⟩ := hstart.run_full rfl (k := 2 ^ 19) (by rw [hoffset, hlen]; decide)
  rw [hoffset] at ht
  obtain ⟨s', hsend⟩ : ∃ s', s.send 0 = some s' :=
    ⟨_, Sending.send_eq_some.mpr ⟨hs, Nat.zero_le _, rfl⟩⟩
  obtain ⟨hn, hacc, hstep⟩ := ht.send hsend
  obtain ⟨-, hposition⟩ := s.ctx.rolledBack_position ht.1 ht.2.1 hn
  refine ⟨s, s', hrun, hsend, ?_, fun heq => ?_⟩
  · rw [hacc, List.length_take, hlen]
    decide
  · have hfit := hposition.mp heq
    rw [chunkSize, hlen] at hfit
    revert hfit
    decide

/-- The last chunk of a response of more than `2^31` bytes, of which the socket takes
nothing. -/
theorem stream_out_of_step_large :
    ∃ s s', Sending.run { ctx := keepContext (List.replicate (2 ^ 31) 'x') }
        (List.replicate (2 ^ 19) 4096) = some s ∧
      s.send 0 = some s' ∧ s'.accepted.length = 2 ^ 31 ∧
      (s.ctx.rolledBack 0).resp.respBuff.position ≠ 2 ^ 31 :=
  keepContext_out_of_step List.length_replicate

end CppUtil.HttpServer

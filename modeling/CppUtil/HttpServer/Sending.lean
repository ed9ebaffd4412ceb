import CppUtil.HttpServer.Server
import Mathlib.Data.List.TakeDrop

/-!
# Sending a response

A response is sent by calls of `OnWriteable`, each of which offers a chunk to
`send`, until one returns another status than `WRITE_CONTINUE`. The status says
whether the stream had come to its end before the chunk was sent, so what the
socket does not take of the last chunk is lost (`accepted_eq_text_iff`), and
the context is only reset if it takes some of it (`alive_fresh_iff`).
-/

namespace CppUtil.HttpServer

open Lang (Str StringStream wrapInt)

/-- A response on its way: the context, the bytes the socket has taken and the
status of the last call. -/
structure Sending where
  ctx : HttpContext
  accepted : Str := []
  status : WriteStatus := .writeContinue

def Sending.send (s : Sending) (n : Nat) : Option Sending :=
  let (_, buffer, _) := s.ctx.toSend
  if s.status = .writeContinue ∧ n ≤ buffer.length then
    let (status, ctx) := s.ctx.onWriteable n
    some { ctx, status, accepted := s.accepted ++ buffer.take n }
  else none

def Sending.run (s : Sending) : List Nat → Option Sending
  | [] => some s
  | n :: ns => (s.send n).bind fun s => s.run ns

def Sending.Done (s : Sending) : Prop := s.status = .writeOver ∨ s.status = .writeAlive

namespace HttpContext

def Unwritten (c : HttpContext) : Prop :=
  c.resp.isWritted = false ∧ c.resp.respBuff = .ofString []

def responseText (c : HttpContext) : Str := c.resp.text c.req.httpVersion c.isKeepalive.1

def pending (c : HttpContext) : StringStream := c.exported.2.resp.respBuff

end HttpContext

/-- The sends of a response of `length` bytes from `offset` on that lose
nothing: one that takes less than it is offered finds a full chunk, and leaves
an offset that is a value of `int`. -/
def SafeSends (length : Nat) : (offset : Nat) → List Nat → Prop
  | _, [] => True
  | offset, n :: ns =>
    (n = min epollSocketWriteBufferSize (length - offset) ∨
      offset + epollSocketWriteBufferSize ≤ length ∧ offset + n < 2 ^ 31) ∧
    SafeSends length (offset + n) ns

-- ---------------------------------------------------------------------------
-- One call
-- ---------------------------------------------------------------------------

namespace HttpContext

theorem Unwritten.pending {c : HttpContext} (h : c.Unwritten) :
    c.pending = .positioned c.responseText 0 := by
  obtain ⟨hwritten, hbuff⟩ := h
  simp [HttpContext.pending, exported, isKeepalive, hwritten,
    HttpResponse.exportBuffer2Response, hbuff, StringStream.write, responseText,
    StringStream.ofString, StringStream.good]

theorem pending_written {c : HttpContext} (h : c.resp.isWritted = true) :
    c.pending = c.resp.respBuff := by
  simp [HttpContext.pending, exported, isKeepalive, h]

theorem exported_written (c : HttpContext) : c.exported.2.resp.isWritted = true := by
  cases h : c.resp.isWritted <;> simp [exported, isKeepalive, h]

theorem toSend_written (c : HttpContext) : c.toSend.2.2.resp.isWritted = true :=
  c.exported_written

theorem toSend_buffer (c : HttpContext) :
    c.toSend.2.1 = (c.pending.read epollSocketWriteBufferSize).1 := rfl

theorem toSend_stream (c : HttpContext) :
    c.toSend.2.2.resp.respBuff = (c.pending.read epollSocketWriteBufferSize).2 := rfl

theorem toSend_status (c : HttpContext) :
    c.toSend.1 = if !(c.pending.read epollSocketWriteBufferSize).2.eof then .writeContinue
      else if c.exported.1 then .writeAlive else .writeOver := rfl

theorem onWriteable_status (c : HttpContext) (n : Nat) : (c.onWriteable n).1 = c.toSend.1 := by
  have hnat : ¬(n : Int) < 0 := by omega
  simp only [onWriteable, hnat, if_false]
  split <;> rfl

theorem onWriteable_pending {c : HttpContext} (h : c.toSend.1 = .writeContinue) (n : Nat) :
    (c.onWriteable n).2.pending =
      if n < c.toSend.2.1.length then
        (c.toSend.2.2.resp.rollback (c.toSend.2.1.length - n)).respBuff
      else c.toSend.2.2.resp.respBuff := by
  have hnat : ¬(n : Int) < 0 := by omega
  simp only [onWriteable, rolledBack, hnat, if_false, h, reduceCtorEq, false_and, Int.ofNat_lt]
  split
  · exact pending_written c.toSend_written
  · exact pending_written c.toSend_written

end HttpContext

theorem HttpResponse.rollback_positioned {r : HttpResponse}
    (h : (if r.respBuff.eof then r.respBuff.clear else r.respBuff) = .positioned text pos)
    (hpos : pos ≤ text.length) (size : Int) :
    (r.rollback size).respBuff
      = (StringStream.positioned text pos).seekg (wrapInt (pos - size)) := by
  have hlen : (StringStream.positioned text pos).past.length = pos :=
    StringStream.positioned_position hpos
  simp only [rollback, h, StringStream.tellg, StringStream.positioned_good, if_true, hlen,
    Lang.wrapInt_sub]

section
variable {s s' : Sending} {text : Str}

theorem Sending.send_eq_some :
    s.send n = some s' ↔ s.status = .writeContinue ∧ n ≤ s.ctx.toSend.2.1.length ∧
      s' = { ctx := (s.ctx.onWriteable n).2, status := s.ctx.toSend.1,
             accepted := s.accepted ++ s.ctx.toSend.2.1.take n } := by
  simp only [send, Option.ite_none_right_eq_some, Option.some.injEq, and_assoc]
  rw [s.ctx.onWriteable_status n, @eq_comm _ s']

theorem Sending.send_full (hat : s.ctx.pending = .positioned text p)
    (hfull : p + epollSocketWriteBufferSize ≤ text.length) (h : s.send n = some s') :
    s'.status = .writeContinue ∧ s'.accepted = s.accepted ++ (text.drop p).take n ∧
      n ≤ epollSocketWriteBufferSize ∧
      s'.ctx.pending =
        if n < epollSocketWriteBufferSize then
          (StringStream.positioned text (p + epollSocketWriteBufferSize)).seekg (wrapInt (p + n))
        else .positioned text (p + n) := by
  obtain ⟨-, hn, rfl⟩ := send_eq_some.mp h
  have hread := StringStream.read_full hfull
  have hbuffer : s.ctx.toSend.2.1 = (text.drop p).take epollSocketWriteBufferSize := by
    rw [HttpContext.toSend_buffer, hat, hread]
  have hstream : s.ctx.toSend.2.2.resp.respBuff
      = .positioned text (p + epollSocketWriteBufferSize) := by
    rw [HttpContext.toSend_stream, hat, hread]
  have hstatus : s.ctx.toSend.1 = .writeContinue := by
    rw [HttpContext.toSend_status, hat, hread]
    rfl
  have hlen : s.ctx.toSend.2.1.length = epollSocketWriteBufferSize := by
    rw [hbuffer, List.length_take, List.length_drop]
    omega
  rw [hlen] at hn
  refine ⟨hstatus, ?_, hn, ?_⟩
  · simp only [hbuffer, List.take_take, Nat.min_eq_left hn]
  · rw [HttpContext.onWriteable_pending hstatus, hlen, hstream,
      HttpResponse.rollback_positioned (by rw [hstream]; rfl) hfull]
    split
    · congr 2
      omega
    · congr
      omega

theorem Sending.send_last (hat : s.ctx.pending = .positioned text p) (hp : p ≤ text.length)
    (hlast : text.length < p + epollSocketWriteBufferSize) (h : s.send n = some s') :
    s'.status ≠ .writeContinue ∧ s'.accepted = s.accepted ++ (text.drop p).take n ∧
      p + n ≤ text.length := by
  obtain ⟨-, hn, rfl⟩ := send_eq_some.mp h
  have hread := StringStream.read_last hlast hp
  have hbuffer : s.ctx.toSend.2.1 = text.drop p := by
    rw [HttpContext.toSend_buffer, hat, hread]
  refine ⟨?_, by rw [hbuffer], ?_⟩
  · simp only [HttpContext.toSend_status, hat, hread]
    cases s.ctx.exported.1 <;> decide
  · rw [hbuffer, List.length_drop] at hn
    omega

theorem Sending.send_failed (hfail : s.ctx.pending.fail = true) (heof : s.ctx.pending.eof = false)
    (h : s.send n = some s') :
    s'.status = .writeContinue ∧ s'.ctx.pending.fail = true ∧ s'.ctx.pending.eof = false := by
  obtain ⟨-, hn, rfl⟩ := send_eq_some.mp h
  have hread : s.ctx.pending.read epollSocketWriteBufferSize
      = ([], { s.ctx.pending with fail := true }) := by
    rw [StringStream.read, if_neg (by simp [StringStream.good, hfail])]
  have hstatus : s.ctx.toSend.1 = .writeContinue := by
    rw [HttpContext.toSend_status, hread, heof]
    rfl
  have hpending : (s.ctx.onWriteable n).2.pending = { s.ctx.pending with fail := true } := by
    rw [HttpContext.onWriteable_pending hstatus, HttpContext.toSend_buffer,
      HttpContext.toSend_stream, hread]
    rfl
  rw [hpending]
  exact ⟨hstatus, rfl, heof⟩

-- ---------------------------------------------------------------------------
-- Whole responses
-- ---------------------------------------------------------------------------

/-- The stream has failed, or has been set back by more than a chunk. -/
def Sending.Derailed (s : Sending) (text : Str) : Prop :=
  (s.ctx.pending.fail = true ∧ s.ctx.pending.eof = false) ∨
    ∃ p, s.ctx.pending = .positioned text p ∧ p ≤ text.length ∧ p + 2 ^ 32 ≤ s.accepted.length

theorem Sending.send_advances (hat : s.ctx.pending = .positioned text p)
    (hfull : p + epollSocketWriteBufferSize ≤ text.length)
    (hn : n = epollSocketWriteBufferSize ∨ p + n < 2 ^ 31) (h : s.send n = some s') :
    s'.ctx.pending = .positioned text (p + n) := by
  obtain ⟨-, -, hle, hpending⟩ := send_full hat hfull h
  rw [hpending]
  split
  · have hwrap : wrapInt (p + n) = ((p + n : Nat) : Int) := Lang.wrapInt_eq (by omega) (by omega)
    rw [hwrap, StringStream.seekg_inside (by omega)]
  · rfl

theorem Sending.send_wrapped (hat : s.ctx.pending = .positioned text p)
    (hfull : p + epollSocketWriteBufferSize ≤ text.length) (hacc : p ≤ s.accepted.length)
    (hn : n < epollSocketWriteBufferSize) (hlarge : 2 ^ 31 ≤ p + n) (h : s.send n = some s') :
    s'.Derailed text := by
  obtain ⟨-, hacc', -, hpending⟩ := send_full hat hfull h
  have hlen : s'.accepted.length = s.accepted.length + n := by
    rw [hacc', List.length_append, List.length_take, List.length_drop]
    omega
  have hback : wrapInt (p + n) + 2 ^ 32 ≤ p + n := Lang.wrapInt_add_le (by omega)
  rw [if_pos hn] at hpending
  by_cases hneg : wrapInt (p + n) < 0
  · refine .inl ?_
    rw [hpending, StringStream.seekg, if_neg (by simp [StringStream.positioned]),
      if_neg (by omega)]
    exact ⟨rfl, rfl⟩
  · refine .inr ⟨(wrapInt (p + n)).toNat, ?_, by omega, by omega⟩
    have hnat : wrapInt (p + n) = ((wrapInt (p + n)).toNat : Int) := by omega
    rw [hpending, hnat, StringStream.seekg_inside (by omega), ← hnat]

theorem Sending.Derailed.send (hd : s.Derailed text) (h : s.send n = some s') :
    (s'.status = .writeContinue → s'.Derailed text) ∧
      (s'.status ≠ .writeContinue → s'.accepted ≠ text) := by
  rcases hd with ⟨hfail, heof⟩ | ⟨p, hat, hp, hacc⟩
  · obtain ⟨hstatus, hfail', heof'⟩ := send_failed hfail heof h
    exact ⟨fun _ => .inl ⟨hfail', heof'⟩, fun hne => absurd hstatus hne⟩
  · by_cases hfull : p + epollSocketWriteBufferSize ≤ text.length
    · obtain ⟨hstatus, hacc', hle, -⟩ := send_full hat hfull h
      refine ⟨fun _ => ?_, fun hne => absurd hstatus hne⟩
      by_cases hn : n = epollSocketWriteBufferSize ∨ p + n < 2 ^ 31
      · refine .inr ⟨p + n, send_advances hat hfull hn h, by omega, ?_⟩
        rw [hacc', List.length_append, List.length_take, List.length_drop]
        omega
      · exact send_wrapped hat hfull (by omega) (by omega) (by omega) h
    · obtain ⟨hstatus, hacc', hle⟩ := send_last hat hp (by omega) h
      refine ⟨fun heq => absurd heq hstatus, fun _ heq => ?_⟩
      have hlen := congrArg List.length (hacc'.symm.trans heq)
      rw [List.length_append] at hlen
      have hsize : epollSocketWriteBufferSize = 4096 := rfl
      omega

theorem Sending.run_stopped (hs : s.status ≠ .writeContinue) (h : s.run ns = some s') :
    ns = [] ∧ s' = s := by
  cases ns with
  | nil => exact ⟨rfl, (Option.some.inj h).symm⟩
  | cons n ns =>
    obtain ⟨t, hsend, -⟩ := Option.bind_eq_some_iff.mp h
    exact absurd (send_eq_some.mp hsend).1 hs

theorem Sending.Done.ne (h : s.Done) : s.status ≠ .writeContinue := by
  rcases h with h | h <;> simp [h]

theorem Sending.Derailed.run (hd : s.Derailed text) (hs : s.status = .writeContinue)
    (h : s.run ns = some s') (hdone : s'.Done) : s'.accepted ≠ text := by
  induction ns generalizing s with
  | nil =>
    cases h
    exact absurd hs hdone.ne
  | cons n ns ih =>
    obtain ⟨t, hsend, hrun⟩ := Option.bind_eq_some_iff.mp h
    obtain ⟨hgoes, hends⟩ := hd.send hsend
    by_cases ht : t.status = .writeContinue
    · exact ih (hgoes ht) ht hrun
    · obtain ⟨-, rfl⟩ := run_stopped ht hrun
      exact hends ht

/-- The socket has taken the text up to the position of the stream. -/
def Sending.OnTrack (s : Sending) (text : Str) (p : Nat) : Prop :=
  s.ctx.pending = .positioned text p ∧ p ≤ text.length ∧ s.accepted = text.take p

theorem Sending.OnTrack.run (ht : s.OnTrack text p) (hs : s.status = .writeContinue)
    (h : s.run ns = some s') (hdone : s'.Done) :
    s'.accepted = text ↔ SafeSends text.length p ns := by
  induction ns generalizing s p with
  | nil =>
    cases h
    exact absurd hs hdone.ne
  | cons n ns ih =>
    obtain ⟨hat, hp, hacc⟩ := ht
    obtain ⟨t, hsend, hrun⟩ := Option.bind_eq_some_iff.mp h
    have hsize : epollSocketWriteBufferSize = 4096 := rfl
    by_cases hfull : p + epollSocketWriteBufferSize ≤ text.length
    · obtain ⟨hstatus, hacc', hle, -⟩ := send_full hat hfull hsend
      rw [hacc, ← List.take_add] at hacc'
      by_cases hn : n = epollSocketWriteBufferSize ∨ p + n < 2 ^ 31
      · rw [ih ⟨send_advances hat hfull hn hsend, by omega, hacc'⟩ hstatus hrun, SafeSends]
        refine ⟨fun hrest => ⟨?_, hrest⟩, fun hall => hall.2⟩
        omega
      · have hd := send_wrapped hat hfull (by rw [hacc, List.length_take]; omega) (by omega)
          (by omega) hsend
        refine iff_of_false (hd.run hstatus hrun hdone) fun hsafe => ?_
        rw [SafeSends] at hsafe
        omega
    · obtain ⟨hstatus, hacc', hle⟩ := send_last hat hp (by omega) hsend
      obtain ⟨rfl, rfl⟩ := run_stopped hstatus hrun
      rw [hacc, ← List.take_add] at hacc'
      rw [hacc', List.take_eq_self_iff]
      simp only [SafeSends, and_true]
      omega

end

/-- The socket has taken exactly the text of the response, once the response
counts as sent, if and only if no send lost anything. -/
theorem accepted_eq_text_iff {c : HttpContext} (hc : c.Unwritten)
    (hrun : Sending.run { ctx := c } ns = some s) (hdone : s.Done) :
    s.accepted = c.responseText ↔ SafeSends c.responseText.length 0 ns := by
  refine Sending.OnTrack.run ⟨hc.pending, Nat.zero_le _, ?_⟩ rfl hrun hdone
  rw [List.take_zero]

def helloContext : HttpContext :=
  { req := { httpVersion := "HTTP/1.1".toList }, resp := { body := "hello".toList } }

set_option maxRecDepth 4000 in
theorem accepted_eq_text_hello : helloContext.Unwritten ∧
    ∃ s, Sending.run { ctx := helloContext } [helloContext.responseText.length] = some s ∧ s.Done ∧
      s.accepted = helloContext.responseText := by
  have hc : helloContext.Unwritten := ⟨rfl, rfl⟩
  have hstatus : (Sending.run { ctx := helloContext } [helloContext.responseText.length]).map
      (·.status) = some .writeOver := by decide +kernel
  obtain ⟨s, hrun, hs⟩ := Option.map_eq_some_iff.mp hstatus
  refine ⟨hc, s, hrun, .inl hs, (accepted_eq_text_iff hc hrun (.inl hs)).mpr ?_⟩
  exact ⟨.inl (by decide), trivial⟩

set_option maxRecDepth 4000 in
/-- A send that takes ten bytes of the last chunk is reported as `WRITE_OVER`. -/
theorem accepted_ne_text_short_last : helloContext.Unwritten ∧
    ∃ s, Sending.run { ctx := helloContext } [10] = some s ∧ s.status = .writeOver ∧
      s.accepted = "HTTP/1.1 2".toList ∧ s.accepted ≠ helloContext.responseText := by
  have hsent : (Sending.run { ctx := helloContext } [10]).map (fun s => (s.status, s.accepted))
      = some (.writeOver, "HTTP/1.1 2".toList) := by decide +kernel
  obtain ⟨s, hrun, hs⟩ := Option.map_eq_some_iff.mp hsent
  obtain ⟨hstatus, hacc⟩ := Prod.mk.inj hs
  refine ⟨⟨rfl, rfl⟩, s, hrun, hstatus, hacc, ?_⟩
  rw [hacc]
  decide

-- ---------------------------------------------------------------------------
-- The context afterwards
-- ---------------------------------------------------------------------------

namespace HttpContext

theorem exported_keepalive (c : HttpContext) : c.exported.1 = c.isKeepalive.1 := by
  cases h : c.resp.isWritted <;> simp [exported, isKeepalive, h]

theorem exported_req (c : HttpContext) : c.exported.2.req = c.isKeepalive.2.req := by
  cases h : c.resp.isWritted <;> simp [exported, isKeepalive, h]

theorem isKeepalive_again (c : HttpContext) : c.isKeepalive.2.isKeepalive.1 = c.isKeepalive.1 := by
  have hsame (m : Params) (name : Str) :
      ((m.insertIfNew name []).insertIfNew name [])[name]? = (m.insertIfNew name [])[name]? := by
    rw [Std.ExtTreeMap.getElem?_insertIfNew, if_neg fun h => h.2 (by simp)]
  exact congrArg (fun value => decide (value = some "keep-alive".toList)) (hsame _ _)

theorem onWriteable_keepalive {c : HttpContext} (h : c.toSend.1 = .writeContinue) (n : Nat) :
    (c.onWriteable n).2.isKeepalive.1 = c.isKeepalive.1 := by
  have hnat : ¬(n : Int) < 0 := by omega
  have hreq : (c.onWriteable n).2.req = c.isKeepalive.2.req := by
    simp only [onWriteable, rolledBack, hnat, if_false, h, reduceCtorEq, false_and]
    split <;> exact c.exported_req
  have hsame (a b : HttpContext) (hab : a.req = b.req) : a.isKeepalive.1 = b.isKeepalive.1 := by
    simp only [isKeepalive, hab]
  exact (hsame _ _ hreq).trans c.isKeepalive_again

theorem onWriteable_alive {c : HttpContext} (h : c.toSend.1 = .writeAlive) (n : Nat) :
    (c.onWriteable n).2 = {} ↔ 0 < n := by
  have hnat : ¬(n : Int) < 0 := by omega
  have hpos : (n : Int) > 0 ↔ 0 < n := by omega
  simp only [onWriteable, rolledBack, hnat, if_false, h, true_and, hpos]
  split
  · exact iff_of_true rfl ‹_›
  · refine iff_of_false (fun heq => ?_) ‹_›
    have hwritten := congrArg (fun c => c.resp.isWritted) heq
    split at hwritten
    · exact absurd (c.toSend_written.symm.trans hwritten) (by decide)
    · exact absurd (c.toSend_written.symm.trans hwritten) (by decide)

end HttpContext

theorem Sending.run_append (s : Sending) (ns ms : List Nat) :
    s.run (ns ++ ms) = (s.run ns).bind fun t => t.run ms := by
  induction ns generalizing s with
  | nil => rfl
  | cons n ns ih =>
    rw [List.cons_append, run, run, Option.bind_assoc]
    congr 1
    funext t
    exact ih t

/-- When a response is reported as `WRITE_ALIVE` the context is that of a new
connection if and only if the last send took something. -/
theorem alive_fresh_iff {c : HttpContext}
    (hrun : Sending.run { ctx := c } (ns ++ [n]) = some s) (halive : s.status = .writeAlive) :
    s.ctx = {} ↔ 0 < n := by
  rw [Sending.run_append] at hrun
  obtain ⟨t, -, hlast⟩ := Option.bind_eq_some_iff.mp hrun
  obtain ⟨s', hsend, hend⟩ := Option.bind_eq_some_iff.mp hlast
  cases hend
  obtain ⟨-, -, rfl⟩ := Sending.send_eq_some.mp hsend
  exact HttpContext.onWriteable_alive halive n

section
variable {s : Sending} {text : Str}

theorem Sending.send_keepalive (hs : s.ctx.toSend.1 = .writeContinue) (h : s.send n = some s') :
    s'.ctx.isKeepalive.1 = s.ctx.isKeepalive.1 := by
  obtain ⟨-, -, rfl⟩ := send_eq_some.mp h
  exact HttpContext.onWriteable_keepalive hs n

theorem Sending.OnTrack.run_full (ht : s.OnTrack text p) (hs : s.status = .writeContinue)
    (hlen : p + epollSocketWriteBufferSize * k ≤ text.length) :
    ∃ s', s.run (List.replicate k epollSocketWriteBufferSize) = some s' ∧
      s'.OnTrack text (p + epollSocketWriteBufferSize * k) ∧ s'.status = .writeContinue ∧
      s'.ctx.isKeepalive.1 = s.ctx.isKeepalive.1 := by
  induction k generalizing s p with
  | zero => exact ⟨s, rfl, ht, hs, rfl⟩
  | succ k ih =>
    rw [Nat.mul_succ, Nat.add_comm _ epollSocketWriteBufferSize, ← Nat.add_assoc] at hlen ⊢
    obtain ⟨hat, hp, hacc⟩ := ht
    have hfull : p + epollSocketWriteBufferSize ≤ text.length := by omega
    have hread := StringStream.read_full hfull
    have hcont : s.ctx.toSend.1 = .writeContinue := by
      rw [HttpContext.toSend_status, hat, hread]
      rfl
    have hbuffer : epollSocketWriteBufferSize ≤ s.ctx.toSend.2.1.length := by
      rw [HttpContext.toSend_buffer, hat, hread, List.length_take, List.length_drop]
      omega
    obtain ⟨t, hsend⟩ : ∃ t, s.send epollSocketWriteBufferSize = some t :=
      ⟨_, send_eq_some.mpr ⟨hs, hbuffer, rfl⟩⟩
    obtain ⟨hstatus, hacc', -, -⟩ := send_full hat hfull hsend
    rw [hacc, ← List.take_add] at hacc'
    obtain ⟨s', hrun, ht', hs', halive⟩ :=
      ih ⟨send_advances hat hfull (.inl rfl) hsend, hfull, hacc'⟩ hstatus hlen
    refine ⟨s', ?_, ht', hs', halive.trans (send_keepalive hcont hsend)⟩
    rw [List.replicate_succ, Sending.run, hsend]
    exact hrun

/-- A keep-alive response whose length is a multiple of the chunk size, sent
without a short send, ends with an empty chunk and leaves a stale context. -/
theorem Sending.OnTrack.stale (ht : s.OnTrack text p) (hs : s.status = .writeContinue)
    (halive : s.ctx.isKeepalive.1 = true)
    (hlen : text.length = p + epollSocketWriteBufferSize * k) :
    ∃ s', s.run (List.replicate k epollSocketWriteBufferSize ++ [0]) = some s' ∧
      s'.status = .writeAlive ∧ s'.accepted = text ∧ s'.ctx ≠ {} := by
  obtain ⟨t, hrun, ⟨hat, hp, hacc⟩, ht, halive'⟩ := ht.run_full hs hlen.ge
  have hread := StringStream.read_last (n := epollSocketWriteBufferSize)
    (by rw [hlen]; exact Nat.lt_add_of_pos_right (by decide)) hp
  have hbuffer : t.ctx.toSend.2.1 = [] := by
    rw [HttpContext.toSend_buffer, hat, hread, List.drop_eq_nil_iff]
    exact hlen.le
  have hstatus : t.ctx.toSend.1 = .writeAlive := by
    rw [HttpContext.toSend_status, hat, hread, HttpContext.exported_keepalive, halive', halive]
    rfl
  have hsend := send_eq_some.mpr ⟨ht, Nat.zero_le _, rfl⟩
  refine ⟨_, by rw [run_append, hrun, Option.bind_some, Sending.run, hsend]; rfl, hstatus, ?_, ?_⟩
  · simp only [hbuffer, List.take_nil, List.append_nil, hacc]
    exact List.take_of_length_le hlen.le
  · exact fun heq => absurd ((HttpContext.onWriteable_alive hstatus 0).mp heq) (lt_irrefl 0)

end

def keepContext (body : Str) : HttpContext :=
  { req := { httpVersion := "HTTP/1.1".toList
             headers := .insert ∅ "Connection".toList "keep-alive".toList }
    resp := { body } }

set_option maxRecDepth 4000 in
theorem alive_fresh_hello :
    ∃ s, Sending.run { ctx := keepContext "hello".toList } [139] = some s ∧
      s.status = .writeAlive ∧ s.ctx = {} := by
  have hstatus : (Sending.run { ctx := keepContext "hello".toList } [139]).map (·.status)
      = some .writeAlive := by decide +kernel
  obtain ⟨s, hrun, hs⟩ := Option.map_eq_some_iff.mp hstatus
  have hlast : Sending.run { ctx := keepContext "hello".toList } ([] ++ [139]) = some s := hrun
  exact ⟨s, hrun, hs, (alive_fresh_iff hlast hs).mpr (by decide)⟩

theorem keepContext_length (body : Str) :
    (keepContext body).responseText.length
      = 133 + (Lang.stdToString body.length).length + body.length := by
  have htext : (keepContext body).responseText
      = ({ body } : ResponseFields).text "HTTP/1.1".toList true := rfl
  have htype : (∅ : Params).contains "Content-Type".toList = false := rfl
  have hcode : Lang.stdToString statusOk.stautsCode = "200".toList := rfl
  have hlist : (∅ : Params).toList = [] := rfl
  rw [htext]
  -- the equation lemma of this definition is slow to generate
  delta ResponseFields.text
  rw [htype, hcode, hlist]
  simp [crlf, statusOk]
  omega

theorem keepContext_stale (hbody : body.length = 3959) :
    ∃ s, Sending.run { ctx := keepContext body } [4096, 0] = some s ∧ s.status = .writeAlive ∧
      s.accepted = (keepContext body).responseText ∧ s.ctx ≠ {} := by
  have hc : (keepContext body).Unwritten := ⟨rfl, rfl⟩
  have hlen : (keepContext body).responseText.length = 0 + epollSocketWriteBufferSize * 1 := by
    have hdigits : (Lang.stdToString (3959 : Nat)).length = 4 := by decide +kernel
    rw [keepContext_length, hbody, hdigits]
    rfl
  have hstart : Sending.OnTrack { ctx := keepContext body } (keepContext body).responseText 0 :=
    ⟨hc.pending, Nat.zero_le _, List.take_zero.symm⟩
  have halive : (keepContext body).isKeepalive.1 = true := rfl
  -- by itself first: against the goal the `rfl` would compute the text
  have hrun := hstart.stale rfl halive hlen
  exact hrun

/-- A response of 4096 bytes, all of which the socket takes at once. -/
theorem alive_stale_one_chunk :
    ∃ s, Sending.run { ctx := keepContext (List.replicate 3959 'x') } [4096, 0] = some s ∧
      s.status = .writeAlive ∧
      s.accepted = (keepContext (List.replicate 3959 'x')).responseText ∧ s.ctx ≠ {} :=
  keepContext_stale List.length_replicate

end CppUtil.HttpServer

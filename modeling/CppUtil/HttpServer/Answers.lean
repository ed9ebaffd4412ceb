import CppUtil.HttpServer.Serving

/-!
# What the peer of a connection gets

A keep-alive connection answers its requests one after the other. As long as
the socket takes the last chunk of each response as a whole, and that chunk is
not empty, the bytes it has taken are the responses to the requests, in order
and with nothing between them (`taken_answers`).
-/

namespace CppUtil.HttpServer

open Lang (Str StringStream wrapInt)

/-- The response to a request, as `ExportBuffer2Response` writes it. -/
def HttpEpollEventHandler.answer (h : HttpEpollEventHandler) (q : RequestHead) : Str :=
  (h.handleHttpRequest { req := { toRequestFields := q.fields } }).responseText

def HttpEpollEventHandler.KeepsWritted (h : HttpEpollEventHandler) : Prop :=
  ∀ (uri : Str) (handler : HttpHandler), h.uri2handler[uri]? = some handler → ∀ req resp,
    (handler (req, resp)).2.isWritted = resp.isWritted

def Connection.accepts (conn : Connection) : Event → Str
  | .recv _ => []
  | .send n => conn.ctx.toSend.2.1.take n

def Connection.taken (h : HttpEpollEventHandler) (conn : Connection) : List Event → Str
  | [] => []
  | e :: es => conn.accepts e ++ ((conn.step h e).map fun next => next.taken h es).getD []

/-- Of the last chunk of a response the socket takes all, and there is some. -/
def Connection.TakesLast (conn : Connection) : Event → Prop
  | .recv _ => True
  | .send n => conn.ctx.toSend.1 ≠ .writeContinue → n = conn.ctx.toSend.2.1.length ∧ 0 < n

def Connection.Whole (h : HttpEpollEventHandler) (conn : Connection) : List Event → Prop
  | [] => True
  | e :: es => conn.TakesLast e ∧ ∀ next ∈ conn.step h e, next.Whole h es

structure Connection.Waiting (conn : Connection) (text : Str) : Prop extends conn.Reading text where
  fresh : conn.ctx.resp = {}

/-- The socket has taken `p` bytes of the response. -/
structure Connection.Answering (conn : Connection) (answer : Str) (p : Nat) : Prop
    extends conn.Writing where
  pending : conn.ctx.pending = .positioned answer p
  inside : p ≤ answer.length

/-- The connection has received `text` of a request, or has `rest` to send of a
response. -/
inductive Connection.Owes (conn : Connection) : (text rest : Str) → Prop
  | waiting (hw : conn.Waiting text) : Owes conn text []
  | answering (ha : conn.Answering answer p) (hlen : answer.length < 2 ^ 31) :
      Owes conn [] (answer.drop p)

-- ---------------------------------------------------------------------------
-- One event
-- ---------------------------------------------------------------------------

section
variable {h : HttpEpollEventHandler} {conn next : Connection} {answer : Str}

theorem Connection.taken_cons (hstep : conn.step h e = some next) :
    conn.taken h (e :: es) = conn.accepts e ++ next.taken h es := by
  rw [taken, hstep]
  rfl

theorem onReadable_resp {c : HttpContext} (hstatus : (c.req.onReadable chunk).1 ≠ .readOver) :
    (h.onReadable chunk c).2.resp = c.resp := by
  simp only [HttpEpollEventHandler.onReadable, HttpEpollEventHandler.onReadableCalls, if_pos hstatus]

theorem handleHttpRequest_responseText {c c' : HttpContext}
    (hfields : c.req.toRequestFields = c'.req.toRequestFields) (hresp : c.resp = c'.resp) :
    (h.handleHttpRequest c).responseText = (h.handleHttpRequest c').responseText := by
  obtain ⟨⟨fields, buff, size⟩, resp⟩ := c
  obtain ⟨⟨fields', buff', size'⟩, resp'⟩ := c'
  obtain rfl : fields = fields' := hfields
  obtain rfl : resp = resp' := hresp
  simp only [HttpEpollEventHandler.handleHttpRequest]
  split <;> rfl

theorem handleHttpRequest_unwritten (hwritted : h.KeepsWritted) {c : HttpContext}
    (hfresh : c.resp = {}) : (h.handleHttpRequest c).Unwritten := by
  unfold HttpEpollEventHandler.handleHttpRequest
  split
  · rw [hfresh]
    exact ⟨rfl, rfl⟩
  · rename_i handler hhandler
    refine ⟨(hwritted _ _ hhandler _ _).trans ?_, ?_⟩
    · rw [hfresh]
      split <;> rfl
    · rw [hfresh]
      split <;> rfl

theorem Connection.Waiting.recv_continue (hw : conn.Waiting text)
    (hmax : ((text ++ chunk).length : Int) ≤ maxRequestSize) (hend : ¬crlfcrlf <:+ text ++ chunk)
    (hstep : conn.step h (.recv chunk) = some next) : next.Waiting (text ++ chunk) := by
  refine ⟨(hw.toReading.recv_continue hmax hend hstep).1, ?_⟩
  obtain ⟨-, hne, -, rfl⟩ := step_recv hstep
  have hstatus := (hw.gathering.onReadable_continue hmax hend).1
  rw [handleReadableEvent_ctx hne, onReadable_resp (by simp [hstatus]), hw.fresh]

theorem Connection.Waiting.recv_over (hkeep : h.KeepsConnection) (hwritted : h.KeepsWritted)
    (hw : conn.Waiting text) (q : RequestHead) (hq : text ++ chunk = q.text) (halive : q.KeepAlive)
    (hmax : (q.text.length : Int) ≤ maxRequestSize)
    (hstep : conn.step h (.recv chunk) = some next) : next.Answering (h.answer q) 0 := by
  refine ⟨(hw.toReading.recv_over hkeep q hq halive hmax hstep).1, ?_, Nat.zero_le _⟩
  obtain ⟨-, hne, -, rfl⟩ := step_recv hstep
  rw [← hq] at hmax
  obtain ⟨hstatus, hfields⟩ := hw.gathering.onReadable_over hmax (hq ▸ q.text_ends)
  rw [hq, q.parsed_text] at hstatus hfields
  have hctx : (h.onReadable chunk conn.ctx).2 =
      h.handleHttpRequest ⟨(conn.ctx.req.onReadable chunk).2, conn.ctx.resp⟩ := by
    simp [HttpEpollEventHandler.onReadable, HttpEpollEventHandler.onReadableCalls, hstatus]
  have hunwritten := handleHttpRequest_unwritten hwritted
    (c := ⟨(conn.ctx.req.onReadable chunk).2, conn.ctx.resp⟩) hw.fresh
  rw [handleReadableEvent_ctx hne, hctx, hunwritten.pending, HttpEpollEventHandler.answer]
  exact congrArg (StringStream.positioned · 0) (handleHttpRequest_responseText hfields hw.fresh)

theorem Connection.Answering.send (ha : conn.Answering answer p)
    (hstep : conn.step h (.send n) = some next) :
    ∃ s, Sending.send { ctx := conn.ctx, accepted := answer.take p } n = some s ∧
      next.ctx = s.ctx ∧ s.accepted = answer.take p ++ conn.accepts (.send n) ∧
      (s.status = .writeContinue → next.Writing) ∧
      (s.status ≠ .writeContinue → 0 < n → next.Waiting []) := by
  have hn : n ≤ conn.ctx.toSend.2.1.length := by
    simp only [step, Option.ite_none_right_eq_some] at hstep
    exact hstep.1.2.2
  obtain ⟨-, rfl⟩ := step_send hstep
  refine ⟨_, Sending.send_eq_some.mpr ⟨rfl, hn, rfl⟩, handleWriteableEvent_ctx, rfl,
    fun hstatus => ?_, fun hstatus hpos => ?_⟩
  · have honWriteable := (conn.ctx.onWriteable_status n).trans hstatus
    have halive := (HttpContext.onWriteable_keepalive hstatus n).trans ha.keepalive
    simp only [handleWriteableEvent, honWriteable]
    exact ⟨ha.isOpen, rfl, halive⟩
  · have halive : conn.ctx.toSend.1 = .writeAlive := by
      have hcases := conn.ctx.toSend_status
      rw [HttpContext.exported_keepalive, ha.keepalive, if_pos rfl] at hcases
      split at hcases
      · exact absurd hcases hstatus
      · exact hcases
    have honWriteable := (conn.ctx.onWriteable_status n).trans halive
    have hfresh := (HttpContext.onWriteable_alive halive n).mpr hpos
    simp only [handleWriteableEvent, honWriteable, hfresh]
    exact ⟨⟨ha.isOpen, rfl, Gathering.new⟩, rfl⟩

theorem Connection.Answering.send_full (ha : conn.Answering answer p)
    (hlen : answer.length < 2 ^ 31) (hfull : p + epollSocketWriteBufferSize ≤ answer.length)
    (hstep : conn.step h (.send n) = some next) :
    next.Answering answer (p + n) ∧ conn.accepts (.send n) = (answer.drop p).take n := by
  obtain ⟨s, hsend, hctx, hacc, hwriting, -⟩ := ha.send hstep
  obtain ⟨hstatus, hacc', hn, -⟩ := Sending.send_full ha.pending hfull hsend
  have hpending := Sending.send_advances ha.pending hfull (.inr (by omega)) hsend
  refine ⟨⟨hwriting hstatus, hctx ▸ hpending, by omega⟩, ?_⟩
  exact List.append_cancel_left (hacc.symm.trans hacc')

theorem Connection.Answering.send_last (ha : conn.Answering answer p)
    (hlast : answer.length < p + epollSocketWriteBufferSize) (htakes : conn.TakesLast (.send n))
    (hstep : conn.step h (.send n) = some next) :
    next.Waiting [] ∧ conn.accepts (.send n) = answer.drop p := by
  obtain ⟨s, hsend, hctx, hacc, -, hwaiting⟩ := ha.send hstep
  obtain ⟨hstatus, hacc', hle⟩ := Sending.send_last ha.pending ha.inside hlast hsend
  obtain ⟨-, -, rfl⟩ := Sending.send_eq_some.mp hsend
  obtain ⟨hall, hpos⟩ := htakes hstatus
  refine ⟨hwaiting hstatus hpos, ?_⟩
  have hread := StringStream.read_last hlast ha.inside
  rw [accepts, hall, List.take_length, HttpContext.toSend_buffer, ha.pending, hread]

/-- The bytes that are taken and what is owed afterwards are what was owed, and
the responses to the requests that have ended. -/
theorem Connection.Owes.step (hkeep : h.KeepsConnection) (hwritted : h.KeepsWritted)
    (halive : ∀ q ∈ qs, q.KeepAlive)
    (hmax : ∀ q ∈ qs, (q.text.length : Int) ≤ maxRequestSize)
    (hanswers : ∀ q ∈ qs, (h.answer q).length < 2 ^ 31) (ho : conn.Owes text rest)
    (hbring : Bring text qs (received (e :: events)))
    (hne : ∀ c ∈ received events, c ≠ []) (htakes : conn.TakesLast e)
    (hstep : conn.step h e = some next) :
    ∃ text' rest' done qs', qs = done ++ qs' ∧ next.Owes text' rest' ∧
      Bring text' qs' (received events) ∧
      conn.accepts e ++ rest' = rest ++ (done.map h.answer).flatten := by
  cases ho with
  | waiting hw =>
    cases e with
    | send n => exact absurd (hw.interest.symm.trans (step_send hstep).1) (by decide)
    | recv chunk =>
      rcases hbring.recv hne hmax with ⟨q, qs', rfl, htext, hmore⟩ | ⟨hsize, hend, hmore⟩
      · have ha := hw.recv_over hkeep hwritted q htext (halive q List.mem_cons_self)
          (hmax q List.mem_cons_self) hstep
        exact ⟨[], _, [q], qs', rfl, .answering ha (hanswers q List.mem_cons_self), hmore,
          by simp [accepts]⟩
      · exact ⟨_, [], [], qs, rfl, .waiting (hw.recv_continue hsize hend hstep), hmore, rfl⟩
  | answering ha hlen =>
    cases e with
    | recv chunk => exact absurd (ha.interest.symm.trans (step_recv hstep).1) (by decide)
    | send n =>
      rename_i answer p
      by_cases hfull : p + epollSocketWriteBufferSize ≤ answer.length
      · obtain ⟨ha', haccepts⟩ := ha.send_full hlen hfull hstep
        refine ⟨[], _, [], qs, rfl, .answering ha' hlen, hbring, ?_⟩
        rw [haccepts, ← List.drop_drop, List.take_append_drop]
        simp
      · obtain ⟨hw, haccepts⟩ := ha.send_last (by omega) htakes hstep
        exact ⟨[], [], [], qs, rfl, .waiting hw, hbring, by simp [haccepts]⟩

-- ---------------------------------------------------------------------------
-- Whole runs
-- ---------------------------------------------------------------------------

theorem Connection.Owes.run (hkeep : h.KeepsConnection) (hwritted : h.KeepsWritted)
    (halive : ∀ q ∈ qs, q.KeepAlive)
    (hmax : ∀ q ∈ qs, (q.text.length : Int) ≤ maxRequestSize)
    (hanswers : ∀ q ∈ qs, (h.answer q).length < 2 ^ 31) (ho : conn.Owes text rest)
    (hbring : Bring text qs (received events)) (hwhole : conn.Whole h events)
    (hrun : conn.run h events = some last) :
    conn.taken h events <+: rest ++ (qs.map h.answer).flatten ∧
      (last.interest = .epollIn → conn.taken h events = rest ++ (qs.map h.answer).flatten) := by
  induction events generalizing conn text qs rest with
  | nil =>
    cases hrun
    refine ⟨List.nil_prefix, fun hin => ?_⟩
    cases ho with
    | answering ha hlen => exact absurd (ha.interest.symm.trans hin) (by decide)
    | waiting hw =>
      cases qs with
      | nil => rfl
      | cons q qs =>
        obtain ⟨own, more, hchunks, hown, -⟩ := hbring
        exact absurd (List.append_eq_nil_iff.mp hchunks.symm).1 hown
  | cons e events ih =>
    obtain ⟨next, hstep, hrest⟩ := Option.bind_eq_some_iff.mp hrun
    obtain ⟨htakes, hnext⟩ := hwhole
    obtain ⟨text', rest', done, qs', rfl, ho', hbring', hsame⟩ :=
      ho.step hkeep hwritted halive hmax hanswers hbring (received_ne hrest) htakes hstep
    rw [List.forall_mem_append] at halive hmax hanswers
    obtain ⟨hstart, hall⟩ :=
      ih halive.2 hmax.2 hanswers.2 ho' hbring' (hnext next hstep) hrest
    rw [taken_cons hstep, List.map_append, List.flatten_append, ← List.append_assoc, ← hsame,
      List.append_assoc, List.prefix_append_right_inj]
    exact ⟨hstart, fun hin => by rw [hall hin]⟩

end

/-- At any moment, also inside of a request, what the peer has got is a beginning
of the responses to the requests `qs` it has sent to the end, and all of them if
the connection waits for the next request or the rest of one. -/
theorem taken_answers {h : HttpEpollEventHandler} (hkeep : h.KeepsConnection)
    (hwritted : h.KeepsWritted) {qs : List RequestHead} (halive : ∀ q ∈ qs, q.KeepAlive)
    (hmax : ∀ q ∈ qs, (q.text.length : Int) ≤ maxRequestSize)
    (hanswers : ∀ q ∈ qs, (h.answer q).length < 2 ^ 31) {segments : List (List Str)}
    (hsegments : segments.map List.flatten = qs.map RequestHead.text)
    {part : List Str} (hpart : Unfinished part.flatten)
    {events : List Event} (hevents : received events = segments.flatten ++ part)
    (hwhole : Connection.Whole h {} events) (hrun : Connection.run h {} events = some last) :
    Connection.taken h {} events <+: (qs.map h.answer).flatten ∧
      (last.interest = .epollIn → Connection.taken h {} events = (qs.map h.answer).flatten) := by
  have hstart : Connection.Waiting {} [] := ⟨⟨rfl, rfl, Gathering.new⟩, rfl⟩
  exact (Connection.Owes.waiting hstart).run hkeep hwritted halive hmax hanswers
    (hevents ▸ bring_segments hsegments hpart) hwhole hrun

instance : (conn : Connection) → DecidablePred conn.TakesLast
  | _, .recv _ => isTrue trivial
  | conn, .send n => inferInstanceAs
      (Decidable (conn.ctx.toSend.1 ≠ .writeContinue → n = conn.ctx.toSend.2.1.length ∧ 0 < n))

instance Connection.decWhole (h : HttpEpollEventHandler) :
    (conn : Connection) → (events : List Event) → Decidable (conn.Whole h events)
  | _, [] => isTrue trivial
  | conn, e :: es =>
    have := fun next : Connection => next.decWhole h es
    inferInstanceAs (Decidable (conn.TakesLast e ∧ ∀ next ∈ conn.step h e, next.Whole h es))

def answeredEvents : List Event := pageEvents ++ [.send 151, .recv (pageRequest.text.take 20)]

set_option maxRecDepth 4000 in
theorem taken_answers_two_requests :
    ∃ last, Connection.run ⟨∅⟩ {} answeredEvents = some last ∧ last.interest = .epollIn ∧
      Connection.taken ⟨∅⟩ {} answeredEvents =
        HttpEpollEventHandler.answer ⟨∅⟩ pageRequest ++
          HttpEpollEventHandler.answer ⟨∅⟩ pageRequest := by
  have hsome : (Connection.run ⟨∅⟩ {} answeredEvents).map (fun conn => conn.interest) =
      some .epollIn := by decide +kernel
  obtain ⟨last, hrun, hin⟩ := Option.map_eq_some_iff.mp hsome
  have hnone : ∀ {P : HttpHandler → Prop} (uri : Str) (handler : HttpHandler),
      (∅ : Std.ExtTreeMap Str HttpHandler)[uri]? = some handler → P handler := by
    simp
  have hq : ∀ {p : RequestHead → Prop}, p pageRequest → ∀ q ∈ [pageRequest, pageRequest], p q := by
    simp
  have hsegments : [[pageRequest.text.take 20, pageRequest.text.drop 20], [pageRequest.text]].map
      List.flatten = [pageRequest, pageRequest].map RequestHead.text := by
    simp
  have hpart : Unfinished [pageRequest.text.take 20].flatten :=
    ⟨by decide +kernel, by decide +kernel⟩
  have htaken := (taken_answers (h := ⟨∅⟩) hnone hnone (hq (by decide)) (hq (by decide))
    (hq (by decide +kernel)) hsegments hpart rfl (by decide +kernel) hrun).2 hin
  exact ⟨last, hrun, hin, by simpa using htaken⟩

end CppUtil.HttpServer

import CppUtil.HttpServer.Reading
import CppUtil.HttpServer.Sending

/-!
# Serving a connection

A connection is driven by its events: chunks that arrive while it is
registered for reading, and sends while it is registered for writing.
Requests that arrive in chunks of their own are handled one after the other
(`handled_eq`). What arrives behind an empty line in the same chunk is lost.
-/

namespace CppUtil.HttpServer

open Lang (Str StringStream wrapInt)

inductive Event
  | recv (chunk : Str)
  | send (n : Nat)

def Connection.step (h : HttpEpollEventHandler) (conn : Connection) : Event → Option Connection
  | .recv chunk =>
    if conn.closed = false ∧ conn.interest = .epollIn ∧ chunk ≠ [] ∧
        chunk.length ≤ epollSocketReadBufferSize then
      some (conn.handleReadableEvent h chunk)
    else none
  | .send n =>
    if conn.closed = false ∧ conn.interest = .epollOut ∧ n ≤ conn.ctx.toSend.2.1.length then
      some (conn.handleWriteableEvent n)
    else none

def Connection.run (h : HttpEpollEventHandler) (conn : Connection) : List Event → Option Connection
  | [] => some conn
  | e :: es => (conn.step h e).bind fun conn => conn.run h es

def received : List Event → List Str
  | [] => []
  | .recv chunk :: es => chunk :: received es
  | .send _ :: es => received es

/-- Of the last chunk of a keep-alive response the socket takes at least one
byte. -/
def Connection.Takes (conn : Connection) : Event → Prop
  | .recv _ => True
  | .send n => conn.ctx.toSend.1 = .writeAlive → 0 < n

def Connection.Flushed (h : HttpEpollEventHandler) (conn : Connection) : List Event → Prop
  | [] => True
  | e :: es => conn.Takes e ∧ ∀ next ∈ conn.step h e, next.Flushed h es

def HttpEpollEventHandler.KeepsConnection (h : HttpEpollEventHandler) : Prop :=
  ∀ (uri : Str) (handler : HttpHandler), h.uri2handler[uri]? = some handler → ∀ req resp,
    (handler (req, resp)).1.headers["Connection".toList]? = req.headers["Connection".toList]?

def RequestHead.KeepAlive (q : RequestHead) : Prop :=
  q.headerMap["Connection".toList]? = some "keep-alive".toList

instance (q : RequestHead) : Decidable q.KeepAlive := inferInstanceAs (Decidable (_ = _))

-- ---------------------------------------------------------------------------
-- One event
-- ---------------------------------------------------------------------------

structure Connection.Reading (conn : Connection) (text : Str) : Prop where
  isOpen : conn.closed = false
  interest : conn.interest = .epollIn
  gathering : Gathering conn.ctx.req text

structure Connection.Writing (conn : Connection) : Prop where
  isOpen : conn.closed = false
  interest : conn.interest = .epollOut
  keepalive : conn.ctx.isKeepalive.1 = true

section
variable {h : HttpEpollEventHandler} {conn next : Connection}

theorem Connection.step_open (hstep : conn.step h e = some next) : conn.closed = false := by
  cases e <;> simp only [step, Option.ite_none_right_eq_some] at hstep <;> exact hstep.1.1

theorem Connection.step_recv (hstep : conn.step h (.recv chunk) = some next) :
    conn.interest = .epollIn ∧ chunk ≠ [] ∧ chunk.length ≤ epollSocketReadBufferSize ∧
      next = conn.handleReadableEvent h chunk := by
  simp only [step, Option.ite_none_right_eq_some, Option.some.injEq] at hstep
  obtain ⟨⟨-, hin, hne, hlen⟩, rfl⟩ := hstep
  exact ⟨hin, hne, hlen, rfl⟩

theorem Connection.step_send (hstep : conn.step h (.send n) = some next) :
    conn.interest = .epollOut ∧ next = conn.handleWriteableEvent n := by
  simp only [step, Option.ite_none_right_eq_some, Option.some.injEq] at hstep
  obtain ⟨⟨-, hout, -⟩, rfl⟩ := hstep
  exact ⟨hout, rfl⟩

theorem isKeepalive_of_header {c : HttpContext}
    (hc : c.req.headers["Connection".toList]? = some "keep-alive".toList) :
    c.isKeepalive.1 = true := by
  have hmem : "Connection".toList ∈ c.req.headers :=
    Std.ExtTreeMap.mem_iff_isSome_getElem?.mpr (by rw [hc]; rfl)
  have hsame : (c.req.headers.insertIfNew "Connection".toList [])["Connection".toList]?
      = some "keep-alive".toList := by
    rw [Std.ExtTreeMap.getElem?_insertIfNew, if_neg fun h => h.2 hmem, hc]
  exact decide_eq_true hsame

theorem handleHttpRequest_keepalive (hkeep : h.KeepsConnection) {c : HttpContext}
    (hc : c.req.headers["Connection".toList]? = some "keep-alive".toList) :
    (h.handleHttpRequest c).isKeepalive.1 = true := by
  refine isKeepalive_of_header ?_
  unfold HttpEpollEventHandler.handleHttpRequest
  split
  · exact hc
  · rename_i handler hhandler
    exact (hkeep _ _ hhandler _ _).trans hc

theorem Connection.Reading.recv_continue (hr : conn.Reading text)
    (hmax : ((text ++ chunk).length : Int) ≤ maxRequestSize) (hend : ¬crlfcrlf <:+ text ++ chunk)
    (hstep : conn.step h (.recv chunk) = some next) :
    next.Reading (text ++ chunk) ∧ next.handled = conn.handled := by
  obtain ⟨-, hne, -, rfl⟩ := step_recv hstep
  obtain ⟨hstatus, hgathering⟩ := hr.gathering.onReadable_continue hmax hend
  simp only [handleReadableEvent, if_neg hne, HttpEpollEventHandler.onReadableCalls, hstatus, ne_eq,
    reduceCtorEq, not_false_eq_true, if_true, List.append_nil]
  exact ⟨⟨hr.isOpen, rfl, hgathering⟩, trivial⟩

theorem Connection.Reading.recv_over (hkeep : h.KeepsConnection) (hr : conn.Reading text)
    (q : RequestHead) (hq : text ++ chunk = q.text) (halive : q.KeepAlive)
    (hmax : (q.text.length : Int) ≤ maxRequestSize)
    (hstep : conn.step h (.recv chunk) = some next) :
    next.Writing ∧ next.handled = conn.handled ++ [q.fields] := by
  obtain ⟨-, hne, -, rfl⟩ := step_recv hstep
  rw [← hq] at hmax
  obtain ⟨hstatus, hfields⟩ := hr.gathering.onReadable_over hmax (hq ▸ q.text_ends)
  rw [hq, q.parsed_text] at hstatus hfields
  simp only [handleReadableEvent, if_neg hne, HttpEpollEventHandler.onReadableCalls, hstatus, ne_eq,
    not_true_eq_false, if_false, hfields]
  refine ⟨⟨hr.isOpen, rfl, handleHttpRequest_keepalive hkeep ?_⟩, trivial⟩
  rw [hfields]
  exact halive

theorem Connection.Reading.recv_too_large (hr : conn.Reading text)
    (hsize : (text.length : Int) ≤ maxRequestSize)
    (hmax : maxRequestSize < ((text ++ chunk).length : Int))
    (hstep : conn.step h (.recv chunk) = some next) :
    next.closed = true ∧ next.handled = conn.handled := by
  have hlimit : maxRequestSize = 10485760 ∧ epollSocketReadBufferSize = 4096 := ⟨rfl, rfl⟩
  obtain ⟨-, hne, hchunk, rfl⟩ := step_recv hstep
  have htotal : wrapInt (conn.ctx.req.totalReqSize + chunk.length) = (text ++ chunk).length := by
    rw [hr.gathering.size_next, List.length_append]
    exact Lang.wrapInt_eq (by omega) (by omega)
  have hstatus : (conn.ctx.req.onReadable chunk).1 = .readReachMaxSize := by
    simp only [HttpRequest.onReadable, htotal]
    rw [if_pos hmax]
  simp only [handleReadableEvent, if_neg hne, HttpEpollEventHandler.onReadableCalls, hstatus, ne_eq,
    reduceCtorEq, not_false_eq_true, if_true, List.append_nil]
  exact ⟨trivial, trivial⟩

theorem Connection.Writing.send (hw : conn.Writing)
    (hflush : conn.ctx.toSend.1 = .writeAlive → 0 < n)
    (hstep : conn.step h (.send n) = some next) :
    (next.Writing ∨ next.Reading []) ∧ next.handled = conn.handled := by
  obtain ⟨-, rfl⟩ := step_send hstep
  have hstatus := conn.ctx.onWriteable_status n
  have hcases := conn.ctx.toSend_status
  rw [HttpContext.exported_keepalive, hw.keepalive, if_pos rfl] at hcases
  split at hcases
  · rw [hcases] at hstatus
    simp only [handleWriteableEvent, hstatus]
    exact ⟨.inl ⟨hw.isOpen, rfl, (HttpContext.onWriteable_keepalive hcases n).trans hw.keepalive⟩,
      trivial⟩
  · rw [hcases] at hstatus
    have hfresh := (HttpContext.onWriteable_alive hcases n).mpr (hflush hcases)
    simp only [handleWriteableEvent, hstatus, hfresh]
    exact ⟨.inr ⟨hw.isOpen, rfl, Gathering.new⟩, trivial⟩

-- ---------------------------------------------------------------------------
-- Whole runs
-- ---------------------------------------------------------------------------

theorem Connection.received_ne (hrun : conn.run h events = some last) :
    ∀ chunk ∈ received events, chunk ≠ [] := by
  induction events generalizing conn with
  | nil => simp [received]
  | cons e events ih =>
    obtain ⟨next, hstep, hrest⟩ := Option.bind_eq_some_iff.mp hrun
    cases e with
    | recv chunk => exact List.forall_mem_cons.mpr ⟨(step_recv hstep).2.1, ih hrest⟩
    | send n => exact ih hrest

/-- The start of a request that has not come to its end yet. -/
def Unfinished (text : Str) : Prop := ¬ crlfcrlf <:+: text ∧ (text.length : Int) ≤ maxRequestSize

theorem Unfinished.nil : Unfinished [] := ⟨by decide, by decide⟩

theorem Unfinished.start (h : Unfinished (text ++ more)) :
    (text.length : Int) ≤ maxRequestSize ∧ ¬ crlfcrlf <:+ text := by
  obtain ⟨hend, hsize⟩ := h
  rw [List.length_append] at hsize
  refine ⟨by omega, fun hsuffix => hend ?_⟩
  exact hsuffix.isInfix.trans (List.prefix_append text more).isInfix

/-- The chunks bring the rest of the request that `text` is the start of, then
the other requests, each in chunks of its own, and perhaps some of one more. -/
def Bring (text : Str) : List RequestHead → List Str → Prop
  | [], chunks => Unfinished (text ++ chunks.flatten)
  | q :: qs, chunks => ∃ own more, chunks = own ++ more ∧ own ≠ [] ∧ text ++ own.flatten = q.text ∧
      Bring [] qs more

/-- The connection is in good order, with the start of a request received. -/
def Connection.Serving (conn : Connection) (text : Str) : Prop :=
  conn.Reading text ∨ (conn.Writing ∧ text = [])

theorem Bring.recv (hbring : Bring text qs (chunk :: chunks)) (hne : ∀ c ∈ chunks, c ≠ [])
    (hmax : ∀ q ∈ qs, (q.text.length : Int) ≤ maxRequestSize) :
    (∃ q qs', qs = q :: qs' ∧ text ++ chunk = q.text ∧ Bring [] qs' chunks) ∨
      ((text ++ chunk).length : Int) ≤ maxRequestSize ∧ ¬ crlfcrlf <:+ text ++ chunk ∧
        Bring (text ++ chunk) qs chunks := by
  cases qs with
  | nil =>
    rw [Bring, List.flatten_cons, ← List.append_assoc] at hbring
    obtain ⟨hsize, hend⟩ := hbring.start
    exact .inr ⟨hsize, hend, hbring⟩
  | cons q qs =>
    obtain ⟨own, more, hchunks, hown, htext, hmore⟩ := hbring
    cases own with
    | nil => exact absurd rfl hown
    | cons c own =>
      obtain ⟨rfl, rfl⟩ := List.cons.inj hchunks
      rw [List.flatten_cons, ← List.append_assoc] at htext
      cases own with
      | nil =>
        rw [List.flatten_nil, List.append_nil] at htext
        exact .inl ⟨q, qs, rfl, htext, hmore⟩
      | cons c own =>
        have hc : c ≠ [] := hne c List.mem_cons_self
        have hend := q.prefix_not_ends htext.symm (by simp [hc])
        have hsize := hmax q List.mem_cons_self
        rw [← htext, List.length_append] at hsize
        exact .inr ⟨by omega, hend, c :: own, more, rfl, List.cons_ne_nil _ _, htext, hmore⟩

theorem Connection.Reading.recv_bring (hkeep : h.KeepsConnection) (hr : conn.Reading text)
    (halive : ∀ q ∈ qs, q.KeepAlive)
    (hmax : ∀ q ∈ qs, (q.text.length : Int) ≤ maxRequestSize)
    (hbring : Bring text qs (chunk :: chunks)) (hne : ∀ c ∈ chunks, c ≠ [])
    (hstep : conn.step h (.recv chunk) = some next) :
    ∃ text' done qs', qs = done ++ qs' ∧ next.Serving text' ∧ Bring text' qs' chunks ∧
      next.handled = conn.handled ++ done.map RequestHead.fields := by
  rcases hbring.recv hne hmax with ⟨q, qs', rfl, htext, hmore⟩ | ⟨hsize, hend, hmore⟩
  · obtain ⟨hw, hhandled⟩ := hr.recv_over hkeep q htext (halive q List.mem_cons_self)
      (hmax q List.mem_cons_self) hstep
    exact ⟨[], [q], qs', rfl, .inr ⟨hw, rfl⟩, hmore, hhandled⟩
  · obtain ⟨hr', hhandled⟩ := hr.recv_continue hsize hend hstep
    exact ⟨_, [], qs, rfl, .inl hr', hmore, hhandled.trans (List.append_nil _).symm⟩

/-- An event handles the requests that end with it. -/
theorem Connection.Serving.step (hkeep : h.KeepsConnection) (hs : conn.Serving text)
    (halive : ∀ q ∈ qs, q.KeepAlive)
    (hmax : ∀ q ∈ qs, (q.text.length : Int) ≤ maxRequestSize)
    (hbring : Bring text qs (received (e :: events)))
    (hne : ∀ c ∈ received events, c ≠ []) (htakes : conn.Takes e)
    (hstep : conn.step h e = some next) :
    ∃ text' done qs', qs = done ++ qs' ∧ next.Serving text' ∧ Bring text' qs' (received events) ∧
      next.handled = conn.handled ++ done.map RequestHead.fields := by
  cases e with
  | send n =>
    rcases hs with hr | ⟨hw, rfl⟩
    · exact absurd (hr.interest.symm.trans (step_send hstep).1) (by decide)
    · obtain ⟨hcases, hhandled⟩ := hw.send htakes hstep
      refine ⟨[], [], qs, rfl, ?_, hbring, hhandled.trans (List.append_nil _).symm⟩
      exact hcases.elim (fun hw => .inr ⟨hw, rfl⟩) .inl
  | recv chunk =>
    rcases hs with hr | ⟨hw, -⟩
    · exact hr.recv_bring hkeep halive hmax hbring hne hstep
    · exact absurd (hw.interest.symm.trans (step_recv hstep).1) (by decide)

theorem Connection.Serving.isOpen (hs : conn.Serving text) : conn.closed = false := by
  rcases hs with hr | ⟨hw, -⟩
  · exact hr.isOpen
  · exact hw.isOpen

theorem Connection.Serving.run (hkeep : h.KeepsConnection) (hs : conn.Serving text)
    (halive : ∀ q ∈ qs, q.KeepAlive)
    (hmax : ∀ q ∈ qs, (q.text.length : Int) ≤ maxRequestSize)
    (hbring : Bring text qs (received events)) (hflush : conn.Flushed h events)
    (hrun : conn.run h events = some last) :
    last.closed = false ∧ last.handled = conn.handled ++ qs.map RequestHead.fields := by
  induction events generalizing conn text qs with
  | nil =>
    cases hrun
    cases qs with
    | nil => exact ⟨hs.isOpen, (List.append_nil _).symm⟩
    | cons q qs =>
      obtain ⟨own, more, hchunks, hown, -⟩ := hbring
      exact absurd (List.append_eq_nil_iff.mp hchunks.symm).1 hown
  | cons e events ih =>
    obtain ⟨next, hstep, hrest⟩ := Option.bind_eq_some_iff.mp hrun
    obtain ⟨htakes, hnext⟩ := hflush
    obtain ⟨text', done, qs', rfl, hs', hbring', hhandled⟩ :=
      hs.step hkeep halive hmax hbring (received_ne hrest) htakes hstep
    obtain ⟨hopen, hlast⟩ := ih hs' (fun q hq => halive q (List.mem_append_right _ hq))
      (fun q hq => hmax q (List.mem_append_right _ hq)) hbring' (hnext next hstep) hrest
    refine ⟨hopen, ?_⟩
    rw [hlast, hhandled, List.append_assoc, ← List.map_append]

theorem Connection.Reading.run_too_large (hr : conn.Reading text)
    (hsize : (text.length : Int) ≤ maxRequestSize) {q : RequestHead}
    (hmax : maxRequestSize < (q.text.length : Int))
    (hpre : text ++ (received events).flatten <+: q.text)
    (hrun : conn.run h events = some last) : last.handled = conn.handled := by
  induction events generalizing conn text with
  | nil =>
    cases hrun
    rfl
  | cons e events ih =>
    obtain ⟨next, hstep, hrest⟩ := Option.bind_eq_some_iff.mp hrun
    cases e with
    | send n => exact absurd (hr.interest.symm.trans (step_send hstep).1) (by decide)
    | recv chunk =>
      rw [received, List.flatten_cons, ← List.append_assoc] at hpre
      by_cases hlarge : maxRequestSize < ((text ++ chunk).length : Int)
      · obtain ⟨hclosed, hhandled⟩ := hr.recv_too_large hsize hlarge hstep
        rw [← hhandled]
        cases events with
        | nil =>
          cases hrest
          rfl
        | cons e events =>
          obtain ⟨after, hstep', -⟩ := Option.bind_eq_some_iff.mp hrest
          exact absurd ((step_open hstep').symm.trans hclosed) (by decide)
      · obtain ⟨rest, hq⟩ := (List.prefix_append _ _).trans hpre
        have hne : rest ≠ [] := by
          rintro rfl
          rw [List.append_nil] at hq
          rw [hq] at hlarge
          exact hlarge hmax
        obtain ⟨hr', hhandled⟩ :=
          hr.recv_continue (by omega) (q.prefix_not_ends hq.symm hne) hstep
        rw [← hhandled]
        exact ih hr' (by omega) hpre hrest

end

theorem bring_segments {segments : List (List Str)}
    (h : segments.map List.flatten = qs.map RequestHead.text) (hpart : Unfinished part.flatten) :
    Bring [] qs (segments.flatten ++ part) := by
  induction qs generalizing segments with
  | nil =>
    rw [List.map_nil, List.map_eq_nil_iff] at h
    rw [h]
    exact hpart
  | cons q qs ih =>
    cases segments with
    | nil => cases h
    | cons own segments =>
      obtain ⟨hown, hrest⟩ := List.cons.inj h
      refine ⟨own, segments.flatten ++ part, by simp, ?_, hown, ih hrest⟩
      rintro rfl
      have hends := q.text_ends
      rw [← hown] at hends
      exact absurd (List.suffix_nil.mp hends) (by decide)

def RequestFields.call (r : RequestFields) : Str × Str × Params := (r.method, r.uri, r.urlParams)

/-- Keep-alive requests that each end with a chunk are handled in order, once
each, and the connection stays open. -/
theorem handled_eq {h : HttpEpollEventHandler} (hkeep : h.KeepsConnection)
    {qs : List RequestHead} (hget : ∀ q ∈ qs, q.method = get) (halive : ∀ q ∈ qs, q.KeepAlive)
    (hmax : ∀ q ∈ qs, (q.text.length : Int) ≤ maxRequestSize)
    {segments : List (List Str)}
    (hsegments : segments.map List.flatten = qs.map RequestHead.text)
    {events : List Event} (hevents : received events = segments.flatten)
    (hflush : Connection.Flushed h {} events) (hrun : Connection.run h {} events = some last) :
    last.closed = false ∧ last.handled = qs.map RequestHead.fields ∧
      last.handled.map RequestFields.call = qs.map fun q => (get, q.uri, q.urlParams) := by
  have hstart : Connection.Reading {} [] := ⟨rfl, rfl, Gathering.new⟩
  have hpart : Unfinished ([] : List Str).flatten := .nil
  have hbring : Bring [] qs (received events) := by
    simpa [hevents] using bring_segments hsegments hpart
  obtain ⟨hopen, hhandled⟩ :=
    Connection.Serving.run hkeep (.inl hstart) halive hmax hbring hflush hrun
  refine ⟨hopen, hhandled, ?_⟩
  rw [hhandled, List.nil_append, List.map_map]
  refine List.map_congr_left fun q hq => ?_
  obtain ⟨huri, hparams⟩ := q.fields_uri
  have hmethod : q.fields.method = q.method := parseUrlParams_method _
  simp only [Function.comp_apply, RequestFields.call, hmethod, hget q hq, huri, hparams]

def pageRequest : RequestHead :=
  .getting "/a?k=v".toList (by decide) ["Connection: keep-alive".toList] (by decide)

instance : (conn : Connection) → DecidablePred conn.Takes
  | _, .recv _ => isTrue trivial
  | conn, .send n => inferInstanceAs (Decidable (conn.ctx.toSend.1 = .writeAlive → 0 < n))

instance Connection.decFlushed (h : HttpEpollEventHandler) :
    (conn : Connection) → (events : List Event) → Decidable (conn.Flushed h events)
  | _, [] => isTrue trivial
  | conn, e :: es =>
    have := fun next : Connection => next.decFlushed h es
    inferInstanceAs (Decidable (conn.Takes e ∧ ∀ next ∈ conn.step h e, next.Flushed h es))

def pageEvents : List Event :=
  [.recv (pageRequest.text.take 20), .recv (pageRequest.text.drop 20), .send 151,
    .recv pageRequest.text]

def pageCall : Str × Str × Params :=
  (get, "/a".toList, .insert ∅ "k".toList "v".toList)

set_option maxRecDepth 4000 in
theorem handled_two_requests :
    ∃ last, Connection.run ⟨∅⟩ {} pageEvents = some last ∧ last.closed = false ∧
      last.handled.map RequestFields.call = [pageCall, pageCall] := by
  have hsome : (Connection.run ⟨∅⟩ {} pageEvents).isSome = true := by decide +kernel
  obtain ⟨last, hrun⟩ := Option.isSome_iff_exists.mp hsome
  have hkeep : HttpEpollEventHandler.KeepsConnection ⟨∅⟩ := by
    intro uri handler hhandler
    simp at hhandler
  have hq : ∀ {p : RequestHead → Prop}, p pageRequest → ∀ q ∈ [pageRequest, pageRequest], p q := by
    simp
  have hsegments : [[pageRequest.text.take 20, pageRequest.text.drop 20], [pageRequest.text]].map
      List.flatten = [pageRequest, pageRequest].map RequestHead.text := by
    simp
  have hflush : Connection.Flushed ⟨∅⟩ {} pageEvents := by decide +kernel
  obtain ⟨hopen, -, hcalls⟩ := handled_eq hkeep (hq rfl) (hq (by decide)) (hq (by decide))
    hsegments rfl hflush hrun
  exact ⟨last, hrun, hopen, hcalls.trans rfl⟩

def longRequest (n : Nat) : RequestHead :=
  { pageRequest with
    headers := ["Connection: keep-alive".toList, List.replicate (n + 1) 'x']
    headers_ok := by
      intro line hline
      rcases List.mem_cons.mp hline with rfl | hline
      · decide
      · rw [List.mem_singleton.mp hline]
        simp [List.mem_replicate] }

theorem longRequest_length (n : Nat) : n < (longRequest n).text.length := by
  simp only [RequestHead.text, longRequest, List.map_cons, List.flatten_cons, List.length_append,
    List.length_replicate]
  omega

set_option maxRecDepth 4000 in
/-- Two requests in one chunk are handled once, and a request of more than ten
megabytes is not handled at all. -/
theorem handled_fails_shared_chunk_and_long_request :
    (Connection.run ⟨∅⟩ {} [.recv (pageRequest.text ++ pageRequest.text)]).map
        (fun conn => (conn.closed, conn.interest, conn.handled.length))
      = some (false, .epollOut, 1) ∧
    ∀ events last, Connection.run ⟨∅⟩ {} events = some last →
      (received events).flatten <+: (longRequest 10485760).text → last.handled = [] := by
  refine ⟨by decide, fun events last hrun hpre => ?_⟩
  have hstart : Connection.Reading {} [] := ⟨rfl, rfl, Gathering.new⟩
  have hlong : maxRequestSize < ((longRequest 10485760).text.length : Int) :=
    Int.ofNat_lt.mpr (longRequest_length 10485760)
  exact hstart.run_too_large (by decide) hlong hpre hrun

end CppUtil.HttpServer

import CppUtil.HttpServer.EpollSocket
import CppUtil.Lang.NewDelete

/-!
# The contexts of the connections, in memory

`EpollSocket` has an `EpollEventContext` for each connection, which it reaches
through the `data.ptr` of its events. `HttpEpollEventHandler` hangs an
`HttpContext` on it, which has a request and a response of its own. They are
made by `OnAccept`, replaced by `Clear` and deleted by `OnClose`.

The four objects of a connection are a `Block`. Each function of the handler
does to the block what the function of the same name in
`CppUtil.HttpServer.Server` does to the `HttpContext` that it holds, and
touches nothing else.
-/

namespace CppUtil.HttpServer

open Lang (Str Ptr Stop Memory nullptr Gives Turns)

inductive Object
  /-- `EpollEventContext`, without its `client_ip`. -/
  | eventContext (fd : Fd) (dataPtr : Ptr)
  | httpContext (fd : Fd) (req resp : Ptr)
  | request (req : HttpRequest)
  | response (resp : HttpResponse)

-- ---------------------------------------------------------------------------
-- Access through pointers
-- ---------------------------------------------------------------------------

/-- A pointer to something else is as bad as one to nothing. -/
def eventContext (m : Memory Object) (p : Ptr) : Except Stop (Fd × Ptr) := do
  match ← m.load p with
  | .eventContext fd dataPtr => .ok (fd, dataPtr)
  | _ => .error .undefined

def httpContext (m : Memory Object) (p : Ptr) : Except Stop (Fd × Ptr × Ptr) := do
  match ← m.load p with
  | .httpContext fd req resp => .ok (fd, req, resp)
  | _ => .error .undefined

def request (m : Memory Object) (p : Ptr) : Except Stop HttpRequest := do
  match ← m.load p with
  | .request req => .ok req
  | _ => .error .undefined

def response (m : Memory Object) (p : Ptr) : Except Stop HttpResponse := do
  match ← m.load p with
  | .response resp => .ok resp
  | _ => .error .undefined

def deleteIfSet (p : Ptr) (m : Memory Object) : Except Stop (Memory Object) :=
  if p ≠ nullptr then m.delete p else .ok m

-- ---------------------------------------------------------------------------
-- `HttpContext`
-- ---------------------------------------------------------------------------

def newHttpContext (fd : Fd) (p req resp : Ptr) (m : Memory Object) :
    Except Stop (Memory Object) := do
  let m ← m.new p (.httpContext fd req resp)
  let m ← m.new req (.request {})
  m.new resp (.response {})

def deleteHttpContext (p : Ptr) (m : Memory Object) : Except Stop (Memory Object) := do
  let (_, req, resp) ← httpContext m p
  let m ← deleteIfSet req m
  let m ← deleteIfSet resp m
  m.delete p

def clearHttpContext (p newReq newResp : Ptr) (m : Memory Object) :
    Except Stop (Memory Object) := do
  let (fd, req, resp) ← httpContext m p
  let m ← deleteIfSet req m
  let m ← deleteIfSet resp m
  -- the allocator may hand out again what has just been deleted
  let m ← m.new newReq (.request {})
  let m ← m.new newResp (.response {})
  m.store p (.httpContext fd newReq newResp)

-- ---------------------------------------------------------------------------
-- `HttpEpollEventHandler`
-- ---------------------------------------------------------------------------

def onAccept (ctx p req resp : Ptr) (m : Memory Object) : Except Stop (Memory Object) := do
  let (fd, _) ← eventContext m ctx
  let m ← newHttpContext fd p req resp m
  m.store ctx (.eventContext fd p)

def onReadable (h : HttpEpollEventHandler) (ctx : Ptr) (readBuffer : Str) (m : Memory Object) :
    Except Stop (ReadStatus × Memory Object) := do
  let (_, dataPtr) ← eventContext m ctx
  let (_, preq, presp) ← httpContext m dataPtr
  let req ← request m preq
  let (status, req) := req.onReadable readBuffer
  let m ← m.store preq (.request req)
  if status ≠ .readOver then .ok (status, m)
  else
    let resp ← response m presp
    let c := h.handleHttpRequest ⟨req, resp⟩
    let m ← m.store preq (.request c.req)
    let m ← m.store presp (.response c.resp)
    .ok (.readOver, m)

/-- `OnWriteable`, where `send` returns `nWrite`, and with the descriptor it
sends to and what it offers. -/
def onWriteable (ctx : Ptr) (nWrite : Int) (newReq newResp : Ptr) (m : Memory Object) :
    Except Stop (WriteStatus × Fd × Str × Memory Object) := do
  let (_, dataPtr) ← eventContext m ctx
  let (fd, preq, presp) ← httpContext m dataPtr
  let req ← request m preq
  let resp ← response m presp
  let (status, buffer, c) := HttpContext.toSend ⟨req, resp⟩
  if nWrite > buffer.length then .error .refused
  else
    let m ← m.store preq (.request c.req)
    if nWrite < 0 then
      let m ← m.store presp (.response c.resp)
      .ok (.writeError, fd, buffer, m)
    else
      let c := if nWrite < buffer.length then
        { c with resp := c.resp.rollback (buffer.length - nWrite) } else c
      let m ← m.store presp (.response c.resp)
      if status = .writeAlive ∧ nWrite > 0 then
        let m ← clearHttpContext dataPtr newReq newResp m
        .ok (status, fd, buffer, m)
      else .ok (status, fd, buffer, m)

def onClose (ctx : Ptr) (m : Memory Object) : Except Stop (Memory Object) := do
  let (_, dataPtr) ← eventContext m ctx
  if dataPtr = nullptr then .ok m else deleteHttpContext dataPtr m

-- ---------------------------------------------------------------------------
-- Blocks
-- ---------------------------------------------------------------------------

structure Block where
  ctx : Ptr
  http : Ptr
  req : Ptr
  resp : Ptr

def Block.ptrs (b : Block) : List Ptr := [b.ctx, b.http, b.req, b.resp]

/-- The objects of a connection, which hold its descriptor and the context `c`. -/
structure Block.Holds (b : Block) (m : Memory Object) (fd : Fd) (c : HttpContext) : Prop where
  ctx : m b.ctx = some (.eventContext fd b.http)
  http : m b.http = some (.httpContext fd b.req b.resp)
  req : m b.req = some (.request c.req)
  resp : m b.resp = some (.response c.resp)
  set : ∀ p ∈ b.ptrs, p ≠ nullptr

/-- The block has come out of the objects at `l` in the memory `m₀`. -/
structure Block.Made (b : Block) (m₀ : Memory Object) (l : List Ptr) (m : Memory Object) (fd : Fd)
    (c : HttpContext) : Prop extends b.Holds m fd c where
  turns : Turns m₀ m l b.ptrs

section
variable {m₀ m m' : Memory Object} {b : Block} {fd : Fd} {c : HttpContext} {l : List Ptr}

theorem eventContext_eq (h : m p = some (.eventContext fd q)) : eventContext m p = .ok (fd, q) := by
  rw [eventContext, Memory.load, h]
  rfl

theorem httpContext_eq (h : m p = some (.httpContext fd q r)) :
    httpContext m p = .ok (fd, q, r) := by
  rw [httpContext, Memory.load, h]
  rfl

theorem request_eq (h : m p = some (.request req)) : request m p = .ok req := by
  rw [request, Memory.load, h]
  rfl

theorem response_eq (h : m p = some (.response resp)) : response m p = .ok resp := by
  rw [response, Memory.load, h]
  rfl

theorem gives_deleteIfSet (hset : p ≠ nullptr) (h : m p = some o) :
    Gives (deleteIfSet p m) (· = Function.update m p none) := by
  rw [deleteIfSet, if_pos hset]
  exact .delete h

namespace Block.Holds

theorem congr (hb : b.Holds m fd c) (hm : ∀ p ∈ b.ptrs, m' p = m p) : b.Holds m' fd c := by
  simp only [ptrs, List.forall_mem_cons] at hm
  obtain ⟨hctx, hhttp, hreq, hresp, -⟩ := hm
  exact ⟨hctx.trans hb.ctx, hhttp.trans hb.http, hreq.trans hb.req, hresp.trans hb.resp, hb.set⟩

theorem nodup (hb : b.Holds m fd c) : b.ptrs.Nodup := by
  have hne : ∀ {p q o o'}, m p = some o → m q = some o' → o ≠ o' → p ≠ q := by
    rintro p q o o' hp hq ho rfl
    exact ho (Option.some.inj (hp.symm.trans hq))
  simp only [ptrs, List.nodup_cons, List.mem_cons, List.not_mem_nil, or_false, not_or,
    not_false_eq_true, List.nodup_nil, and_true]
  refine ⟨⟨hne hb.ctx hb.http ?_, hne hb.ctx hb.req ?_, hne hb.ctx hb.resp ?_⟩,
    ⟨hne hb.http hb.req ?_, hne hb.http hb.resp ?_⟩, hne hb.req hb.resp ?_⟩ <;> simp

theorem live (hb : b.Holds m fd c) : ∀ p ∈ b.ptrs, (m p).isSome := by
  simp [ptrs, hb.ctx, hb.http, hb.req, hb.resp]

theorem ne (hb : b.Holds m fd c) : (b.ctx ≠ b.http ∧ b.ctx ≠ b.req ∧ b.ctx ≠ b.resp) ∧
    (b.http ≠ b.req ∧ b.http ≠ b.resp) ∧ b.req ≠ b.resp := by
  simpa [ptrs] using hb.nodup

theorem made (hb : b.Holds m fd c) : b.Made m b.ptrs m fd c := ⟨hb, .refl hb.live hb.nodup⟩

end Block.Holds

namespace Block.Made

theorem store_req (hb : b.Made m₀ l m fd c) (req : HttpRequest) :
    b.Made m₀ l (Function.update m b.req (some (.request req))) fd { c with req } := by
  obtain ⟨⟨-, hctx, -⟩, ⟨hhttp, -⟩, hresp⟩ := hb.ne
  exact ⟨⟨by rw [Function.update_of_ne hctx, hb.ctx], by rw [Function.update_of_ne hhttp, hb.http],
    Function.update_self .., by rw [Function.update_of_ne hresp.symm, hb.resp], hb.set⟩,
    hb.turns.store (by simp [ptrs])⟩

theorem store_resp (hb : b.Made m₀ l m fd c) (resp : HttpResponse) :
    b.Made m₀ l (Function.update m b.resp (some (.response resp))) fd { c with resp } := by
  obtain ⟨⟨-, -, hctx⟩, ⟨-, hhttp⟩, hreq⟩ := hb.ne
  exact ⟨⟨by rw [Function.update_of_ne hctx, hb.ctx], by rw [Function.update_of_ne hhttp, hb.http],
    by rw [Function.update_of_ne hreq, hb.req], Function.update_self .., hb.set⟩,
    hb.turns.store (by simp [ptrs])⟩

theorem gives_clearHttpContext (hb : b.Made m₀ l m fd c) :
    Gives (clearHttpContext b.http newReq newResp m)
      fun m' => Made ⟨b.ctx, b.http, newReq, newResp⟩ m₀ l m' fd {} := by
  obtain ⟨⟨-, hcq, hcr⟩, ⟨hhq, hhr⟩, hqr⟩ := hb.ne
  have hset := hb.set
  simp only [ptrs, List.forall_mem_cons] at hset
  obtain ⟨hcset, hhset, hqset, hrset, -⟩ := hset
  refine (Gives.of_eq (httpContext_eq hb.http)).bind ?_
  rintro _ rfl
  refine (gives_deleteIfSet hqset hb.req).bind ?_
  rintro _ rfl
  refine (gives_deleteIfSet hrset ((Function.update_of_ne hqr.symm ..).trans hb.resp)).bind ?_
  rintro _ rfl
  have hperm : ([b.ctx, b.http] ++ [b.req, b.resp]).Perm ([b.req, b.resp] ++ [b.ctx, b.http]) :=
    List.perm_append_comm
  have ht := (hb.turns.perm (.refl _) hperm).delete.delete
  have hctx : Function.update (Function.update m b.req none) b.resp none b.ctx = _ :=
    (Function.update_of_ne hcr ..).trans ((Function.update_of_ne hcq ..).trans hb.ctx)
  have hhttp : Function.update (Function.update m b.req none) b.resp none b.http = _ :=
    (Function.update_of_ne hhr ..).trans ((Function.update_of_ne hhq ..).trans hb.http)
  -- from here on only the other two objects matter
  generalize Function.update (Function.update m b.req none) b.resp none = m₂ at ht hctx hhttp
  refine Gives.new.bind ?_
  rintro _ ⟨⟨hqset', hqfree⟩, rfl⟩
  refine Gives.new.bind ?_
  rintro _ ⟨⟨hrset', hrfree⟩, rfl⟩
  have ht' := (ht.new (o := .request {}) hqfree).new (o := .response {}) hrfree
  have hperm' : ([newResp, newReq] ++ [b.ctx, b.http]).Perm [b.ctx, b.http, newReq, newResp] :=
    List.perm_append_comm.trans (.cons _ (.cons _ (.swap ..)))
  have hnodup := ht'.nodup
  refine (Gives.store (o := .httpContext fd b.req b.resp) (by grind)).mono ?_
  rintro _ rfl
  refine ⟨⟨?_, ?_, ?_, ?_, by simp [ptrs, *]⟩, (ht'.store (by simp)).perm (.refl _) hperm'⟩
  all_goals grind

theorem gives_onClose (hb : b.Made m₀ l m fd c) : Gives (onClose b.ctx m)
    fun m' => m' b.ctx = some (.eventContext fd b.http) ∧ Turns m₀ m' l [b.ctx] := by
  obtain ⟨⟨hch, hcq, hcr⟩, ⟨hhq, hhr⟩, hqr⟩ := hb.ne
  have hset := hb.set
  simp only [ptrs, List.forall_mem_cons] at hset
  obtain ⟨-, hhset, hqset, hrset, -⟩ := hset
  refine (Gives.of_eq (eventContext_eq hb.ctx)).bind ?_
  rintro _ rfl
  simp only [if_neg hhset]
  refine (Gives.of_eq (httpContext_eq hb.http)).bind ?_
  rintro _ rfl
  refine (gives_deleteIfSet hqset hb.req).bind ?_
  rintro _ rfl
  refine (gives_deleteIfSet hrset ((Function.update_of_ne hqr.symm ..).trans hb.resp)).bind ?_
  rintro _ rfl
  refine (Gives.delete (o := .httpContext fd b.req b.resp) ?_).mono ?_
  · rw [Function.update_of_ne hhr, Function.update_of_ne hhq, hb.http]
  rintro _ rfl
  have hperm : ([b.ctx, b.http] ++ [b.req, b.resp]).Perm ([b.req, b.resp] ++ [b.http, b.ctx]) :=
    List.perm_append_comm.trans (.cons _ (.cons _ (.swap ..)))
  refine ⟨?_, (hb.turns.perm (.refl _) hperm).delete.delete.delete⟩
  rw [Function.update_of_ne hch, Function.update_of_ne hcr, Function.update_of_ne hcq, hb.ctx]

end Block.Made

namespace Block.Holds

theorem gives_onReadable (h : HttpEpollEventHandler) (hb : b.Holds m fd c) :
    Gives (onReadable h b.ctx chunk m) fun r => r.1 = (h.onReadable chunk c).1 ∧
      b.Made m b.ptrs r.2 fd (h.onReadable chunk c).2 := by
  refine (Gives.of_eq (eventContext_eq hb.ctx)).bind ?_
  rintro _ rfl
  refine (Gives.of_eq (httpContext_eq hb.http)).bind ?_
  rintro _ rfl
  refine (Gives.of_eq (request_eq hb.req)).bind ?_
  rintro _ rfl
  simp only [HttpEpollEventHandler.onReadable, HttpEpollEventHandler.onReadableCalls]
  rcases c.req.onReadable chunk with ⟨status, req⟩
  refine (Gives.store hb.req).bind ?_
  rintro _ rfl
  have hb₁ := hb.made.store_req req
  by_cases hstatus : status ≠ .readOver
  · simp only [if_pos hstatus]
    exact ⟨rfl, hb₁⟩
  · simp only [if_neg hstatus]
    refine (Gives.of_eq (response_eq hb₁.resp)).bind ?_
    rintro _ rfl
    refine (Gives.store hb₁.req).bind ?_
    rintro _ rfl
    have hb₂ := hb₁.store_req (h.handleHttpRequest ⟨req, c.resp⟩).req
    refine (Gives.store hb₂.resp).bind ?_
    rintro _ rfl
    exact ⟨rfl, hb₂.store_resp _⟩

/-- `send` is offered what the connection has to send, at its own descriptor.
`Clear` may have moved the request and the response. -/
theorem gives_onWriteable (hb : b.Holds m fd c) :
    Gives (onWriteable b.ctx n newReq newResp m) fun r => r.1 = (c.onWriteable n).1 ∧
      r.2.1 = fd ∧ r.2.2.1 = c.toSend.2.1 ∧ n ≤ r.2.2.1.length ∧
      ∃ b' : Block, b'.ctx = b.ctx ∧ b'.Made m b.ptrs r.2.2.2 fd (c.onWriteable n).2 := by
  refine (Gives.of_eq (eventContext_eq hb.ctx)).bind ?_
  rintro _ rfl
  refine (Gives.of_eq (httpContext_eq hb.http)).bind ?_
  rintro _ rfl
  refine (Gives.of_eq (request_eq hb.req)).bind ?_
  rintro _ rfl
  refine (Gives.of_eq (response_eq hb.resp)).bind ?_
  rintro _ rfl
  simp only [HttpContext.onWriteable, HttpContext.rolledBack]
  rcases c.toSend with ⟨status, buffer, c₁⟩
  by_cases hmany : n > buffer.length
  · simp only [if_pos hmany]
    exact .refused
  simp only [if_neg hmany]
  refine (Gives.store hb.req).bind ?_
  rintro _ rfl
  have hb₁ := hb.made.store_req c₁.req
  by_cases hneg : n < 0
  · simp only [if_pos hneg]
    refine (Gives.store hb₁.resp).bind ?_
    rintro _ rfl
    exact ⟨rfl, rfl, rfl, Int.not_lt.mp hmany, b, rfl, hb₁.store_resp _⟩
  simp only [if_neg hneg]
  obtain ⟨c₂, hc₂, hreq⟩ : ∃ c₂, (if n < buffer.length then
      { c₁ with resp := c₁.resp.rollback (buffer.length - n) } else c₁) = c₂ ∧ c₁.req = c₂.req :=
    ⟨_, rfl, by split <;> rfl⟩
  simp only [hc₂]
  refine (Gives.store hb₁.resp).bind ?_
  rintro _ rfl
  have hb₂ := hb₁.store_resp c₂.resp
  rw [hreq] at hb₂ ⊢
  by_cases halive : status = .writeAlive ∧ n > 0
  · simp only [if_pos halive]
    refine hb₂.gives_clearHttpContext.bind ?_
    rintro m' hm'
    exact ⟨rfl, rfl, rfl, Int.not_lt.mp hmany, ⟨b.ctx, b.http, newReq, newResp⟩, rfl, hm'⟩
  · simp only [if_neg halive]
    exact ⟨rfl, rfl, rfl, Int.not_lt.mp hmany, b, rfl, hb₂⟩

end Block.Holds

theorem gives_onAccept (hctx : m ctx = some (.eventContext fd nullptr)) (hset : ctx ≠ nullptr)
    (ht : Turns m₀ m l [ctx]) : Gives (onAccept ctx http req resp m)
      fun m' => Block.Made ⟨ctx, http, req, resp⟩ m₀ l m' fd {} := by
  refine (Gives.of_eq (eventContext_eq hctx)).bind ?_
  rintro _ rfl
  refine (Gives.new.bind ?_ : Gives (newHttpContext fd http req resp m) fun m' =>
    m' ctx = some (.eventContext fd nullptr) ∧ m' http = some (.httpContext fd req resp) ∧
    m' req = some (.request {}) ∧ m' resp = some (.response {}) ∧
    (∀ p ∈ [http, req, resp], p ≠ nullptr) ∧ Turns m₀ m' l [resp, req, http, ctx]).bind ?_
  · rintro _ ⟨⟨hhset, hhfree⟩, rfl⟩
    refine Gives.new.bind ?_
    rintro _ ⟨⟨hqset, hqfree⟩, rfl⟩
    refine Gives.new.mono ?_
    rintro _ ⟨⟨hrset, hrfree⟩, rfl⟩
    have hturns := ((ht.new (o := .httpContext fd req resp) hhfree).new (o := .request {}) hqfree).new
      (o := .response {}) hrfree
    have hnodup := hturns.nodup
    refine ⟨?_, ?_, ?_, ?_, by simp [*], hturns⟩
    all_goals grind
  · rintro m' ⟨hctx', hhttp, hreq, hresp, hset', hturns⟩
    have hnodup := hturns.nodup
    refine (Gives.store hctx').mono ?_
    rintro _ rfl
    refine ⟨⟨?_, ?_, ?_, ?_, List.forall_mem_cons.mpr ⟨hset, hset'⟩⟩,
      (hturns.store (by simp)).perm (.refl _) (List.reverse_perm [resp, req, http, ctx]).symm⟩
    all_goals grind

end

end CppUtil.HttpServer

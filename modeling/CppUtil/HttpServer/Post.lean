import CppUtil.HttpServer.Reading

/-!
# Requests with a body

The empty line behind the headers ends a POST request as it ends any other,
so the phase in which a body is parsed is never entered (`NoBody`) and the
parameters of a body never arrive (`body_never_parsed`).
-/

namespace CppUtil.HttpServer

open Lang (Str StringStream stdToString)

structure PostRequest where
  head : RequestHead
  pairs : List (Str × Str)
  is_post : head.method = post
  pairs_ne : pairs ≠ []
  pairs_ok : ∀ p ∈ pairs, ∀ c ∈ ['=', '&', '\r', '\n'], c ∉ p.1 ∧ c ∉ p.2
  length_ok : "Content-Length: ".toList ++ stdToString
    (['&'].intercalate (pairs.map fun p => p.1 ++ '=' :: p.2)).length ∈ head.headers

def PostRequest.body (q : PostRequest) : Str :=
  ['&'].intercalate (q.pairs.map fun p => p.1 ++ '=' :: p.2)

def PostRequest.text (q : PostRequest) : Str := q.head.text ++ q.body

def feed (r : HttpRequest) : List Str → List (ReadStatus × HttpRequest)
  | [] => []
  | chunk :: chunks => r.onReadable chunk :: feed (r.onReadable chunk).2 chunks

/-- One call returned `READ_OVER`, and the request then had every key of the
form with a value the form gives it. -/
def DeliversForm (pairs : List (Str × Str)) (calls : List (ReadStatus × HttpRequest)) : Prop :=
  ∃ r, calls.filter (·.1 = .readOver) = [(.readOver, r)] ∧
    ∀ p ∈ pairs, ∃ value, r.bodyParams[p.1]? = some value ∧ (p.1, value) ∈ pairs

structure NoBody (r : RequestFields) : Prop where
  phase : r.parsePart ≠ .parseReqBody
  params : r.bodyParams = ∅

theorem parseUrlParams_bodyParams (r : RequestFields) :
    (parseUrlParams r).bodyParams = r.bodyParams := by
  simp only [parseUrlParams]
  split <;> rfl

theorem parseUrlParams_parsePart (r : RequestFields) :
    (parseUrlParams r).parsePart = r.parsePart := by
  simp only [parseUrlParams]
  split <;> rfl

theorem NoBody.parseRequestLine (h : NoBody r) (line : Str) :
    NoBody (parseRequestLine line r).2 := by
  simp only [HttpServer.parseRequestLine]
  split
  · exact ⟨h.phase, h.params⟩
  · split
    · exact ⟨h.phase, h.params⟩
    · refine ⟨?_, ?_⟩
      · simpa only [parseUrlParams_parsePart] using h.phase
      · simpa only [parseUrlParams_bodyParams] using h.params

theorem NoBody.onLine (h : NoBody r) (line : Str) : NoBody (onLine line r).2 := by
  have hrequest := h.parseRequestLine line
  unfold HttpServer.onLine
  split
  · exact ⟨by simp, h.params⟩
  · split
    · simp only
      split
      · exact hrequest
      · split
        · exact hrequest
        · exact ⟨by simp, hrequest.params⟩
    · split
      · exact ⟨h.phase, h.params⟩
      · split
        · exact absurd (‹_ ∧ _›).1 h.phase
        · exact h

theorem NoBody.lineLoop {r : HttpRequest} (h : NoBody r.toRequestFields) (fuel : Nat) :
    NoBody (lineLoop fuel r).2.toRequestFields := by
  induction fuel generalizing r with
  | zero => exact h
  | succ fuel ih =>
    unfold HttpServer.lineLoop
    split
    · have hline := h.onLine (r.reqBuff.getline '\n' []).1
      simp only
      split <;> rename_i heq <;> rw [heq] at hline
      · exact ih hline
      · exact hline
      · exact hline
    · exact h

theorem NoBody.onReadable {r : HttpRequest} (h : NoBody r.toRequestFields) (chunk : Str) :
    NoBody (r.onReadable chunk).2.toRequestFields := by
  have hloop (reqBuff : StringStream) (totalReqSize : Int) (fuel : Nat) :
      NoBody (HttpServer.lineLoop fuel { r with reqBuff, totalReqSize }).2.toRequestFields :=
    NoBody.lineLoop (r := { r with reqBuff, totalReqSize }) h fuel
  unfold HttpRequest.onReadable
  simp only
  split
  · exact h
  · split
    · exact h
    · split
      · exact h
      · split <;> rename_i heq
        · exact congrArg Prod.snd heq ▸ hloop _ _ _
        · have hparsed := congrArg Prod.snd heq ▸ hloop _ _ _
          split <;> exact hparsed

theorem NoBody.feed {r : HttpRequest} (h : NoBody r.toRequestFields) (chunks : List Str) :
    ∀ call ∈ feed r chunks, NoBody call.2.toRequestFields := by
  induction chunks generalizing r with
  | nil => simp [HttpServer.feed]
  | cons chunk chunks ih =>
    exact List.forall_mem_cons.mpr ⟨h.onReadable chunk, ih (h.onReadable chunk)⟩

/-- Whatever the chunks are, those of the request among them, no form is ever
delivered. -/
theorem body_never_parsed (q : PostRequest) (chunks : List Str) :
    ¬DeliversForm q.pairs (feed {} chunks) := by
  rintro ⟨r, hover, hpairs⟩
  have hmem : (ReadStatus.readOver, r) ∈ feed {} chunks := by
    have hfilter : (ReadStatus.readOver, r) ∈ (feed {} chunks).filter (·.1 = .readOver) := by
      rw [hover]
      exact List.mem_singleton_self _
    exact (List.mem_filter.mp hfilter).1
  have hnone : NoBody r.toRequestFields := NoBody.feed ⟨by simp, rfl⟩ chunks _ hmem
  obtain ⟨p, ps, hp⟩ := List.exists_cons_of_ne_nil q.pairs_ne
  obtain ⟨value, hvalue, -⟩ := hpairs p (hp ▸ List.mem_cons_self)
  simp [hnone.params] at hvalue

def formRequest : PostRequest where
  head :=
    { method := post, target := "/f".toList, version := "HTTP/1.1".toList
      headers := ["Content-Length: 3".toList]
      method_ok := .inr rfl, target_ok := by decide, version_ok := RequestHead.http11_ok
      headers_ok := by decide }
  pairs := [("a".toList, "1".toList)]
  is_post := rfl
  pairs_ne := by decide
  pairs_ok := by simp
  length_ok := List.mem_singleton.mpr rfl

set_option maxRecDepth 4000 in
/-- In one chunk the request is never over. With the head in a chunk of its own
it is over before the body has come. -/
theorem body_lost_form_request :
    (feed {} [formRequest.text]).map (·.1) = [.readContinue] ∧
      (feed {} [formRequest.head.text, formRequest.body]).map
          (fun call => (call.1, call.2.bodyParams.toList))
        = [(.readOver, []), (.readContinue, [])] := by
  decide

end CppUtil.HttpServer

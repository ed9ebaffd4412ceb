import CppUtil.HttpServer.Post

/-!
# How reading a request ends

A request that ends with its first empty line is read with the same outcome
in one call and in many (`feed_chunks`). Its first line alone decides the
outcome (`onReadable_outcome`). An empty first line ends the request at once,
before any request line (`receive_over_iff`).
-/

namespace CppUtil.HttpServer

open Lang (Str StringStream wrapInt)

/-- A request that is not too large and ends with an empty line, the only one
behind a complete line. -/
structure EndsOnce (s : Str) : Prop where
  size : (s.length : Int) ≤ maxRequestSize
  ends : crlfcrlf <:+ s
  first : ∀ start rest, s = start ++ rest → rest ≠ [] → ¬crlfcrlf <:+ start

-- ---------------------------------------------------------------------------
-- Chunks
-- ---------------------------------------------------------------------------

theorem Gathering.feed_ends {r : HttpRequest} (hg : Gathering r text) (hs : EndsOnce s)
    (hne : ∀ chunk ∈ chunks, chunk ≠ []) (hchunks : chunks ≠ [])
    (htext : text ++ chunks.flatten = s) :
    ∃ calls last, feed r chunks = calls ++ [last] ∧ (∀ call ∈ calls, call.1 = .readContinue) ∧
      last.1 = (parsed s).1 ∧ last.2.toRequestFields = (parsed s).2 := by
  induction chunks generalizing r text with
  | nil => exact absurd rfl hchunks
  | cons chunk chunks ih =>
    rw [List.flatten_cons, ← List.append_assoc] at htext
    cases chunks with
    | nil =>
      rw [List.flatten_nil, List.append_nil] at htext
      subst htext
      exact ⟨[], r.onReadable chunk, rfl, by simp, hg.onReadable_over hs.size hs.ends⟩
    | cons next chunks =>
      obtain ⟨-, hrest⟩ := List.forall_mem_cons.mp hne
      have hopen : ¬crlfcrlf <:+ text ++ chunk := by
        refine hs.first _ _ htext.symm ?_
        simp [hrest next List.mem_cons_self]
      have hsize : ((text ++ chunk).length : Int) ≤ maxRequestSize := by
        have hlen := hs.size
        rw [← htext, List.length_append] at hlen
        omega
      obtain ⟨hstatus, hnext⟩ := hg.onReadable_continue hsize hopen
      obtain ⟨calls, last, hfeed, hcalls, hlast⟩ := ih hnext hrest (by simp) htext
      refine ⟨r.onReadable chunk :: calls, last, ?_, ?_, hlast⟩
      · rw [feed, hfeed]
        rfl
      · exact List.forall_mem_cons.mpr ⟨hstatus, hcalls⟩

theorem onReadable_parsed (hsize : (s.length : Int) ≤ maxRequestSize) (hend : crlfcrlf <:+ s) :
    (({} : HttpRequest).onReadable s).1 = (parsed s).1 ∧
      (({} : HttpRequest).onReadable s).2.toRequestFields = (parsed s).2 :=
  @Gathering.onReadable_over {} [] s Gathering.new hsize hend

/-- Cut into chunks, a request is read as it is in a single call. -/
theorem feed_chunks (hs : EndsOnce s) (hne : ∀ chunk ∈ chunks, chunk ≠ [])
    (hchunks : chunks.flatten = s) :
    ∃ calls last, feed {} chunks = calls ++ [last] ∧ (∀ call ∈ calls, call.1 = .readContinue) ∧
      last.1 = (({} : HttpRequest).onReadable s).1 ∧
      last.2.toRequestFields = (({} : HttpRequest).onReadable s).2.toRequestFields := by
  have hsome : chunks ≠ [] := by
    rintro rfl
    have hlen := crlfcrlf_length hs.ends
    rw [← hchunks] at hlen
    exact absurd hlen (by decide)
  obtain ⟨hstatus, hfields⟩ := onReadable_parsed hs.size hs.ends
  rw [hstatus, hfields]
  exact Gathering.new.feed_ends hs hne hsome hchunks

theorem RequestHead.endsOnce (q : RequestHead) (hsize : (q.text.length : Int) ≤ maxRequestSize) :
    EndsOnce q.text where
  size := hsize
  ends := q.text_ends
  first _ _ := q.prefix_not_ends

theorem feed_chunks_form_head :
    let s := formRequest.head.text
    ∃ calls last, feed {} [s.take 2, s.drop 2] = calls ++ [last] ∧
      (∀ call ∈ calls, call.1 = .readContinue) ∧
      last.1 = (({} : HttpRequest).onReadable s).1 ∧
      last.2.toRequestFields = (({} : HttpRequest).onReadable s).2.toRequestFields :=
  feed_chunks (formRequest.head.endsOnce (by decide)) (by decide) rfl

-- ---------------------------------------------------------------------------
-- The lines of a request
-- ---------------------------------------------------------------------------

def firstLine (s : Str) : Str := s.takeWhile (· != '\n')

def firstWord (line : Str) : Str := line.takeWhile (· != ' ')

/-- No request line: fewer than two spaces, or another method. -/
def BadRequestLine (line : Str) : Prop :=
  line.count ' ' < 2 ∨ (firstWord line ≠ get ∧ firstWord line ≠ post)

/-- The lines between the first line and the first empty one. -/
def headerLines (s : Str) : List Str :=
  ((s.splitOn '\n').takeWhile (· != "\r".toList)).tail

def isHeader (line : Str) : Bool := 2 ≤ (Util.stringSplit line ':' []).length

def addHeaders (lines : List Str) (headers : Params) : Params :=
  lines.foldl (fun headers line => addHeader line headers) headers

theorem addHeader_skipped (h : isHeader line = false) (headers : Params) :
    addHeader line headers = headers := by
  unfold isHeader at h
  unfold addHeader
  split
  · rename_i hparts
    simp [hparts] at h
  · rfl

theorem addHeaders_filter (lines : List Str) (headers : Params) :
    addHeaders (lines.filter isHeader) headers = addHeaders lines headers := by
  rw [addHeaders, List.foldl_filter, addHeaders]
  congr 1
  funext headers line
  split
  · rfl
  · rename_i hline
    exact (addHeader_skipped (by simpa using hline) headers).symm

theorem lines_of_ends (h : crlfcrlf <:+ s) :
    ∃ lines, s.splitOn '\n' = firstLine s :: (lines ++ ["\r".toList, []]) := by
  have hhead := StringStream.splitOn_head s '\n'
  obtain ⟨before, rfl⟩ := h
  have hsplit : (before ++ crlfcrlf).splitOn '\n'
      = (before ++ "\r".toList).splitOn '\n' ++ ["\r".toList, []] := by
    have htext : before ++ crlfcrlf
        = (before ++ "\r".toList) ++ '\n' :: ("\r".toList ++ '\n' :: []) := by
      simp [crlfcrlf]
    rw [htext, List.splitOn_append_cons_self,
      List.splitOn_append_cons_self_of_not_mem (by decide), List.splitOn_nil]
  obtain ⟨first, lines, hlines⟩ :=
    List.exists_cons_of_ne_nil (List.splitOn_ne_nil '\n' (before ++ "\r".toList))
  rw [hlines, List.cons_append] at hsplit
  obtain ⟨hfirst, -⟩ := List.cons.inj (hsplit.symm.trans hhead)
  exact ⟨lines, by rw [hsplit, hfirst]; rfl⟩

theorem onLines_over {r : RequestFields} (h : r.parsePart = .parseReqOver) (lines : List Str) :
    onLines lines r = (none, r) := by
  induction lines with
  | nil => rfl
  | cons line lines ih =>
    rw [onLines, onLine_over h]
    exact ih

theorem onLines_head {r : RequestFields} (hpart : r.parsePart = .parseReqHead)
    (hblank : "\r".toList ∈ lines) :
    onLines lines r =
      (none, { r with
        headers := addHeaders (lines.takeWhile (· != "\r".toList)) r.headers
        parsePart := .parseReqOver }) := by
  induction lines generalizing r with
  | nil => exact absurd hblank List.not_mem_nil
  | cons line lines ih =>
    by_cases hline : line = "\r".toList
    · rw [onLines, hline, onLine_blank]
      exact onLines_over rfl lines
    · rw [onLines, onLine_head hline hpart]
      have hrest : "\r".toList ∈ lines := by
        rcases List.mem_cons.mp hblank with heq | hmem
        · exact absurd heq.symm hline
        · exact hmem
      rw [List.takeWhile_cons_of_pos (by simpa using hline)]
      exact @ih { r with headers := addHeader line r.headers } hpart hrest

theorem pieces_of_spaces (h : ¬line.count ' ' < 2) :
    ∃ url version more, line.splitOn ' ' = firstWord line :: url :: version :: more := by
  have hlen := StringStream.splitOn_length line ' '
  have hhead : line.splitOn ' ' = firstWord line :: (line.splitOn ' ').tail :=
    StringStream.splitOn_head line ' '
  rw [hhead, List.length_cons] at hlen
  obtain ⟨url, pieces, hurl⟩ : ∃ url pieces, (line.splitOn ' ').tail = url :: pieces :=
    List.exists_cons_of_length_pos (by omega)
  rw [hurl, List.length_cons] at hlen
  obtain ⟨version, more, rfl⟩ : ∃ version more, pieces = version :: more :=
    List.exists_cons_of_length_pos (by omega)
  exact ⟨url, version, more, hhead.trans (congrArg _ hurl)⟩

theorem onLine_bad (hne : line ≠ "\r".toList) (hbad : BadRequestLine line) :
    (onLine line {}).1 = .readError := by
  by_cases hshort : line.count ' ' < 2
  · simp only [onLine, if_neg hne, if_true, parseRequestLine_short hshort, Bool.not_false]
  · obtain ⟨url, version, more, hpieces⟩ := pieces_of_spaces hshort
    have hother : firstWord line ≠ post ∧ firstWord line ≠ get :=
      (hbad.resolve_left hshort).symm
    simp only [onLine, if_neg hne, if_true, parseRequestLine_pieces hpieces, Bool.not_true,
      Bool.false_eq_true, if_false, parseUrlParams_method, if_pos hother]

theorem onLine_request (hne : line ≠ "\r".toList) (hok : ¬BadRequestLine line) :
    ∃ method url version more,
      line.splitOn ' ' = method :: url :: version :: more ∧ (method = get ∨ method = post) ∧
      onLine line {} = (.next, { parseUrlParams { method, url } with
        httpVersion := version, parsePart := .parseReqHead }) := by
  obtain ⟨hcount, hword⟩ := not_or.mp hok
  obtain ⟨url, version, more, hpieces⟩ := pieces_of_spaces hcount
  have hmethod : firstWord line = get ∨ firstWord line = post := by
    by_contra hother
    exact hword (not_or.mp hother)
  exact ⟨_, url, version, more, hpieces, hmethod, onLine_pieces hne hpieces hmethod⟩

theorem parsed_ends (h : crlfcrlf <:+ s) :
    (firstLine s = "\r".toList ∧ parsed s = (.readOver, { parsePart := .parseReqOver })) ∨
    (firstLine s ≠ "\r".toList ∧ BadRequestLine (firstLine s) ∧ (parsed s).1 = .readError) ∨
    (firstLine s ≠ "\r".toList ∧ ¬BadRequestLine (firstLine s) ∧ ∃ method url version more,
      (firstLine s).splitOn ' ' = method :: url :: version :: more ∧
      (method = get ∨ method = post) ∧
      parsed s = (.readOver, { parseUrlParams { method, url } with
        httpVersion := version
        headers := addHeaders (headerLines s) ∅
        parsePart := .parseReqOver })) := by
  obtain ⟨lines, hlines⟩ := lines_of_ends h
  by_cases hfirst : firstLine s = "\r".toList
  · refine .inl ⟨hfirst, ?_⟩
    simp only [parsed, hlines, onLines, hfirst, onLine_blank]
    rw [onLines_over rfl]
    rfl
  · by_cases hbad : BadRequestLine (firstLine s)
    · refine .inr (.inl ⟨hfirst, hbad, ?_⟩)
      have herror := onLine_bad hfirst hbad
      cases hline : onLine (firstLine s) {} with
      | mk flow fields =>
        rw [hline] at herror
        cases herror
        simp only [parsed, hlines, onLines, hline]
    · obtain ⟨method, url, version, more, hpieces, hmethod, hline⟩ := onLine_request hfirst hbad
      refine .inr (.inr ⟨hfirst, hbad, method, url, version, more, hpieces, hmethod, ?_⟩)
      have hheaders :
          headerLines s = (lines ++ ["\r".toList, []]).takeWhile (· != "\r".toList) := by
        rw [headerLines, hlines, List.takeWhile_cons_of_pos (by simpa using hfirst), List.tail_cons]
      have hblank : "\r".toList ∈ lines ++ ["\r".toList, []] := by simp
      simp only [parsed, hlines, onLines, hline]
      rw [onLines_head rfl hblank, hheaders]
      simp

theorem headerLines_blank (h : firstLine s = "\r".toList) : headerLines s = [] := by
  have hlines : s.splitOn '\n' = firstLine s :: (s.splitOn '\n').tail :=
    StringStream.splitOn_head s '\n'
  rw [headerLines, hlines, h, List.takeWhile_cons_of_neg (by simp), List.tail_nil]

/-- The first line alone decides the outcome, and of the header lines those
without a value are skipped. -/
theorem onReadable_outcome (hsize : (s.length : Int) ≤ maxRequestSize) (hend : crlfcrlf <:+ s) :
    ((({} : HttpRequest).onReadable s).1 = .readError ↔
      firstLine s ≠ "\r".toList ∧ BadRequestLine (firstLine s)) ∧
    ((({} : HttpRequest).onReadable s).1 ≠ .readError →
      (({} : HttpRequest).onReadable s).1 = .readOver ∧
      (({} : HttpRequest).onReadable s).2.parsePart = .parseReqOver ∧
      (({} : HttpRequest).onReadable s).2.headers
        = addHeaders ((headerLines s).filter isHeader) ∅) := by
  obtain ⟨hstatus, hfields⟩ := onReadable_parsed hsize hend
  rw [hstatus, hfields, addHeaders_filter]
  rcases parsed_ends hend with
    ⟨hfirst, hparsed⟩ | ⟨hfirst, hbad, herror⟩ |
    ⟨hfirst, hok, method, url, version, more, -, -, hparsed⟩
  · rw [hparsed, headerLines_blank hfirst]
    exact ⟨iff_of_false (by simp) (fun h => h.1 hfirst), fun _ => ⟨rfl, rfl, rfl⟩⟩
  · exact ⟨iff_of_true herror ⟨hfirst, hbad⟩, fun h => absurd herror h⟩
  · rw [hparsed]
    exact ⟨iff_of_false (by simp) (fun h => hok h.2), fun _ => ⟨rfl, rfl, rfl⟩⟩

theorem onReadable_outcome_form_head :
    (({} : HttpRequest).onReadable formRequest.head.text).1 = .readOver ∧
      (({} : HttpRequest).onReadable formRequest.head.text).2.parsePart = .parseReqOver := by
  obtain ⟨-, hover⟩ := onReadable_outcome (s := formRequest.head.text) (by decide)
    formRequest.head.text_ends
  obtain ⟨hstatus, hpart, -⟩ := hover (by decide)
  exact ⟨hstatus, hpart⟩

-- ---------------------------------------------------------------------------
-- Requests without a request line
-- ---------------------------------------------------------------------------

def receive (r : HttpRequest) : List Str → ReadStatus × HttpRequest
  | [] => (.readContinue, r)
  | chunk :: chunks =>
    if (r.onReadable chunk).1 = .readContinue then receive (r.onReadable chunk).2 chunks
    else r.onReadable chunk

def FromRequestLine (input : Str) (r : RequestFields) : Prop :=
  (r.method = get ∨ r.method = post) ∧
    ∃ line ∈ input.splitOn '\n', ∃ more,
      line.splitOn ' ' = r.method :: r.url :: r.httpVersion :: more

theorem parsed_ne_continue (h : crlfcrlf <:+ s) : (parsed s).1 ≠ .readContinue := by
  rcases parsed_ends h with ⟨-, hparsed⟩ | ⟨-, -, herror⟩ | ⟨-, -, _, _, _, _, -, -, hparsed⟩
  · simp [hparsed]
  · simp [herror]
  · simp [hparsed]

theorem Gathering.receive {r : HttpRequest} (hc : Gathering r text)
    (h : (receive r chunks).1 = .readOver) :
    ∃ s rest, text ++ chunks.flatten = s ++ rest ∧ crlfcrlf <:+ s ∧
      (parsed s).1 = .readOver ∧ (receive r chunks).2.toRequestFields = (parsed s).2 := by
  induction chunks generalizing r text with
  | nil => exact absurd h (by simp [HttpServer.receive])
  | cons chunk chunks ih =>
    rw [List.flatten_cons, ← List.append_assoc]
    rw [HttpServer.receive] at h ⊢
    rcases hc.onReadable chunk with
      ⟨-, hstatus⟩ | ⟨-, hstatus, hnext⟩ | ⟨hend, -, hstatus, hfields⟩
    · simp [hstatus] at h
    · rw [if_pos hstatus] at h ⊢
      exact ih hnext h
    · have hdone : (r.onReadable chunk).1 ≠ .readContinue := by
        rw [hstatus]
        exact parsed_ne_continue hend
      rw [if_neg hdone] at h ⊢
      exact ⟨text ++ chunk, chunks.flatten, rfl, hend, hstatus ▸ h, hfields⟩

theorem firstLine_append (h : '\n' ∈ s) (rest : Str) : firstLine (s ++ rest) = firstLine s := by
  rw [firstLine, List.takeWhile_append]
  split
  · rename_i hall
    have hself := List.takeWhile_eq_self_iff.mp (List.takeWhile_sublist _ |>.eq_of_length hall)
    exact absurd (hself _ h) (by decide)
  · rfl

/-- A request is over without a request line exactly if its first line is empty. -/
theorem receive_over_iff (h : (receive {} chunks).1 = .readOver) :
    FromRequestLine chunks.flatten (receive {} chunks).2.toRequestFields ↔
      firstLine chunks.flatten ≠ "\r".toList := by
  have hstart : Gathering {} [] := .new
  obtain ⟨s, rest, hinput, hend, hover, hfields⟩ := hstart.receive h
  have hmem : '\n' ∈ s := hend.subset (by decide)
  rw [List.nil_append] at hinput
  rw [hinput, hfields, firstLine_append hmem]
  rcases parsed_ends hend with
    ⟨hfirst, hparsed⟩ | ⟨-, -, herror⟩ |
    ⟨hfirst, -, method, url, version, more, hpieces, hmethod, hparsed⟩
  · rw [hparsed]
    refine iff_of_false ?_ (fun hne => hne hfirst)
    rintro ⟨hmethod, -⟩
    exact absurd hmethod (by decide)
  · rw [herror] at hover
    cases hover
  · rw [hparsed]
    refine iff_of_true ⟨?_, firstLine s, ?_, more, ?_⟩ hfirst
    · simpa using hmethod
    · rw [← firstLine_append hmem rest, StringStream.splitOn_head]
      exact List.mem_cons_self
    · simpa using hpieces

theorem receive_over_two_chunks :
    let chunks := ["GET /".toList, " HTTP/1.1\r\n\r\n".toList]
    (receive {} chunks).1 = .readOver ∧
      FromRequestLine chunks.flatten (receive {} chunks).2.toRequestFields :=
  ⟨by decide, (receive_over_iff (by decide)).mpr (by decide)⟩

/-- An empty line is a request, also in front of a request line. It is handled
with an empty method and an empty uri. -/
theorem receive_over_blank_first :
    (∀ s ∈ [crlfcrlf, "\r\nGET / HTTP/1.1\r\n\r\n".toList],
      (receive {} [s]).1 = .readOver ∧
        ¬FromRequestLine s (receive {} [s]).2.toRequestFields) ∧
    ((({} : Connection).handleReadableEvent ⟨∅⟩ crlfcrlf).handled.map
      fun r => (r.method, r.uri)) = [([], [])] := by
  have hblank : ∀ s ∈ [crlfcrlf, "\r\nGET / HTTP/1.1\r\n\r\n".toList],
      (receive {} [s]).1 = .readOver ∧ (receive {} [s]).2.method = [] := by decide
  refine ⟨fun s hs => ⟨(hblank s hs).1, ?_⟩, by decide⟩
  rintro ⟨hmethod, -⟩
  rw [(hblank s hs).2] at hmethod
  exact absurd hmethod (by decide)

end CppUtil.HttpServer

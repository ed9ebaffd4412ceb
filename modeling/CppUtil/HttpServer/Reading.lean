import CppUtil.HttpServer.Server

/-!
# Reading a request

Until the bytes received end with an empty line they are only collected
(`Gathering`); then the request is parsed from all of them, however they were
cut into chunks (`Gathering.onReadable`).
-/

namespace CppUtil.HttpServer

open Lang (Str StringStream wrapInt)

-- ---------------------------------------------------------------------------
-- Lines
-- ---------------------------------------------------------------------------

def onLines : List Str → RequestFields → Option ReadStatus × RequestFields
  | [], r => (none, r)
  | line :: lines, r =>
    match onLine line r with
    | (.next, r) => onLines lines r
    | (.leave, r) => (none, r)
    | (.readError, r) => (some .readError, r)

theorem lineLoop_onLines {r : HttpRequest} (h : r.reqBuff.good = true)
    (hfuel : r.reqBuff.rest.length < fuel) :
    ∃ reqBuff, lineLoop fuel r =
      ((onLines (r.reqBuff.rest.splitOn '\n') r.toRequestFields).1,
        { toRequestFields := (onLines (r.reqBuff.rest.splitOn '\n') r.toRequestFields).2
          reqBuff, totalReqSize := r.totalReqSize }) := by
  induction fuel generalizing r with
  | zero => exact absurd hfuel (Nat.not_lt_zero _)
  | succ fuel ih =>
    obtain ⟨line, next, hline, -, hnext⟩ := r.reqBuff.getline_good h '\n' []
    simp only [lineLoop, h, if_true, hline]
    rcases hnext with ⟨hstop, hlines⟩ | ⟨hgood, hlines, hlen⟩
    · rw [hlines, onLines]
      cases hflow : onLine line r.toRequestFields with
      | mk flow fields =>
        cases flow with
        | next =>
          refine ⟨next, ?_⟩
          cases fuel <;> simp [lineLoop, hstop, onLines]
        | leave => exact ⟨next, rfl⟩
        | readError => exact ⟨next, rfl⟩
    · rw [hlines, onLines]
      cases hflow : onLine line r.toRequestFields with
      | mk flow fields =>
        cases flow with
        | next => exact @ih { r with toRequestFields := fields, reqBuff := next } hgood (by simp; omega)
        | leave => exact ⟨next, rfl⟩
        | readError => exact ⟨next, rfl⟩

-- ---------------------------------------------------------------------------
-- The end of a request
-- ---------------------------------------------------------------------------

theorem isReadOver_good {ss : StringStream} (h : ss.good = true) (hlen : 4 ≤ ss.str.length) :
    isReadOver ss =
      if crlfcrlf <:+ ss.str then (true, .positioned ss.str 0)
      else (false, .positioned ss.str ss.str.length) := by
  have hlast : ((ss.str.drop (ss.str.length - 4)).take 4) = ss.str.drop (ss.str.length - 4) := by
    refine List.take_of_length_le ?_
    rw [List.length_drop]
    omega
  have hseek : ss.seekgEnd (-4) = .positioned ss.str (ss.str.length - 4) :=
    StringStream.seekgEnd_good h hlen
  have hend : ss.str.length - 4 + 4 = ss.str.length := by omega
  have hiff : crlfcrlf <:+ ss.str ↔ ss.str.drop (ss.str.length - 4) = crlfcrlf := by
    rw [List.suffix_iff_eq_drop, eq_comm]
    rfl
  simp only [isReadOver, hseek, StringStream.readsome_positioned, hlast, hend, hiff, ne_eq,
    ite_not]
  split
  · rw [← Int.natCast_zero, StringStream.seekg_inside (Nat.zero_le _)]
  · rfl

theorem four_le (h : ¬wrapInt (n : Nat) < 4) : 4 ≤ n := by
  rcases Nat.lt_or_ge n 4 with hn | hn
  · rw [Lang.wrapInt_eq (by omega) (by omega)] at h
    omega
  · exact hn

def parsed (text : Str) : ReadStatus × RequestFields :=
  match onLines (text.splitOn '\n') {} with
  | (some status, r) => (status, r)
  | (none, r) => (if r.parsePart ≠ .parseReqOver then .readContinue else .readOver, r)

theorem crlfcrlf_length (h : crlfcrlf <:+ text) : 4 ≤ text.length := h.length_le

/-- `text`, of any length, has been collected and nothing has been parsed. -/
structure Gathering (r : HttpRequest) (text : Str) : Prop where
  fields : r.toRequestFields = {}
  size : r.totalReqSize = wrapInt text.length
  good : r.reqBuff.good = true
  str : r.reqBuff.str = text

namespace Gathering

theorem new : Gathering {} [] := ⟨rfl, rfl, rfl, rfl⟩

section
variable {r : HttpRequest} {text : Str} (hc : Gathering r text) (chunk : Str)
include hc

theorem size_next :
    wrapInt (r.totalReqSize + chunk.length) = wrapInt (text ++ chunk).length := by
  rw [hc.size, Lang.wrapInt_add, ← Int.natCast_add, ← List.length_append]

theorem onReadable :
    (maxRequestSize < wrapInt (text ++ chunk).length ∧
      (r.onReadable chunk).1 = .readReachMaxSize) ∨
    ((wrapInt (text ++ chunk).length < 4 ∨ ¬crlfcrlf <:+ text ++ chunk) ∧
      (r.onReadable chunk).1 = .readContinue ∧
      Gathering (r.onReadable chunk).2 (text ++ chunk)) ∨
    (crlfcrlf <:+ text ++ chunk ∧ wrapInt (text ++ chunk).length ≤ maxRequestSize ∧
      (r.onReadable chunk).1 = (parsed (text ++ chunk)).1 ∧
      (r.onReadable chunk).2.toRequestFields = (parsed (text ++ chunk)).2) := by
  obtain ⟨hgood, hstr⟩ := StringStream.write_good hc.good chunk
  rw [hc.str] at hstr
  simp only [HttpRequest.onReadable, hc.size_next]
  split
  next hmax => exact .inl ⟨hmax, rfl⟩
  next hmax =>
    split
    next hfour => exact .inr (.inl ⟨.inl hfour, rfl, hc.fields, by simp only, hgood, hstr⟩)
    next hfour =>
      have hover := isReadOver_good hgood (by rw [hstr]; exact four_le hfour)
      rw [hstr] at hover
      by_cases hend : crlfcrlf <:+ text ++ chunk
      · rw [if_pos hend] at hover
        obtain ⟨reqBuff, hloop⟩ := lineLoop_onLines
          (r := { r with reqBuff := .positioned (text ++ chunk) 0
                         totalReqSize := wrapInt (text ++ chunk).length })
          (StringStream.positioned_good _ 0) (Nat.lt_succ_self _)
        simp only [hc.fields, StringStream.positioned_rest, List.drop_zero] at hloop
        simp only [hover, Bool.not_true, Bool.false_eq_true, if_false, hc.fields,
          StringStream.positioned_rest, List.drop_zero, hloop]
        refine .inr (.inr ⟨hend, Int.not_lt.mp hmax, ?_⟩)
        unfold parsed
        cases hlines : onLines ((text ++ chunk).splitOn '\n') {} with
        | mk status fields =>
          cases status with
          | none =>
            simp only
            split <;> exact ⟨rfl, rfl⟩
          | some status => exact ⟨rfl, rfl⟩
      · rw [if_neg hend] at hover
        simp only [hover, Bool.not_false, if_true]
        exact .inr (.inl ⟨.inr hend, trivial, hc.fields, by simp only, rfl,
          StringStream.positioned_str _ _⟩)

end

end Gathering

theorem wrapInt_size {text : Str} (hmax : (text.length : Int) ≤ maxRequestSize) :
    wrapInt text.length = text.length := by
  have hsize : maxRequestSize = 10485760 := rfl
  exact Lang.wrapInt_eq (by omega) (by omega)

namespace Gathering

section
variable {r : HttpRequest} {text chunk : Str} (hg : Gathering r text)
  (hmax : ((text ++ chunk).length : Int) ≤ maxRequestSize)
include hg hmax

theorem onReadable_continue (hend : ¬crlfcrlf <:+ text ++ chunk) :
    (r.onReadable chunk).1 = .readContinue ∧ Gathering (r.onReadable chunk).2 (text ++ chunk) := by
  have hsize := wrapInt_size hmax
  rcases hg.onReadable chunk with
    ⟨hlarge, -⟩ | ⟨-, hstatus, hnext⟩ | ⟨hover, -⟩
  · omega
  · exact ⟨hstatus, hnext⟩
  · exact absurd hover hend

theorem onReadable_over (hend : crlfcrlf <:+ text ++ chunk) :
    (r.onReadable chunk).1 = (parsed (text ++ chunk)).1 ∧
      (r.onReadable chunk).2.toRequestFields = (parsed (text ++ chunk)).2 := by
  have hsize := wrapInt_size hmax
  have hfour := crlfcrlf_length hend
  rcases hg.onReadable chunk with
    ⟨hlarge, -⟩ | ⟨hshort | hopen, -⟩ | ⟨-, -, hparsed⟩
  · omega
  · omega
  · exact absurd hend hopen
  · exact hparsed

end

end Gathering

-- ---------------------------------------------------------------------------
-- Well-formed requests
-- ---------------------------------------------------------------------------

theorem parseRequestLine_pieces {r : RequestFields}
    (h : line.splitOn ' ' = method :: url :: version :: more) :
    parseRequestLine line r
      = (true, { parseUrlParams { r with method, url } with httpVersion := version }) := by
  obtain ⟨ss, hmethod, hgood, hrest⟩ :=
    StringStream.getline_pieces (StringStream.ofString_good line) ' ' r.method h
  obtain ⟨ss', hurl, hgood', hrest'⟩ :=
    StringStream.getline_pieces (hgood.mpr (by simp)) ' ' r.url (hrest (by simp))
  obtain ⟨_, hversion, -, -⟩ := StringStream.getline_pieces (hgood'.mpr (by simp)) ' '
    (parseUrlParams { r with method, url }).httpVersion (hrest' (by simp))
  simp only [parseRequestLine, hmethod, hgood.mpr (by simp), Bool.not_true, Bool.false_eq_true,
    if_false, hurl, hgood'.mpr (by simp), hversion]

theorem parseRequestLine_short (h : line.count ' ' < 2) (r : RequestFields) :
    (parseRequestLine line r).1 = false := by
  have hlen := StringStream.splitOn_length line ' '
  obtain ⟨method, pieces, hpieces⟩ := List.exists_cons_of_ne_nil (List.splitOn_ne_nil ' ' line)
  obtain ⟨ss, hmethod, hgood, hrest⟩ :=
    StringStream.getline_pieces (StringStream.ofString_good line) ' ' r.method hpieces
  cases pieces with
  | nil =>
    have hstop : ss.good = false := by simpa using hgood
    simp [parseRequestLine, hmethod, hstop]
  | cons url more =>
    obtain ⟨ss', hurl, hgood', -⟩ :=
      StringStream.getline_pieces (hgood.mpr (by simp)) ' ' r.url (hrest (by simp))
    have hmore : more = [] := by
      rw [hpieces, List.length_cons, List.length_cons] at hlen
      exact List.length_eq_zero_iff.mp (by omega)
    have hstop : ss'.good = false := by simpa [hmore] using hgood'
    have hgood : ss.good = true := hgood.mpr (by simp)
    simp [parseRequestLine, hmethod, hgood, hurl, hstop]

/-- The parameters in the first of the pieces behind the path. -/
def queryParams (params : Params) : List Str → Params
  | [] => params
  | query :: _ => parseForm Std.ExtTreeMap.insert query params

theorem parseUrlParams_pieces {r : RequestFields} (h : r.url.splitOn '?' = uri :: pieces) :
    (parseUrlParams r).uri = uri ∧
      (parseUrlParams r).urlParams = queryParams r.urlParams pieces := by
  obtain ⟨ss, huri, hgood, hrest⟩ :=
    StringStream.getline_pieces (StringStream.ofString_good r.url) '?' r.uri h
  cases pieces with
  | nil =>
    have hstop : ss.good = false := by simpa using hgood
    simp [parseUrlParams, huri, hstop, queryParams]
  | cons query pieces =>
    obtain ⟨_, hquery, -⟩ :=
      StringStream.getline_pieces (hgood.mpr (by simp)) '?' [] (hrest (by simp))
    simp [parseUrlParams, huri, hgood, hquery, queryParams]

@[simp] theorem parseUrlParams_method (r : RequestFields) :
    (parseUrlParams r).method = r.method := by
  simp only [parseUrlParams]
  split <;> rfl

@[simp] theorem parseUrlParams_url (r : RequestFields) : (parseUrlParams r).url = r.url := by
  simp only [parseUrlParams]
  split <;> rfl

@[simp] theorem parseUrlParams_headers (r : RequestFields) :
    (parseUrlParams r).headers = r.headers := by
  simp only [parseUrlParams]
  split <;> rfl

theorem onLine_blank (r : RequestFields) :
    onLine "\r".toList r = (.next, { r with parsePart := .parseReqOver }) := if_pos rfl

theorem onLine_over {r : RequestFields} (h : r.parsePart = .parseReqOver) (line : Str) :
    onLine line r = (.next, r) := by
  unfold onLine
  split
  · rw [← h]
  · simp [h]

theorem onLine_pieces (hne : line ≠ "\r".toList)
    (h : line.splitOn ' ' = method :: url :: version :: more)
    (hmethod : method = get ∨ method = post) :
    onLine line {} =
      (.next, { parseUrlParams { method, url } with
                httpVersion := version, parsePart := .parseReqHead }) := by
  have hallowed : ¬(method ≠ post ∧ method ≠ get) := by
    rintro ⟨hpost, hget⟩
    exact hmethod.elim hget hpost
  simp only [onLine, if_neg hne, if_true, parseRequestLine_pieces h, Bool.not_true,
    Bool.false_eq_true, if_false, parseUrlParams_method, if_neg hallowed]

theorem addHeader_nil (headers : Params) : addHeader [] headers = headers := by
  simp [addHeader, Util.stringSplit_eq]

theorem onLine_head (hne : line ≠ "\r".toList) {r : RequestFields}
    (hpart : r.parsePart = .parseReqHead) :
    onLine line r = (.next, { r with headers := addHeader line r.headers }) := by
  cases line with
  | nil =>
    have hskip : onLine [] r = (.next, r) := by simp [onLine, hpart]
    rw [addHeader_nil]
    exact hskip
  | cons c line => simp only [onLine, if_neg hne, hpart, reduceCtorEq, if_false, ne_eq,
      not_false_eq_true, and_self, if_true]

theorem onLines_headers {headers : List Str} (hlines : ∀ l ∈ headers, l ++ "\r".toList ≠ "\r".toList)
    {r : RequestFields} (hpart : r.parsePart = .parseReqHead) :
    onLines (headers.map (· ++ "\r".toList) ++ more) r =
      onLines more { r with
        headers := headers.foldl (fun m line => addHeader (line ++ "\r".toList) m) r.headers } := by
  induction headers generalizing r with
  | nil => rfl
  | cons l headers ih =>
    obtain ⟨hl, hrest⟩ := List.forall_mem_cons.mp hlines
    rw [List.map_cons, List.cons_append, onLines, onLine_head hl hpart]
    exact ih hrest hpart

/-- A request line and header lines as the protocol has them. The lines come
without the CRLF that ends them. -/
structure RequestHead where
  method : Str
  target : Str
  version : Str
  headers : List Str
  method_ok : method = get ∨ method = post
  target_ok : ' ' ∉ target ∧ '\n' ∉ target
  version_ok : ' ' ∉ version ∧ '\n' ∉ version
  headers_ok : ∀ line ∈ headers, line ≠ [] ∧ '\n' ∉ line

namespace RequestHead

theorem http11_ok : ' ' ∉ "HTTP/1.1".toList ∧ '\n' ∉ "HTTP/1.1".toList := by decide

def getting (target : Str) (htarget : ' ' ∉ target ∧ '\n' ∉ target) (headers : List Str)
    (hheaders : ∀ line ∈ headers, line ≠ [] ∧ '\n' ∉ line) : RequestHead where
  method := get
  target := target
  version := "HTTP/1.1".toList
  headers := headers
  method_ok := .inl rfl
  target_ok := htarget
  version_ok := http11_ok
  headers_ok := hheaders

def requestLine (q : RequestHead) : Str :=
  q.method ++ " ".toList ++ q.target ++ " ".toList ++ q.version

def text (q : RequestHead) : Str :=
  ((q.requestLine :: q.headers).map (· ++ "\r\n".toList)).flatten ++ "\r\n".toList

def uri (q : RequestHead) : Str := (q.target.splitOn '?').headD []

def urlParams (q : RequestHead) : Params := queryParams ∅ (q.target.splitOn '?').tail

def headerMap (q : RequestHead) : Params :=
  q.headers.foldl (fun headers line => addHeader (line ++ "\r".toList) headers) ∅

def fields (q : RequestHead) : RequestFields :=
  { parseUrlParams { method := q.method, url := q.target } with
    httpVersion := q.version ++ "\r".toList
    headers := q.headerMap
    parsePart := .parseReqOver }

theorem fields_uri (q : RequestHead) :
    q.fields.uri = q.uri ∧ q.fields.urlParams = q.urlParams := by
  obtain ⟨uri, pieces, h⟩ := List.exists_cons_of_ne_nil (List.splitOn_ne_nil '?' q.target)
  have hpieces := parseUrlParams_pieces (r := { method := q.method, url := q.target }) h
  refine ⟨hpieces.1.trans ?_, hpieces.2.trans ?_⟩
  · rw [RequestHead.uri, h, List.headD_cons]
  · rw [RequestHead.urlParams, h, List.tail_cons]

def lines (q : RequestHead) : List Str :=
  (q.requestLine :: q.headers).map (· ++ "\r".toList)

theorem text_lines (q : RequestHead) :
    q.text = ((q.lines ++ ["\r".toList]).map (· ++ ['\n'])).flatten := by
  simp [text, lines, Function.comp_def]

theorem requestLine_free (q : RequestHead) : '\n' ∉ q.requestLine := by
  have hmethod : '\n' ∉ q.method := by
    rcases q.method_ok with h | h <;> rw [h] <;> decide
  simp [requestLine, hmethod, q.target_ok.2, q.version_ok.2]

theorem lines_free (q : RequestHead) : ∀ l ∈ q.lines ++ ["\r".toList], '\n' ∉ l := by
  have hlines : ∀ l ∈ q.requestLine :: q.headers, '\n' ∉ l :=
    List.forall_mem_cons.mpr ⟨q.requestLine_free, fun l hl => (q.headers_ok l hl).2⟩
  intro l hl
  rcases List.mem_append.mp hl with hl | hl
  · obtain ⟨line, hline, rfl⟩ := List.mem_map.mp hl
    simpa using hlines line hline
  · rw [List.mem_singleton.mp hl]
    decide

theorem lines_ne (q : RequestHead) : ∀ l ∈ q.lines, l ≠ "\r".toList := by
  have hlines : ∀ l ∈ q.requestLine :: q.headers, l ≠ [] :=
    List.forall_mem_cons.mpr ⟨by simp [requestLine], fun l hl => (q.headers_ok l hl).1⟩
  intro l hl
  obtain ⟨line, hline, rfl⟩ := List.mem_map.mp hl
  simpa using hlines line hline

theorem splitOn_text (q : RequestHead) (body : Str) :
    (q.text ++ body).splitOn '\n' = q.lines ++ "\r".toList :: body.splitOn '\n' := by
  rw [text_lines, StringStream.splitOn_lines q.lines_free]
  simp

theorem text_ends (q : RequestHead) : crlfcrlf <:+ q.text := by
  obtain ⟨init, last, hlast⟩ : ∃ init last, q.requestLine :: q.headers = init ++ [last] :=
    ⟨_, _, (List.dropLast_append_getLast (List.cons_ne_nil _ _)).symm⟩
  refine ⟨(init.map (· ++ "\r\n".toList)).flatten ++ last, ?_⟩
  simp [text, hlast, crlfcrlf]

theorem prefix_not_ends (q : RequestHead) (h : q.text = start ++ rest) (hrest : rest ≠ []) :
    ¬crlfcrlf <:+ start := by
  rintro ⟨before, rfl⟩
  have hlines := q.splitOn_text []
  have hsplit : q.text
      = (before ++ "\r".toList) ++ '\n' :: ("\r".toList ++ '\n' :: rest) := by
    rw [h]
    simp [crlfcrlf]
  rw [List.append_nil, hsplit, List.splitOn_append_cons_self,
    List.splitOn_append_cons_self_of_not_mem (by decide), List.splitOn_nil] at hlines
  have hblank : "\r".toList ∉ q.lines := fun hmem => q.lines_ne _ hmem rfl
  obtain ⟨-, -, hlast⟩ := (List.append_cons_inj_of_notMem hblank (by decide)).mp hlines.symm
  have hempty : ['\n'].intercalate (rest.splitOn '\n') = rest := List.intercalate_splitOn '\n'
  rw [← hlast] at hempty
  exact hrest hempty.symm

theorem onLine_requestLine (q : RequestHead) :
    onLine (q.requestLine ++ "\r".toList) {} =
      (.next, { parseUrlParams { method := q.method, url := q.target } with
                httpVersion := q.version ++ "\r".toList, parsePart := .parseReqHead }) := by
  have hspace : ' ' ∉ q.method := by
    rcases q.method_ok with h | h <;> rw [h] <;> decide
  have hpieces : (q.requestLine ++ "\r".toList).splitOn ' '
      = [q.method, q.target, q.version ++ "\r".toList] := by
    have hline : q.requestLine ++ "\r".toList
        = q.method ++ ' ' :: (q.target ++ ' ' :: (q.version ++ "\r".toList)) := by
      simp [requestLine]
    have hversion : ' ' ∉ q.version ++ "\r".toList := by simp [q.version_ok.1]
    rw [hline, List.splitOn_append_cons_self_of_not_mem hspace,
      List.splitOn_append_cons_self_of_not_mem q.target_ok.1, List.splitOn_eq_singleton hversion]
  exact onLine_pieces (q.lines_ne _ List.mem_cons_self) hpieces q.method_ok

theorem parsed_text (q : RequestHead) : parsed q.text = (.readOver, q.fields) := by
  have hsplit := q.splitOn_text []
  rw [List.append_nil, List.splitOn_nil, lines, List.map_cons, List.cons_append] at hsplit
  have hheaders : ∀ l ∈ q.headers, l ++ "\r".toList ≠ "\r".toList := fun l hl =>
    q.lines_ne _ (List.mem_map_of_mem (List.mem_cons_of_mem _ hl))
  have hrun : onLines (q.text.splitOn '\n') {} = (none, q.fields) := by
    rw [hsplit, onLines, q.onLine_requestLine]
    simp only
    rw [onLines_headers hheaders rfl, onLines, onLine_blank]
    simp only
    rw [onLines, onLine_over rfl]
    simp only [onLines, parseUrlParams_headers]
    rfl
  rw [parsed, hrun]
  rfl

end RequestHead

end CppUtil.HttpServer

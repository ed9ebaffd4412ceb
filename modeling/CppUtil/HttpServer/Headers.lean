import CppUtil.HttpServer.Outcome
import CppUtil.HttpServer.Framing
import CppUtil.Lib.Assoc

/-!
# The request line and the headers

Lines are cut at LF alone, so the CR of the request line ends up in the version
and from there in the status line of the response (`httpVersion_with_cr`). Of a
header line the map takes what stands before a second colon
(`headers_value_iff`).
-/

namespace CppUtil.HttpServer

open Lang (Str StringStream isSpace)
open Util (trim)

-- ---------------------------------------------------------------------------
-- The version
-- ---------------------------------------------------------------------------

theorem ResponseFields.statusText_prefix (f : ResponseFields) (httpVersion : Str)
    (isKeepalive : Bool) : f.statusText httpVersion ++ crlf <+: f.text httpVersion isKeepalive := by
  simp only [text, statusText, List.append_assoc, List.prefix_append_right_inj]
  exact List.prefix_append _ _

theorem firstLine_cr (hline : '\n' ∉ line) (rest : Str) :
    firstLine (line ++ crlf ++ rest) = line ++ "\r".toList := by
  have hsplit : (line ++ crlf ++ rest).splitOn '\n'
      = (line ++ "\r".toList) :: rest.splitOn '\n' := by
    have htext : line ++ crlf ++ rest = (line ++ "\r".toList) ++ '\n' :: rest := by simp [crlf]
    rw [htext, List.splitOn_append_cons_self_of_not_mem (by simpa using hline)]
  exact (List.cons.inj ((StringStream.splitOn_head _ _).symm.trans hsplit)).1

theorem receive_requestLine (hmethod : method = get ∨ method = post)
    (hurl : ' ' ∉ url ∧ '\n' ∉ url) (hversion : ' ' ∉ version ∧ '\n' ∉ version)
    (hinput : chunks.flatten = method ++ ' ' :: (url ++ ' ' :: version) ++ crlf ++ rest)
    (h : (receive {} chunks).1 = .readOver) :
    (receive {} chunks).2.method = method ∧ (receive {} chunks).2.url = url ∧
      (receive {} chunks).2.httpVersion = version ++ "\r".toList := by
  have hword : ' ' ∉ method ∧ '\n' ∉ method := by
    rcases hmethod with rfl | rfl <;> decide
  have hstart : Gathering {} [] := .new
  obtain ⟨s, rest', hs, hend, hover, hfields⟩ := hstart.receive h
  have hfirst : firstLine s = method ++ ' ' :: (url ++ ' ' :: (version ++ "\r".toList)) := by
    have hline : '\n' ∉ method ++ ' ' :: (url ++ ' ' :: version) := by
      simp [hword.2, hurl.2, hversion.2]
    rw [← firstLine_append (hend.subset (by decide)) rest', ← hs, List.nil_append, hinput,
      firstLine_cr hline]
    simp
  have hpieces : (firstLine s).splitOn ' ' = [method, url, version ++ "\r".toList] := by
    rw [hfirst, List.splitOn_append_cons_self_of_not_mem hword.1,
      List.splitOn_append_cons_self_of_not_mem hurl.1,
      List.splitOn_eq_singleton (by simpa using hversion.1)]
  rcases parsed_ends hend with
    ⟨hblank, -⟩ | ⟨-, -, herror⟩ | ⟨-, -, method', url', version', more, hpieces', -, hparsed⟩
  · have hspace : ' ' ∈ "\r".toList := by
      rw [← hblank, hfirst]
      simp
    exact absurd hspace (by decide)
  · rw [herror] at hover
    cases hover
  · obtain ⟨rfl, rfl, rfl, -⟩ : method' = method ∧ url' = url ∧ version' = version ++ "\r".toList ∧
        more = [] := by simpa using hpieces'.symm.trans hpieces
    rw [hfields, hparsed]
    exact ⟨parseUrlParams_method _, parseUrlParams_url _, rfl⟩

/-- The version has the CR of the request line, and so has every status line. -/
theorem httpVersion_with_cr (hmethod : method = get ∨ method = post)
    (hurl : ' ' ∉ url ∧ '\n' ∉ url) (hversion : ' ' ∉ version ∧ '\n' ∉ version)
    (hinput : chunks.flatten = method ++ ' ' :: (url ++ ' ' :: version) ++ crlf ++ rest)
    (h : (receive {} chunks).1 = .readOver) :
    (receive {} chunks).2.method = method ∧ (receive {} chunks).2.url = url ∧
      (receive {} chunks).2.httpVersion = version ++ "\r".toList ∧
      ∀ (f : ResponseFields) (isKeepalive : Bool),
        f.statusText (version ++ "\r".toList) ++ crlf
            <+: f.text (receive {} chunks).2.httpVersion isKeepalive ∧
          ¬f.statusText version ++ crlf <+: f.text (receive {} chunks).2.httpVersion isKeepalive := by
  obtain ⟨hm, hu, hv⟩ := receive_requestLine hmethod hurl hversion hinput h
  refine ⟨hm, hu, hv, fun f isKeepalive => ?_⟩
  rw [hv]
  refine ⟨f.statusText_prefix _ isKeepalive, fun hstart => ?_⟩
  -- Behind the version there is a CR, where the status line of the protocol has a space.
  obtain ⟨more, hmore⟩ := f.statusText_prefix (version ++ "\r".toList) isKeepalive
  rw [← hmore] at hstart
  simp [ResponseFields.statusText, List.prefix_append_right_inj] at hstart

theorem httpVersion_with_cr_head :
    let chunks := ["GET /".toList, " HTTP/1.1\r\n\r\n".toList]
    (receive {} chunks).1 = .readOver ∧
      (receive {} chunks).2.httpVersion = "HTTP/1.1".toList ++ "\r".toList :=
  ⟨by decide, (@httpVersion_with_cr get "/".toList _ "\r\n".toList _ (.inl rfl) (by decide)
    RequestHead.http11_ok rfl (by decide)).2.2.1⟩

/-- The response to `GET / HTTP/1.1` begins with `HTTP/1.1 CR SP 200`. -/
theorem httpVersion_ne_token :
    let r := (receive {} ["GET / HTTP/1.1\r\n\r\n".toList]).2
    (receive {} ["GET / HTTP/1.1\r\n\r\n".toList]).1 = .readOver ∧
      r.httpVersion ≠ "HTTP/1.1".toList ∧
      "HTTP/1.1\r 200 OK\r\n".toList <+: ({} : ResponseFields).text r.httpVersion false ∧
      ¬"HTTP/1.1 200 OK\r\n".toList <+: ({} : ResponseFields).text r.httpVersion false := by
  decide

-- ---------------------------------------------------------------------------
-- Header lines
-- ---------------------------------------------------------------------------

/-- The part of a header's value that is kept. -/
def keptValue (value : Str) : Str := trim (value.takeWhile (· != ':'))

theorem keptValue_cr (value : Str) :
    trim ((value ++ "\r".toList).takeWhile (· != ':')) = keptValue value := by
  rw [keptValue, List.takeWhile_append]
  split
  · rename_i hall
    have hself := (List.takeWhile_sublist (p := (· != ':')) (l := value)).eq_of_length hall
    rw [hself]
    exact Util.trim_append_space value rfl
  · rfl

theorem keptValue_eq_iff : keptValue value = trim value ↔ ':' ∉ value := by
  constructor
  · intro heq hcolon
    have hmem : ':' ∈ keptValue value := heq ▸ (Util.mem_trim rfl).mpr hcolon
    have htake := List.mem_takeWhile_imp ((Util.mem_trim (c := ':') rfl).mp hmem)
    simp at htake
  · intro hcolon
    have hself : value.takeWhile (· != ':') = value := by
      refine List.takeWhile_eq_self_iff.mpr fun c hc => bne_iff_ne.mpr ?_
      rintro rfl
      exact hcolon hc
    rw [keptValue, hself]

def IsName (name : Str) : Prop := ∀ c ∈ name, c ≠ ':' ∧ isSpace c = false

instance (name : Str) : Decidable (IsName name) := List.decidableBAll _ _

theorem addHeader_line (hname : IsName name) (value : Str) (headers : Params) :
    addHeader (name ++ ':' :: value ++ "\r".toList) headers
      = headers.insert name (keptValue value) := by
  have hcolon : ':' ∉ name := fun hmem => (hname _ hmem).1 rfl
  have hline : name ++ ':' :: value ++ "\r".toList = name ++ ':' :: (value ++ "\r".toList) := by
    simp
  have hparts : Util.stringSplit (name ++ ':' :: value ++ "\r".toList) ':' []
      = name :: keptValue value :: ((value ++ "\r".toList).splitOn ':').tail.map trim := by
    rw [Util.stringSplit_eq, hline, List.splitOn_append_cons_self_of_not_mem hcolon,
      StringStream.splitOn_head (value ++ "\r".toList), List.map_cons, List.map_cons,
      Util.trim_eq_self fun c hc => (hname c hc).2, keptValue_cr]
    rfl
  rw [addHeader, hparts]

namespace RequestHead

variable {lines : List (Str × Str)} (hnames : ∀ p ∈ lines, IsName p.1)
include hnames

theorem headerMap_lines (q : RequestHead)
    (hlines : q.headers = lines.map fun p => p.1 ++ ':' :: p.2) :
    q.headerMap = Lib.inserts (lines.map fun p => (p.1, keptValue p.2)) ∅ := by
  rw [headerMap, hlines, List.foldl_map, Lib.inserts, List.foldl_map]
  refine List.foldl_ext _ _ _ fun headers p hp => ?_
  exact addHeader_line (hnames p hp) p.2 headers

omit hnames in
theorem receive_text (q : RequestHead) (hinput : chunks.flatten = q.text)
    (h : (receive {} chunks).1 = .readOver) :
    (receive {} chunks).2.toRequestFields = q.fields := by
  have hstart : Gathering {} [] := .new
  obtain ⟨s, rest, hs, hend, -, hfields⟩ := hstart.receive h
  rw [List.nil_append, hinput] at hs
  have hrest : rest = [] := by
    by_contra hne
    exact q.prefix_not_ends hs hne hend
  rw [hrest, List.append_nil] at hs
  rw [hfields, ← hs, q.parsed_text]

/-- The header map has the trimmed value of each name's last line exactly if
these values have no colon. -/
theorem headers_value_iff (q : RequestHead)
    (hlines : q.headers = lines.map fun p => p.1 ++ ':' :: p.2)
    (hinput : chunks.flatten = q.text) (h : (receive {} chunks).1 = .readOver) :
    (receive {} chunks).2.headers = Lib.inserts (lines.map fun p => (p.1, trim p.2)) ∅ ↔
      ∀ name value, lines.reverse.lookup name = some value → ':' ∉ value := by
  have hheaders : (receive {} chunks).2.headers
      = Lib.inserts (lines.map fun p => (p.1, keptValue p.2)) ∅ := by
    rw [q.receive_text hinput h, ← q.headerMap_lines hnames hlines]
    rfl
  rw [hheaders, Lib.inserts_map_eq_iff]
  simp only [keptValue_eq_iff]

omit hnames in
def ofHeaders (headers : List Str) (h : ∀ line ∈ headers, line ≠ [] ∧ '\n' ∉ line) :
    RequestHead :=
  getting "/".toList (by decide) headers h

end RequestHead

theorem headers_value_accept :
    let q := RequestHead.ofHeaders ["Accept: a:b".toList, "Accept:\ttext/html ".toList] (by decide)
    (receive {} [q.text]).2.headers = Lib.inserts
      [("Accept".toList, trim " a:b".toList), ("Accept".toList, trim "\ttext/html ".toList)] ∅ := by
  intro q
  refine (@RequestHead.headers_value_iff
    [("Accept".toList, " a:b".toList), ("Accept".toList, "\ttext/html ".toList)] (by decide) _ q
    rfl (List.append_nil _) (by decide)).mpr ?_
  intro name value hvalue
  rw [List.reverse_cons, List.reverse_singleton, List.singleton_append, List.lookup_cons,
    List.lookup_cons] at hvalue
  cases hname : name == "Accept".toList with
  | true =>
    rw [hname] at hvalue
    cases hvalue
    decide
  | false =>
    rw [hname] at hvalue
    cases hvalue

/-- The port of a host is lost. -/
theorem headers_value_host :
    let q := RequestHead.ofHeaders ["Host: localhost:8888".toList] (by decide)
    (receive {} [q.text]).1 = .readOver ∧
      (receive {} [q.text]).2.headers ≠
        Lib.inserts [("Host".toList, "localhost:8888".toList)] ∅ ∧
      (receive {} [q.text]).2.headers["Host".toList]? = some "localhost".toList := by
  intro q
  have hhost : (receive {} [q.text]).2.headers["Host".toList]? = some "localhost".toList := by
    decide
  refine ⟨by decide, fun heq => ?_, hhost⟩
  rw [heq] at hhost
  exact absurd hhost (by decide)

end CppUtil.HttpServer

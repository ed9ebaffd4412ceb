import CppUtil.HttpServer.Response
import CppUtil.Lib.Message
import Mathlib.Data.List.Nodup

/-!
# The frame of a response

The text of a response is a status line, header lines, an empty line and the
body. It is read as the protocol says: the head ends at the first empty line,
and the names of headers are compared without regard to case. A response is
well framed exactly if the message of its status line brings no empty line and
no two header lines have the same name (`wellFramed_iff`); only a default
`Content-Type` gives way to a header of the handler.
-/

namespace CppUtil.HttpServer

open Lang (Str stdToString)

-- ---------------------------------------------------------------------------
-- Reading a response
-- ---------------------------------------------------------------------------

def lower (s : Str) : Str := s.map Char.toLower

def field (name value : Str) : Str := name ++ ": ".toList ++ value

def fieldName (line : Str) : Str := line.takeWhile (· != ':')

def fieldValue (line : Str) : Str := (line.dropWhile (· != ':')).drop 2

def linesBehind (text : Str) : List Str := (Lib.pairLines '\r' '\n' text).tail

def valuesOf (name : Str) (lines : List Str) : List Str :=
  (lines.filter fun line => lower (fieldName line) = lower name).map fieldValue

def OneLine (s : Str) : Prop := '\r' ∉ s ∧ '\n' ∉ s

instance (s : Str) : Decidable (OneLine s) := instDecidableAnd

/-- The header lines say what they have to say about a response. -/
structure ResponseFields.Describes (f : ResponseFields) (isKeepalive : Bool) (lines : List Str) :
    Prop where
  once : (lines.map fun line => lower (fieldName line)).Nodup
  supplied : ∀ name value, f.headers[name]? = some value → field name value ∈ lines
  length : valuesOf "Content-Length".toList lines = [stdToString f.body.length]
  connection : valuesOf "Connection".toList lines
    = [if isKeepalive then "Keep-Alive".toList else "close".toList]

/-- Behind the first empty line there is the body, and the header lines before
it describe the response. -/
def ResponseFields.WellFramed (f : ResponseFields) (isKeepalive : Bool) (text : Str) : Prop :=
  ∃ head, Lib.cutBlank '\r' '\n' text = some (head, f.body) ∧
    f.Describes isKeepalive (linesBehind head)

theorem field_cut (h : ':' ∉ name) (value : Str) :
    (field name value).takeWhile (· != ':') = name ∧
      (field name value).dropWhile (· != ':') = ':' :: ' ' :: value := by
  have hname : ∀ c ∈ name, (c != ':') = true := fun c hc => bne_iff_ne.mpr fun heq => h (heq ▸ hc)
  have hline : field name value = name ++ ':' :: ' ' :: value := by simp [field]
  rw [hline, List.takeWhile_append_of_pos hname, List.dropWhile_append_of_pos hname]
  simp

theorem fieldName_field (h : ':' ∉ name) (value : Str) : fieldName (field name value) = name :=
  (field_cut h value).1

theorem fieldValue_field (h : ':' ∉ name) (value : Str) :
    fieldValue (field name value) = value := by
  rw [fieldValue, (field_cut h value).2]
  rfl

theorem valuesOf_of_nodup (h : (lines.map fun line => lower (fieldName line)).Nodup)
    (hline : line ∈ lines) (hname : lower (fieldName line) = lower name) :
    valuesOf name lines = [fieldValue line] := by
  obtain ⟨before, behind, rfl⟩ := List.append_of_mem hline
  simp only [List.map_append, List.map_cons, List.nodup_append, List.nodup_cons, List.mem_cons,
    List.mem_map, forall_exists_index, and_imp] at h
  obtain ⟨-, ⟨hbehind, -⟩, hbefore⟩ := h
  have hother : ∀ l, l ∈ before ∨ l ∈ behind → ¬lower (fieldName l) = lower name := by
    rintro l (hl | hl) heq
    · exact hbefore _ l hl rfl _ (.inl rfl) (heq.trans hname.symm)
    · exact hbehind ⟨l, hl, heq.trans hname.symm⟩
  have hnone : ∀ ls : List Str, (∀ l ∈ ls, ¬lower (fieldName l) = lower name) →
      ls.filter (fun l => lower (fieldName l) = lower name) = [] := by
    intro ls hls
    simpa using hls
  rw [valuesOf, List.filter_append, List.filter_cons_of_pos (by simpa using hname),
    hnone before fun l hl => hother l (.inl hl), hnone behind fun l hl => hother l (.inr hl)]
  rfl

-- ---------------------------------------------------------------------------
-- The lines of a response
-- ---------------------------------------------------------------------------

theorem stdToString_free (n : Int) (h : c ∈ stdToString n) : c ≠ '\r' ∧ c ≠ '\n' := by
  have hdigit : ∀ c ∈ Nat.toDigits 10 n.natAbs, c ≠ '\r' ∧ c ≠ '\n' := by
    intro c hc
    have hd := Nat.isDigit_of_mem_toDigits (by decide) (by decide) hc
    constructor <;> rintro rfl <;> exact absurd hd (by decide)
  rw [stdToString] at h
  split at h
  · rcases List.mem_cons.mp h with rfl | hc
    · decide
    · exact hdigit c hc
  · exact hdigit c h

namespace ResponseFields

variable (f : ResponseFields) (isKeepalive : Bool)

def statusText (httpVersion : Str) : Str :=
  httpVersion ++ " ".toList ++ stdToString f.statusLine.stautsCode ++ " ".toList ++ f.statusLine.msg

def headFields : List (Str × Str) :=
  ("Server".toList, "http_server/0.1".toList) ::
    (if f.headers.contains "Content-Type".toList then []
      else [("Content-Type".toList, "application/json; charset=UTF-8".toList)]) ++
    [("Content-Length".toList, stdToString f.body.length),
      if isKeepalive then ("COnnection".toList, "Keep-Alive".toList)
      else ("Connection".toList, "close".toList)] ++
    f.headers.toList

def headLines : List Str := (f.headFields isKeepalive).map fun p => field p.1 p.2

def headText (httpVersion : Str) : Str :=
  crlf.intercalate (f.statusText httpVersion :: f.headLines isKeepalive)

theorem text_eq (httpVersion : Str) :
    f.text httpVersion isKeepalive
      = f.headText isKeepalive httpVersion ++ '\r' :: '\n' :: '\r' :: '\n' :: f.body := by
  have hlines : f.text httpVersion isKeepalive
      = ((f.statusText httpVersion :: f.headLines isKeepalive).map (· ++ crlf)).flatten
        ++ crlf ++ f.body := by
    -- The literals of the source, cut into name and value.
    have hserver : "Server: http_server/0.1".toList
        = "Server".toList ++ (": ".toList ++ "http_server/0.1".toList) := by simp
    have htype : "Content-Type: application/json; charset=UTF-8".toList
        = "Content-Type".toList ++ (": ".toList ++ "application/json; charset=UTF-8".toList) := by
      simp
    have hlength : "Content-Length: ".toList = "Content-Length".toList ++ ": ".toList := by simp
    have hkeep : "COnnection: Keep-Alive".toList
        = "COnnection".toList ++ (": ".toList ++ "Keep-Alive".toList) := by simp
    have hclose : "Connection: close".toList
        = "Connection".toList ++ (": ".toList ++ "close".toList) := by simp
    simp only [text, statusText, headLines, headFields, hserver, htype, hlength, hkeep, hclose]
    cases isKeepalive <;> cases f.headers.contains "Content-Type".toList <;>
      simp only [field, Bool.false_eq_true, if_true, if_false, List.map_cons, List.map_map,
        Function.comp_def, List.flatten_cons, List.cons_append, List.nil_append, List.append_assoc]
  have hend : crlf = ['\r', '\n'] := rfl
  rw [hlines, Lib.flatten_lines, headText, hend]
  simp only [List.append_assoc, List.cons_append, List.nil_append]

/-- The headers of the handler are lines. -/
def HeadersOk : Prop :=
  ∀ name value, f.headers[name]? = some value → ':' ∉ name ∧ OneLine name ∧ OneLine value

variable {f isKeepalive} (hheaders : f.HeadersOk)
include hheaders

theorem headFields_ok : ∀ p ∈ f.headFields isKeepalive, ':' ∉ p.1 ∧ '\r' ∉ field p.1 p.2 := by
  have hown : ∀ p ∈ f.headers.toList, ':' ∉ p.1 ∧ '\r' ∉ field p.1 p.2 := by
    intro p hp
    obtain ⟨hcolon, hname, hvalue⟩ :=
      hheaders p.1 p.2 (Std.ExtTreeMap.mem_toList_iff_getElem?_eq_some.mp hp)
    exact ⟨hcolon, by simp [field, hname.1, hvalue.1]⟩
  have hlength : '\r' ∉ field "Content-Length".toList (stdToString f.body.length) := by
    have hdigits : '\r' ∉ stdToString f.body.length := fun hmem => (stdToString_free _ hmem).1 rfl
    simp [field, hdigits]
  intro p hp
  simp only [headFields, List.cons_append, List.mem_cons, List.mem_append, List.not_mem_nil,
    or_false] at hp
  rcases hp with rfl | (htype | rfl | hconnection) | huser
  · decide
  · split at htype
    · exact absurd htype List.not_mem_nil
    · rw [List.mem_singleton.mp htype]
      decide
  · exact ⟨(by decide : ':' ∉ "Content-Length".toList), hlength⟩
  · subst hconnection
    cases isKeepalive <;> decide
  · exact hown p huser

theorem linesBehind_headText (hversion : OneLine httpVersion) :
    linesBehind (f.headText isKeepalive httpVersion)
      = linesBehind f.statusLine.msg ++ f.headLines isKeepalive := by
  have hfree : ∀ line ∈ f.headLines isKeepalive, '\r' ∉ line := by
    intro line hline
    obtain ⟨p, hp, rfl⟩ := List.mem_map.mp hline
    exact (headFields_ok hheaders p hp).2
  have hstart : '\r' ∉ httpVersion ++ " ".toList ++ stdToString f.statusLine.stautsCode
      ++ " ".toList := by
    have hcode : '\r' ∉ stdToString f.statusLine.stautsCode := fun hmem =>
      (stdToString_free _ hmem).1 rfl
    simp [hversion.1, hcode]
  have hstatus : Lib.pairLines '\r' '\n' (f.statusText httpVersion)
      = (Lib.pairLines '\r' '\n' f.statusLine.msg).modifyHead (_ ++ ·) :=
    Lib.pairLines_prepend hstart f.statusLine.msg
  have hcrlf : crlf = ['\r', '\n'] := rfl
  obtain ⟨first, more, hmsg⟩ := Lib.pairLines_eq_cons '\r' '\n' f.statusLine.msg
  rw [linesBehind, headText, hcrlf, Lib.pairLines_intercalate (by decide) hfree, hstatus,
    linesBehind, hmsg]
  rfl

theorem headLines_names :
    (f.headLines isKeepalive).map (fun line => lower (fieldName line))
      = (f.headFields isKeepalive).map fun p => lower p.1 := by
  rw [headLines, List.map_map]
  refine List.map_congr_left fun p hp => ?_
  exact congrArg lower (fieldName_field (headFields_ok hheaders p hp).1 p.2)

theorem describes_of_nodup {lines : List Str}
    (h : ((lines ++ f.headLines isKeepalive).map fun line => lower (fieldName line)).Nodup) :
    f.Describes isKeepalive (lines ++ f.headLines isKeepalive) := by
  have hline : ∀ name value, (name, value) ∈ f.headFields isKeepalive →
      field name value ∈ lines ++ f.headLines isKeepalive := fun name value hmem =>
    List.mem_append_right _ (List.mem_map_of_mem (f := fun p => field p.1 p.2) hmem)
  have hvalues : ∀ name value, (name, value) ∈ f.headFields isKeepalive →
      ∀ asked, lower name = lower asked →
        valuesOf asked (lines ++ f.headLines isKeepalive) = [value] := by
    intro name value hmem asked hasked
    have hcolon : ':' ∉ name := (headFields_ok hheaders _ hmem).1
    have hname : lower (fieldName (field name value)) = lower asked := by
      rw [fieldName_field hcolon, hasked]
    rw [valuesOf_of_nodup h (hline name value hmem) hname, fieldValue_field hcolon]
  have hown : ∀ p ∈ [("Content-Length".toList, stdToString f.body.length),
      if isKeepalive then ("COnnection".toList, "Keep-Alive".toList)
      else ("Connection".toList, "close".toList)], p ∈ f.headFields isKeepalive := fun p hp =>
    List.mem_append_left _ (List.mem_append_right _ hp)
  refine ⟨h, fun name value hvalue => hline name value ?_, ?_, ?_⟩
  · exact List.mem_append_right _ (Std.ExtTreeMap.mem_toList_iff_getElem?_eq_some.mpr hvalue)
  · exact hvalues "Content-Length".toList _ (hown _ List.mem_cons_self) _ rfl
  · have hconnection := hown _ (List.mem_cons_of_mem _ List.mem_cons_self)
    cases isKeepalive with
    | true => exact hvalues "COnnection".toList _ hconnection _ (by decide)
    | false => exact hvalues "Connection".toList _ hconnection _ rfl

theorem wellFramed_iff_lines (hversion : OneLine httpVersion) :
    f.WellFramed isKeepalive (f.text httpVersion isKeepalive) ↔
      [] ∉ linesBehind f.statusLine.msg ∧
        ((linesBehind f.statusLine.msg).map (fun line => lower (fieldName line)) ++
          (f.headFields isKeepalive).map fun p => lower p.1).Nodup := by
  have hcut : ∀ head, Lib.cutBlank '\r' '\n' (f.text httpVersion isKeepalive)
      = some (head, f.body) ↔
        head = f.headText isKeepalive httpVersion ∧ [] ∉ linesBehind f.statusLine.msg := by
    intro head
    have hlines : [] ∉ f.headLines isKeepalive := by
      simp [headLines, field]
    have hbehind := @linesBehind_headText f isKeepalive hheaders httpVersion hversion
    rw [linesBehind] at hbehind
    rw [text_eq, Lib.cutBlank_iff (by decide), hbehind, List.mem_append]
    simp [hlines]
  rw [← headLines_names hheaders, ← List.map_append]
  constructor
  · rintro ⟨head, hhead, hdescribes⟩
    obtain ⟨rfl, hblank⟩ := (hcut head).mp hhead
    rw [linesBehind_headText hheaders hversion] at hdescribes
    exact ⟨hblank, hdescribes.once⟩
  · rintro ⟨hblank, hnodup⟩
    refine ⟨_, (hcut _).mpr ⟨rfl, hblank⟩, ?_⟩
    rw [linesBehind_headText hheaders hversion]
    exact describes_of_nodup hheaders hnodup

omit hheaders in
theorem headFields_names :
    ((f.headFields isKeepalive).map fun p => lower p.1).Perm
      (["server".toList, "content-length".toList, "connection".toList] ++
        ((if f.headers.contains "Content-Type".toList then [] else ["content-type".toList]) ++
          f.headers.keys.map lower)) := by
  have hkeys : f.headers.toList.map (fun p => lower p.1) = f.headers.keys.map lower := by
    rw [← Std.ExtTreeMap.map_fst_toList_eq_keys, List.map_map]
    rfl
  have hserver : lower "Server".toList = "server".toList := by decide
  have htype : lower "Content-Type".toList = "content-type".toList := by decide
  have hlength : lower "Content-Length".toList = "content-length".toList := by decide
  have hconnection : lower (if isKeepalive then ("COnnection".toList, "Keep-Alive".toList)
      else ("Connection".toList, "close".toList)).1 = "connection".toList := by
    cases isKeepalive <;> decide
  simp only [headFields, List.map_append, List.map_cons, List.map_nil, hserver, hlength,
    hconnection, hkeys]
  cases f.headers.contains "Content-Type".toList with
  | true => exact List.Perm.refl _
  | false =>
    simp only [Bool.false_eq_true, if_false, List.map_cons, List.map_nil, htype, List.cons_append,
      List.nil_append]
    exact .cons _ (.trans (.swap _ _ _) (.cons _ (.swap _ _ _)))

omit hheaders in
theorem mem_defaultType : a ∈ (if f.headers.contains "Content-Type".toList then []
    else ["content-type".toList]) ↔
      a = "content-type".toList ∧ "Content-Type".toList ∉ f.headers := by
  rw [Std.ExtTreeMap.mem_iff_contains]
  cases f.headers.contains "Content-Type".toList with
  | true => simp only [if_true, List.not_mem_nil, not_true_eq_false, and_false]
  | false =>
    simp only [Bool.false_eq_true, if_false, List.mem_singleton, not_false_eq_true, and_true]

omit hheaders in
/-- Of the names of the handler's headers no two are the same, none is that of
a line the server writes in any case, and `Content-Type` has this spelling. -/
theorem headFields_nodup_iff :
    ((f.headFields isKeepalive).map fun p => lower p.1).Nodup ↔
      (f.headers.keys.map lower).Nodup ∧ ∀ name ∈ f.headers,
        lower name ∉ ["server".toList, "content-length".toList, "connection".toList] ∧
          (lower name = "content-type".toList → name = "Content-Type".toList) := by
  have hkey : ∀ name, name ∈ f.headers ↔ name ∈ f.headers.keys := fun _ =>
    Std.ExtTreeMap.mem_keys.symm
  rw [headFields_names.nodup_iff, List.nodup_append, List.nodup_append]
  constructor
  · rintro ⟨-, ⟨-, hnodup, hdefault⟩, hown⟩
    refine ⟨hnodup, fun name hname => ⟨fun hmem => ?_, fun heq => ?_⟩⟩
    · exact hown _ hmem _ (List.mem_append_right _ (List.mem_map_of_mem ((hkey name).mp hname))) rfl
    · have htype : "Content-Type".toList ∈ f.headers := by
        by_contra hno
        exact hdefault _ (mem_defaultType.mpr ⟨rfl, hno⟩) _
          (List.mem_map_of_mem ((hkey name).mp hname)) heq.symm
      exact List.inj_on_of_nodup_map hnodup ((hkey name).mp hname) ((hkey _).mp htype)
        (heq.trans (by decide))
  · rintro ⟨hnodup, hnames⟩
    refine ⟨by decide, ⟨by split <;> simp, hnodup, ?_⟩, ?_⟩
    · intro a ha b hb hab
      obtain ⟨name, hname, rfl⟩ := List.mem_map.mp hb
      obtain ⟨rfl, hmissing⟩ := mem_defaultType.mp ha
      have hmem := (hkey name).mpr hname
      exact hmissing ((hnames name hmem).2 hab.symm ▸ hmem)
    · intro a ha b hb hab
      rcases List.mem_append.mp hb with hb | hb
      · rw [hab, (mem_defaultType.mp hb).1] at ha
        exact absurd ha (by decide)
      · obtain ⟨name, hname, rfl⟩ := List.mem_map.mp hb
        exact (hnames name ((hkey name).mpr hname)).1 (hab ▸ ha)

/-- A response is well framed exactly if the message of its status line brings
no empty line, and no two header lines, those of the message included, have
the same name. With a message of one line this is up to the names of the
handler's headers. -/
theorem wellFramed_iff (hversion : OneLine httpVersion) :
    (f.WellFramed isKeepalive (f.text httpVersion isKeepalive) ↔
      [] ∉ linesBehind f.statusLine.msg ∧
        ((linesBehind f.statusLine.msg).map (fun line => lower (fieldName line)) ++
          (f.headFields isKeepalive).map fun p => lower p.1).Nodup) ∧
    (OneLine f.statusLine.msg →
      (f.WellFramed isKeepalive (f.text httpVersion isKeepalive) ↔
        (f.headers.keys.map lower).Nodup ∧ ∀ name ∈ f.headers,
          lower name ∉ ["server".toList, "content-length".toList, "connection".toList] ∧
            (lower name = "content-type".toList → name = "Content-Type".toList))) := by
  have hlines := @wellFramed_iff_lines f isKeepalive hheaders httpVersion hversion
  refine ⟨hlines, fun hmsg => ?_⟩
  have hnone : linesBehind f.statusLine.msg = [] := by
    rw [linesBehind, Lib.pairLines_of_notMem hmsg.1, List.tail_cons]
  rw [hlines, hnone, List.map_nil, List.nil_append, headFields_nodup_iff]
  exact and_iff_right List.not_mem_nil

omit hheaders in
def withHeader (name value body : Str) : ResponseFields :=
  { headers := (∅ : Params).insert name value, body }

omit hheaders in
theorem withHeader_iff {name value body : Str} {p : Str → Str → Prop} :
    (∀ name' value', (withHeader name value body).headers[name']? = some value' → p name' value') ↔
      p name value := by
  constructor
  · intro h
    exact h name value (by simp [withHeader])
  · intro h name' value' hvalue
    simp only [withHeader, Std.ExtTreeMap.getElem?_insert, Std.LawfulEqCmp.compare_eq_iff_eq,
      Std.ExtTreeMap.getElem?_empty] at hvalue
    split at hvalue
    · rename_i heq
      obtain ⟨rfl, rfl⟩ := And.intro heq (Option.some.inj hvalue)
      exact h
    · cases hvalue

end ResponseFields

theorem wellFramed_html :
    let f := ResponseFields.withHeader "Content-Type".toList "text/html".toList "a\r\n\r\nb".toList
    f.WellFramed true (f.text "HTTP/1.1".toList true) := by
  intro f
  have hheaders : f.HeadersOk := ResponseFields.withHeader_iff.mpr (by decide)
  refine (((ResponseFields.wellFramed_iff hheaders (by decide)).2 (by decide)).mpr ⟨by decide, ?_⟩)
  intro name hname
  have heq : "Content-Type".toList = name := by
    simpa only [f, ResponseFields.withHeader, Std.ExtTreeMap.mem_insert,
      Std.LawfulEqCmp.compare_eq_iff_eq, Std.ExtTreeMap.not_mem_empty, or_false] using hname
  subst heq
  decide

/-- A header of the handler gives a second length or a second answer on the
connection. -/
theorem wellFramed_fails_second_length :
    let f := ResponseFields.withHeader "Content-Length".toList "0".toList "hi".toList
    let g := ResponseFields.withHeader "Connection".toList "Keep-Alive".toList "hi".toList
    (¬f.WellFramed false (f.text "HTTP/1.1".toList false) ∧
      valuesOf "Content-Length".toList (linesBehind (f.headText false "HTTP/1.1".toList))
        = ["2".toList, "0".toList]) ∧
    (¬g.WellFramed false (g.text "HTTP/1.1".toList false) ∧
      valuesOf "Connection".toList (linesBehind (g.headText false "HTTP/1.1".toList))
        = ["close".toList, "Keep-Alive".toList]) := by
  intro f g
  have hf : f.HeadersOk := ResponseFields.withHeader_iff.mpr (by decide)
  have hg : g.HeadersOk := ResponseFields.withHeader_iff.mpr (by decide)
  refine ⟨⟨fun h => ?_, by decide⟩, fun h => ?_, by decide⟩
  · exact absurd ((ResponseFields.wellFramed_iff_lines hf (by decide)).mp h).2 (by decide)
  · exact absurd ((ResponseFields.wellFramed_iff_lines hg (by decide)).mp h).2 (by decide)

end CppUtil.HttpServer

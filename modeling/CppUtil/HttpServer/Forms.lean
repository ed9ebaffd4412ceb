import CppUtil.HttpServer.Reading
import CppUtil.Lib.Assoc
import CppUtil.Lib.Pieces

/-!
# Parameters of a request

The loops that decode a query or a form put the pairs of `formPairs` into a
map, one after another (`parseForm_eq`). A text made of pairs is decoded to
these pairs (`parseUrlParams_encoded`). An empty piece, a second '=' in a piece
and a second '?' give other keys than the pieces of the query have
(`urlParams_keys_iff`), and a repeated key has its last value in a query and
its first in a body (`query_eq_body_iff`).
-/

namespace CppUtil.HttpServer

open Lang (Str StringStream)

-- ---------------------------------------------------------------------------
-- The pairs of a form
-- ---------------------------------------------------------------------------

/-- Keys and values take turns; a key at the end has an empty value. -/
def pairUp : List Str → List (Str × Str)
  | [] => []
  | [key] => [(key, [])]
  | key :: value :: more => (key, value) :: pairUp more

def formPairs (text : Str) : List (Str × Str) :=
  (text.splitOn '&').flatMap fun kv => pairUp (kv.splitOn '=')

section
variable {put : Params → Str → Str → Params} {ss : StringStream} {fuel : Nat}

def putAll (put : Params → Str → Str → Params) (pairs : List (Str × Str)) (params : Params) :
    Params :=
  pairs.foldl (fun params p => put params p.1 p.2) params

theorem kvLoop_stopped (h : ss.good = false) (params : Params) :
    kvLoop put fuel ss params = params := by
  cases fuel with
  | zero => rfl
  | succ fuel => simp [kvLoop, h]

theorem kvLoop_eq (h : ss.good = true) (hfuel : (ss.rest.splitOn '=').length ≤ fuel)
    (params : Params) :
    kvLoop put fuel ss params = putAll put (pairUp (ss.rest.splitOn '=')) params := by
  induction fuel generalizing ss params with
  | zero => exact absurd hfuel (by simp)
  | succ fuel ih =>
    obtain ⟨key, more, hpieces⟩ := List.exists_cons_of_ne_nil (List.splitOn_ne_nil '=' ss.rest)
    obtain ⟨ss₁, hkey, hgood₁, hrest₁⟩ := StringStream.getline_pieces h '=' [] hpieces
    simp only [kvLoop, h, if_true, hkey]
    cases more with
    | nil =>
      -- The text ends with the key: the second `getline` finds a stream that is not good.
      have hstop : ss₁.good = false := by simpa using hgood₁
      have hvalue : ss₁.getline '=' [] = ([], { ss₁ with fail := true }) := by
        simp [StringStream.getline, hstop]
      rw [hpieces, hvalue]
      exact kvLoop_stopped (by simp [StringStream.good]) _
    | cons value more =>
      obtain ⟨ss₂, hvalue, hgood₂, hrest₂⟩ :=
        StringStream.getline_pieces (hgood₁.mpr (by simp)) '=' [] (hrest₁ (by simp))
      rw [hpieces, hvalue]
      cases more with
      | nil => exact kvLoop_stopped (by simpa using hgood₂) _
      | cons next more =>
        have hnext := hrest₂ (by simp)
        rw [hpieces] at hfuel
        simp only
        rw [ih (hgood₂.mpr (by simp)) (by rw [hnext]; simp at hfuel ⊢; omega), hnext]
        rfl

theorem splitOn_length_le (text : Str) (d : Char) : (text.splitOn d).length ≤ text.length + 1 := by
  rw [StringStream.splitOn_length]
  exact Nat.succ_le_succ List.count_le_length

theorem formLoop_eq (h : ss.good = true) (hfuel : (ss.rest.splitOn '&').length ≤ fuel)
    (params : Params) :
    formLoop put fuel ss params = putAll put (formPairs ss.rest) params := by
  induction fuel generalizing ss params with
  | zero => exact absurd hfuel (by simp)
  | succ fuel ih =>
    obtain ⟨kv, more, hpieces⟩ := List.exists_cons_of_ne_nil (List.splitOn_ne_nil '&' ss.rest)
    obtain ⟨next, hkv, hgood, hrest⟩ := StringStream.getline_pieces h '&' [] hpieces
    have hpairs : putAll put (formPairs ss.rest) params
        = putAll put (more.flatMap fun kv => pairUp (kv.splitOn '='))
            (putAll put (pairUp (kv.splitOn '=')) params) := by
      rw [formPairs, hpieces, List.flatMap_cons]
      exact List.foldl_append
    simp only [formLoop, h, if_true, hkv]
    rw [kvLoop_eq (StringStream.ofString_good kv) (splitOn_length_le kv '='), hpairs]
    cases more with
    | nil =>
      have hstop : next.good = false := by simpa using hgood
      cases fuel <;> simp [formLoop, hstop] <;> rfl
    | cons kv' more =>
      have hnext := hrest (by simp)
      rw [hpieces] at hfuel
      rw [ih (hgood.mpr (by simp)) (by rw [hnext]; simpa using hfuel), formPairs, hnext]
      rfl

theorem parseForm_eq (text : Str) (params : Params) :
    parseForm put text params = putAll put (formPairs text) params :=
  formLoop_eq (StringStream.ofString_good text) (splitOn_length_le text '&') params

end

@[simp] theorem putAll_insert (pairs : List (Str × Str)) (params : Params) :
    putAll Std.ExtTreeMap.insert pairs params = Lib.inserts pairs params := rfl

@[simp] theorem putAll_insertIfNew (pairs : List (Str × Str)) (params : Params) :
    putAll Std.ExtTreeMap.insertIfNew pairs params = Lib.insertsIfNew pairs params := rfl

/-- The text of the query that is decoded: that before a second '?'. -/
def queryText (query : Str) : Str := query.takeWhile (· != '?')

theorem queryText_free (h : '?' ∉ query) : queryText query = query := by
  refine List.takeWhile_eq_self_iff.mpr fun c hc => ?_
  exact bne_iff_ne.mpr fun heq => h (heq ▸ hc)

theorem parseUrlParams_query {r : RequestFields} (hurl : r.url = path ++ '?' :: query)
    (hpath : '?' ∉ path) (hparams : r.urlParams = ∅) :
    (parseUrlParams r).uri = path ∧
      (parseUrlParams r).urlParams = Lib.inserts (formPairs (queryText query)) ∅ := by
  have hpieces : r.url.splitOn '?' = path :: queryText query :: (query.splitOn '?').tail := by
    rw [hurl, List.splitOn_append_cons_self_of_not_mem hpath, StringStream.splitOn_head query]
    rfl
  obtain ⟨huri, hpairs⟩ := parseUrlParams_pieces hpieces
  refine ⟨huri, hpairs.trans ?_⟩
  rw [hparams, queryParams, parseForm_eq, putAll_insert]

-- ---------------------------------------------------------------------------
-- Encoded pairs
-- ---------------------------------------------------------------------------

def encodePairs (pairs : List (Str × Str)) : Str :=
  ['&'].intercalate (pairs.map fun p => p.1 ++ '=' :: p.2)

def Plain (s : Str) : Prop := ∀ c ∈ s, c ∉ ['?', '&', '=', ' ', '\r', '\n']

instance (s : Str) : Decidable (Plain s) := List.decidableBAll _ _

theorem Plain.free (h : Plain s) (hc : c ∈ ['?', '&', '=', ' ', '\r', '\n']) : c ∉ s :=
  fun hmem => h c hmem hc

section
variable {pairs : List (Str × Str)} (hplain : ∀ p ∈ pairs, Plain p.1 ∧ Plain p.2)
include hplain

theorem formPairs_encodePairs (hne : pairs ≠ []) : formPairs (encodePairs pairs) = pairs := by
  have hpieces : ∀ piece ∈ pairs.map fun p => p.1 ++ '=' :: p.2, '&' ∉ piece := by
    intro piece hpiece
    obtain ⟨p, hp, rfl⟩ := List.mem_map.mp hpiece
    simp [(hplain p hp).1.free (c := '&'), (hplain p hp).2.free (c := '&')]
  have hpair : ∀ p ∈ pairs, pairUp ((p.1 ++ '=' :: p.2).splitOn '=') = [p] := by
    intro p hp
    have hkey : '=' ∉ p.1 := (hplain p hp).1.free (by simp)
    have hvalue : '=' ∉ p.2 := (hplain p hp).2.free (by simp)
    rw [List.splitOn_append_cons_self_of_not_mem hkey, List.splitOn_eq_singleton hvalue]
    rfl
  rw [formPairs, encodePairs, List.splitOn_intercalate '&' hpieces (by simpa using hne),
    List.flatMap_map, List.flatMap_congr hpair, List.flatMap_singleton']

theorem encodePairs_free (hc : c ∈ ['?', ' ', '\r', '\n']) : c ∉ encodePairs pairs := by
  have hplainc : c ∈ ['?', '&', '=', ' ', '\r', '\n'] := by
    simp only [List.mem_cons, List.not_mem_nil, or_false] at hc ⊢
    tauto
  have hsep : c ≠ '&' ∧ c ≠ '=' := by
    constructor <;> rintro rfl <;> exact absurd hc (by decide)
  induction pairs with
  | nil => simp [encodePairs]
  | cons p pairs ih =>
    obtain ⟨⟨hkey, hvalue⟩, hrest⟩ := List.forall_mem_cons.mp hplain
    have hfirst : c ∉ p.1 ++ '=' :: p.2 := by
      simp [hkey.free hplainc, hvalue.free hplainc, hsep.2]
    cases pairs with
    | nil => simpa [encodePairs] using hfirst
    | cons q pairs =>
      have hmore := ih hrest
      simp only [encodePairs, List.map_cons, List.intercalate_cons_cons, List.mem_append,
        not_or] at hmore ⊢
      exact ⟨⟨not_or.mp (by simpa using hfirst), by simpa using hsep.1⟩, hmore⟩

/-- A url made of a path and pairs is decoded to them, alone and in a request
line. A repeated key has its last value. -/
theorem url_of_pairs_decoded (hne : pairs ≠ []) (hpath : Plain path) :
    let url := path ++ '?' :: encodePairs pairs
    (∀ r : RequestFields, r.url = url → r.urlParams = ∅ →
      (parseUrlParams r).uri = path ∧ (parseUrlParams r).urlParams = Lib.inserts pairs ∅) ∧
    (∀ method version, ' ' ∉ method → ∃ r,
      parseRequestLine (method ++ ' ' :: (url ++ ' ' :: version)) {} = (true, r) ∧
        r.url = url ∧ r.uri = path ∧ r.urlParams = Lib.inserts pairs ∅) := by
  intro url
  have hdecoded : ∀ r : RequestFields, r.url = url → r.urlParams = ∅ →
      (parseUrlParams r).uri = path ∧ (parseUrlParams r).urlParams = Lib.inserts pairs ∅ := by
    intro r hurl hparams
    have hquery := parseUrlParams_query hurl (hpath.free (by simp)) hparams
    rwa [queryText_free (encodePairs_free hplain (by simp)), formPairs_encodePairs hplain hne]
      at hquery
  refine ⟨hdecoded, fun method version hmethod => ?_⟩
  have hspace : ' ' ∉ url := by
    simp [url, hpath.free (c := ' '), encodePairs_free hplain (c := ' ')]
  have hpieces : (method ++ ' ' :: (url ++ ' ' :: version)).splitOn ' '
      = method :: url :: version.takeWhile (· != ' ') :: (version.splitOn ' ').tail := by
    rw [List.splitOn_append_cons_self_of_not_mem hmethod,
      List.splitOn_append_cons_self_of_not_mem hspace, ← StringStream.splitOn_head]
  obtain ⟨huri, hparams⟩ := hdecoded { method, url } rfl rfl
  exact ⟨_, parseRequestLine_pieces hpieces, parseUrlParams_url _, huri, hparams⟩

end

theorem url_of_pairs_decoded_example :
    let pairs := [("a".toList, "1".toList), ([], []), ("a".toList, "2".toList)]
    (parseUrlParams { url := "/go?a=1&=&a=2".toList }).urlParams = Lib.inserts pairs ∅ :=
  ((@url_of_pairs_decoded [("a".toList, "1".toList), ([], []), ("a".toList, "2".toList)]
    (by decide) "/go".toList (by decide) (by decide)).1 _ rfl rfl).2

-- ---------------------------------------------------------------------------
-- Keys
-- ---------------------------------------------------------------------------

/-- Of every piece that is not empty, the text before the first '='. -/
def pieceKeys (text : Str) : List Str :=
  (Lib.pieces '&' text).map fun kv => kv.takeWhile (· != '=')

/-- The keys that pieces give besides: an empty piece the empty key, and a piece
with more than one '=' every second of the texts behind the first '='. -/
def strayKeys (text : Str) : List Str :=
  (text.splitOn '&').flatMap fun kv =>
    if kv = [] then [[]] else (pairUp (kv.splitOn '=')).tail.map Prod.fst

theorem pairUp_keys (h : pieces = key :: more) :
    (pairUp pieces).map Prod.fst = key :: (pairUp pieces).tail.map Prod.fst := by
  subst h
  cases more <;> rfl

theorem mem_formPairs_keys {text : Str} :
    key ∈ (formPairs text).map Prod.fst ↔ key ∈ pieceKeys text ∨ key ∈ strayKeys text := by
  have hpiece : ∀ kv : Str, key ∈ (pairUp (kv.splitOn '=')).map Prod.fst ↔
      (kv ≠ [] ∧ key = kv.takeWhile (· != '=')) ∨
        key ∈ if kv = [] then [[]] else (pairUp (kv.splitOn '=')).tail.map Prod.fst := by
    intro kv
    rw [pairUp_keys (StringStream.splitOn_head kv '='), List.mem_cons]
    cases kv with
    | nil => simp [pairUp]
    | cons c kv => simp
  simp only [formPairs, pieceKeys, strayKeys, Lib.pieces, List.map_flatMap, List.mem_flatMap,
    List.mem_map, List.mem_filter, hpiece, decide_eq_true_eq]
  constructor
  · rintro ⟨kv, hkv, ⟨hne, hkey⟩ | hstray⟩
    · exact .inl ⟨kv, ⟨hkv, hne⟩, hkey.symm⟩
    · exact .inr ⟨kv, hkv, hstray⟩
  · rintro (⟨kv, ⟨hkv, hne⟩, hkey⟩ | ⟨kv, hkv, hstray⟩)
    · exact ⟨kv, hkv, .inl ⟨hne, hkey.symm⟩⟩
    · exact ⟨kv, hkv, .inr hstray⟩

theorem mem_urlParams {r : RequestFields} (hurl : r.url = path ++ '?' :: query)
    (hpath : '?' ∉ path) (hparams : r.urlParams = ∅) :
    key ∈ (parseUrlParams r).urlParams ↔
      key ∈ pieceKeys (queryText query) ∨ key ∈ strayKeys (queryText query) := by
  rw [(parseUrlParams_query hurl hpath hparams).2, Lib.mem_inserts, mem_formPairs_keys]

/-- The keys of a url are those of the pieces of its query exactly if every
stray key is one of them and the end of the query at a second '?' makes no
difference. -/
theorem urlParams_keys_iff {r : RequestFields} (hurl : r.url = path ++ '?' :: query)
    (hpath : '?' ∉ path) (hparams : r.urlParams = ∅) :
    (∀ key, key ∈ (parseUrlParams r).urlParams ↔ key ∈ pieceKeys query) ↔
      (∀ key ∈ strayKeys (queryText query), key ∈ pieceKeys query) ∧
      (∀ key ∈ pieceKeys (queryText query), key ∈ pieceKeys query) ∧
      (∀ key ∈ pieceKeys query,
        key ∈ pieceKeys (queryText query) ∨ key ∈ strayKeys (queryText query)) := by
  simp only [mem_urlParams hurl hpath hparams]
  constructor
  · intro h
    exact ⟨fun key hkey => (h key).mp (.inr hkey), fun key hkey => (h key).mp (.inl hkey),
      fun key hkey => (h key).mpr hkey⟩
  · rintro ⟨hstray, hkept, hall⟩ key
    exact ⟨fun hkey => hkey.elim (hkept key) (hstray key), hall key⟩

theorem urlParams_keys_plain :
    pieceKeys "a=1&b".toList = ["a".toList, "b".toList] ∧
    ∀ key, key ∈ (parseUrlParams { url := "/go?a=1&b".toList }).urlParams ↔
      key ∈ pieceKeys "a=1&b".toList :=
  ⟨by decide,
    (@urlParams_keys_iff "/go".toList "a=1&b".toList _ rfl (by decide) rfl).mpr (by decide)⟩

/-- A key from inside a value, the empty key of an empty piece, and a key that
is lost behind a second '?'. -/
theorem urlParams_keys_stray :
    "c".toList ∈ (parseUrlParams { url := "/?a=b=c".toList }).urlParams ∧
      "c".toList ∉ pieceKeys "a=b=c".toList ∧
    [] ∈ (parseUrlParams { url := "/?a=1&".toList }).urlParams ∧ [] ∉ pieceKeys "a=1&".toList ∧
    "z".toList ∉ (parseUrlParams { url := "/?x=1?y&z=2".toList }).urlParams ∧
      "z".toList ∈ pieceKeys "x=1?y&z=2".toList := by
  decide

-- ---------------------------------------------------------------------------
-- Queries and bodies
-- ---------------------------------------------------------------------------

theorem parseBody_bodyParams (body : Str) :
    (parseBody body {}).bodyParams = Lib.insertsIfNew (formPairs body) ∅ := by
  rw [parseBody, parseForm_eq, putAll_insertIfNew]

/-- A text is decoded to one map as a query and as a body exactly if each key
has the same first and last value. -/
theorem query_eq_body_iff (h : '?' ∉ q) :
    (parseUrlParams { url := "/?".toList ++ q }).urlParams = (parseBody q {}).bodyParams ↔
      ∀ key, (formPairs q).lookup key = (formPairs q).reverse.lookup key := by
  have hquery := @parseUrlParams_query "/".toList q { url := "/?".toList ++ q } rfl (by decide) rfl
  rw [hquery.2, queryText_free h, parseBody_bodyParams, Lib.inserts_eq_insertsIfNew_iff]

theorem query_eq_body_repeated :
    (parseUrlParams { url := "/?a=1&&a=1".toList }).urlParams
      = (parseBody "a=1&&a=1".toList {}).bodyParams :=
  (query_eq_body_iff (q := "a=1&&a=1".toList) (by decide)).mpr fun _ => rfl

/-- A repeated key has its last value in a query and its first in a body. -/
theorem query_ne_body_repeated :
    (parseUrlParams { url := "/?a=1&a=2".toList }).urlParams
      ≠ (parseBody "a=1&a=2".toList {}).bodyParams ∧
    (parseUrlParams { url := "/?a=1&a=2".toList }).urlParams["a".toList]? = some "2".toList ∧
    (parseBody "a=1&a=2".toList {}).bodyParams["a".toList]? = some "1".toList := by
  have hquery : (parseUrlParams { url := "/?a=1&a=2".toList }).urlParams["a".toList]?
      = some "2".toList := by decide
  have hbody : (parseBody "a=1&a=2".toList {}).bodyParams["a".toList]? = some "1".toList := by
    decide
  refine ⟨fun heq => ?_, hquery, hbody⟩
  rw [heq, hbody] at hquery
  exact absurd hquery (by decide)

end CppUtil.HttpServer

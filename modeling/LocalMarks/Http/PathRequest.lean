import LocalMarks.Http.Credentials
import LocalMarks.Http.Ranges
import LocalMarks.Http.UrlDecode

/-!
# Requests for a path

What a client sends for a path, encoded in any way and with any headers added, and what
`http_parse_request` hands on for it: to `file_serve`, unless the path is one of the API.
-/

namespace LocalMarks.Http
open LocalMarks.Lib

/-- A path that `api_handle_request` answers. -/
def ApiPath (path : Bytes) : Prop :=
  ascii "/bookmarks/" <+: path ∨ path = ascii "/bookmarks.json" ∨ path = ascii "/api/databases" ∨
    ascii "/api/databases/" <+: path

theorem PercentEncodes.itself {s : Bytes} (h : ∀ c ∈ s, c ≠ 37 ∧ c ≠ 43) : PercentEncodes s s := by
  induction s with
  | nil => exact .nil
  | cons c s ih =>
    obtain ⟨h37, h43⟩ := h c (List.mem_cons_self ..)
    exact .plain c h37 h43 (ih fun x hx => h x (List.mem_cons_of_mem c hx))

theorem no_query : ∀ q ∈ (none : Option Bytes), ∀ c ∈ q, c ≠ 0 ∧ c ≠ 13 ∧ c ≠ 32 := nofun

/-- GET or HEAD for a path, which is written without its leading slash. -/
structure PathRequest where
  head : Bool
  path : CString
  target : Bytes
  query : Option Bytes
  headers : List Header
  encodes : PercentEncodes (47 :: path.bytes) target
  target_ok : ∀ c ∈ target, c ≠ 13 ∧ c ≠ 32 ∧ c ≠ 63
  query_ok : ∀ q ∈ query, ∀ c ∈ q, c ≠ 0 ∧ c ≠ 13 ∧ c ≠ 32
  fits : path.bytes.length < 4095
  no_dots : ¬ ascii ".." <:+: 47 :: path.bytes

namespace PathRequest
variable (q : PathRequest)

def uri : Bytes := q.target ++ (q.query.map fun s => 63 :: s).getD []

def methodName : Bytes := if q.head then ascii "HEAD" else ascii "GET"

def parts : LineParts := ⟨q.methodName, q.uri, ascii "HTTP/1.1"⟩

def file : Bytes := vfsPath (47 :: q.path.bytes)

/-! ### The request line -/

theorem slash_path_nul_free : (0 : Byte) ∉ 47 :: q.path.bytes := by
  intro h
  rcases List.mem_cons.mp h with h | h
  · exact absurd h (by decide)
  · exact q.path.nul_free h

theorem uri_ok : ∀ c ∈ q.uri, c ≠ 0 ∧ c ≠ 13 ∧ c ≠ 32 := by
  have htarget : (0 : Byte) ∉ q.target := q.encodes.nul_free q.slash_path_nul_free
  intro c hc
  rcases List.mem_append.mp hc with hc | hc
  · obtain ⟨h13, h32, -⟩ := q.target_ok c hc
    exact ⟨fun h0 => htarget (h0 ▸ hc), h13, h32⟩
  · cases hquery : q.query with
    | none =>
      rw [hquery] at hc
      cases hc
    | some s =>
      rw [hquery] at hc
      rcases List.mem_cons.mp hc with rfl | hc
      · decide
      · exact q.query_ok s hquery c hc

theorem uriPath_uri : uriPath q.uri = q.target := by
  have hmark : (63 : Byte) ∉ q.target := fun h => (q.target_ok 63 h).2.2 rfl
  unfold uriPath uri
  cases q.query with
  | none =>
    have hnone : strchr 63 (q.target ++ []) = none := by
      rw [List.append_nil]
      exact strchr_none.mpr hmark
    rw [Option.map_none, Option.getD_none, hnone, Option.getD_none, List.append_nil]
  | some s => rw [Option.map_some, Option.getD_some, strchr_append s hmark, Option.getD_some]

theorem decoded : cstr (httpUrlDecode 4096 (uriPath q.uri)) = 47 :: q.path.bytes := by
  have hfits := q.fits
  rw [q.uriPath_uri, httpUrlDecode_eq, q.encodes.urlDecode, List.take_of_length_le]
  · exact cstr_of_nul_free q.slash_path_nul_free
  · rw [List.length_cons]
    omega

theorem parts_line : lineParts q.parts.line = some q.parts := by
  have hname : (32 : Byte) ∉ q.methodName := by
    unfold methodName
    split <;> decide
  exact lineParts_some.mpr ⟨rfl, hname, fun h => (q.uri_ok 32 h).2.2 rfl⟩

theorem line_ok : ∀ c ∈ q.parts.line, c ≠ 0 ∧ c ≠ 13 := by
  have hname : ∀ c ∈ q.methodName, c ≠ 0 ∧ c ≠ 13 := by
    unfold methodName
    split <;> exact all_bytes rfl
  have hversion : ∀ c ∈ ascii "HTTP/1.1", c ≠ 0 ∧ c ≠ 13 := all_bytes rfl
  intro c hc
  simp only [LineParts.line, parts, List.mem_append, List.mem_cons] at hc
  rcases hc with hc | rfl | hc | rfl | hc
  · exact hname c hc
  · decide
  · exact ⟨(q.uri_ok c hc).1, (q.uri_ok c hc).2.1⟩
  · decide
  · exact hversion c hc

theorem not_traverses : ¬ PathTraverses q.parts.uri := by
  show ¬ ascii ".." <:+: cstr (httpUrlDecode 4096 (uriPath q.uri))
  rw [q.decoded]
  exact q.no_dots

def firstLine : FirstLine where
  line := q.parts.line
  nul_free := fun h => (q.line_ok 0 h).1 rfl
  one_line := crlf_free fun c hc => (q.line_ok c hc).2
  accepted := fun h => q.not_traverses ((refused_iff q.parts_line).mp h)

/-- The bytes of the request. -/
def block : Bytes := blockOf (q.firstLine.line :: q.headers.map Header.text)

/-! ### What is parsed -/

/-- The request with the headers still to be read. -/
def start : HttpRequest := (emptyRequest q.block.length).withParts q.parts

def parsed : HttpRequest :=
  ((q.headers.map Header.toLine).map HeaderLine.line).foldl parseHeaderLine q.start

theorem block_parsed : parseBlock q.block = some q.parsed := by
  obtain ⟨-, hnul, hsplit⟩ := requestLines_block q.firstLine (q.headers.map Header.toLine)
  have hblock : q.block = blockOf (requestLines q.firstLine (q.headers.map Header.toLine)) := by
    rw [block, headerLines_eq]
  have hlines : splitLines (cstr q.block) =
      q.parts.line :: ((q.headers.map Header.toLine).map HeaderLine.line ++ [[]]) := by
    rw [hblock, cstr_of_nul_free hnul, hsplit]
    rfl
  have hfirst : parseRequestLine q.parts.line (emptyRequest q.block.length) = some q.start := by
    rw [parseRequestLine_eq, q.parts_line, Option.bind_some, if_neg]
    · rfl
    · rw [traverses_iff]
      exact q.not_traverses
  unfold parseBlock
  rw [hlines]
  dsimp only
  rw [hfirst, Option.map_some, List.foldl_concat]
  rfl

theorem delivered (d : Delivery q.block) (hfit : q.block.length ≤ 8190) :
    ∃ t', httpParseRequest d.conn true = .ok q.block q.parsed t' := by
  have hends := (requestLines_block q.firstLine (q.headers.map Header.toLine)).1
  rw [← headerLines_eq] at hends
  obtain ⟨t', hparse⟩ := d.parse hends (Nat.lt_of_le_of_lt hfit (by decide))
  rw [blockResult, q.block_parsed] at hparse
  exact ⟨t', hparse⟩

theorem parsed_line : q.parsed.line = q.start.line := foldl_parseHeaderLine_line _ _

theorem parsed_method : q.parsed.method = if q.head then .head else .get := by
  have hline : q.parsed.method = methodOf q.methodName := congrArg RequestLine.method q.parsed_line
  rw [hline, methodName]
  split <;> decide

theorem parsed_path : q.parsed.path.bytes = 47 :: q.path.bytes := by
  have hline : q.parsed.path = q.start.path := congrArg RequestLine.path q.parsed_line
  have htaken := (emptyRequest q.block.length).withParts_taken q.parts
  rw [hline]
  exact htaken.2.2.2.2.trans q.decoded

theorem parsed_field (f : TextField) :
    f.text q.parsed = (lastSent q.headers f.header).take (f.size - 1) := by
  have hstart : f.text q.start = [] := by rw [start, f.text_withParts, f.text_empty]
  rw [parsed, foldl_field f hstart, lastSent_eq]

theorem parsed_route (hapi : ¬ ApiPath (47 :: q.path.bytes)) (firstDb : Bool) :
    routeOf firstDb q.parsed = .file := by
  have hpath := q.parsed_path
  unfold ApiPath at hapi
  rw [not_or, not_or, not_or] at hapi
  obtain ⟨hbookmarks, hfirst, hlist, hsingle⟩ := hapi
  unfold routeOf
  dsimp only
  rw [hpath]
  by_cases hget : q.parsed.method ≠ .get
  · exact if_pos hget
  · have hindex : bookmarkIndex (47 :: q.path.bytes) = none := by
      unfold bookmarkIndex
      rw [if_neg fun h => hbookmarks (List.isPrefixOf_iff_prefix.mp h)]
    have hjson : (47 :: q.path.bytes == ascii "/bookmarks.json") = false :=
      beq_eq_false_iff_ne.mpr hfirst
    rw [if_neg hget, hindex]
    dsimp only
    rw [hjson, Bool.and_false, if_neg Bool.false_ne_true, if_neg hlist,
      if_neg fun h => hsingle (List.isPrefixOf_iff_prefix.mp h)]

theorem parsed_answer (hapi : ¬ ApiPath (47 :: q.path.bytes)) (svc : Services)
    (firstDb keepAlive : Bool) : answer svc firstDb q.parsed keepAlive =
      match svc.vfsLookup q.file with
      | none => responseError svc.date 404 (ascii "File not found.")
      | some entry => serveEntry svc q.parsed entry keepAlive := by
  have hmethod : q.parsed.method ≠ .other := by
    rw [q.parsed_method]
    split <;> decide
  unfold answer apiHandleRequest
  rw [q.parsed_route hapi]
  dsimp only
  rw [fileServe, if_neg hmethod, q.parsed_path]
  rfl

end PathRequest

/-! ### Its range -/

def NotRange (h : Header) : Prop := h.name.map lowerByte ≠ ascii "range"

theorem parseHeader_notRange {h : HeaderLine} (hname : h.name.map lowerByte ≠ ascii "range")
    (r : HttpRequest) : (parseHeader h.line r).rangeStart = r.rangeStart ∧
      (parseHeader h.line r).rangeEnd = r.rangeEnd := by
  have hcopy : (h.name.take 255).map lowerByte ≠ ascii "range" :=
    mt (nameCopy_iff h.name (show (ascii "range").length < 255 by decide)).mp hname
  unfold parseHeader
  rw [h.cut.1]
  dsimp only
  rw [h.cut.2]
  -- the branch of the range is excluded by `hcopy`
  repeat' split
  all_goals exact ⟨rfl, rfl⟩

theorem foldl_notRange {hs : List Header} (h : ∀ x ∈ hs, NotRange x) (r : HttpRequest) :
    (((hs.map Header.toLine).map HeaderLine.line).foldl parseHeaderLine r).rangeStart =
        r.rangeStart ∧
      (((hs.map Header.toLine).map HeaderLine.line).foldl parseHeaderLine r).rangeEnd =
        r.rangeEnd := by
  induction hs generalizing r with
  | nil => exact ⟨rfl, rfl⟩
  | cons x xs ih =>
    have hne : x.toLine.line ≠ [] := List.append_ne_nil_of_left_ne_nil x.name_ne _
    obtain ⟨hstart, hend⟩ := parseHeader_notRange (h := x.toLine) (h x (List.mem_cons_self ..)) r
    obtain ⟨ihstart, ihend⟩ := ih (fun y hy => h y (List.mem_cons_of_mem x hy))
      (parseHeaderLine r x.toLine.line)
    rw [List.map_cons, List.map_cons, List.foldl_cons, ihstart, ihend, parseHeaderLine, if_neg hne]
    exact ⟨hstart, hend⟩

/-- The headers ask for this range and for no other one. -/
def AsksRange (hs : List Header) (spec : RangeSpec) : Prop :=
  ∃ before h after, hs = before ++ h :: after ∧ h.name.map lowerByte = ascii "range" ∧
    h.value = ascii "bytes=" ++ spec.text ∧ (∀ x ∈ before, NotRange x) ∧ ∀ x ∈ after, NotRange x

namespace PathRequest
variable (q : PathRequest)

theorem parsed_noRange (h : ∀ x ∈ q.headers, NotRange x) : NoRange q.parsed :=
  foldl_notRange h q.start

theorem parsed_range {spec : RangeSpec} (h : AsksRange q.headers spec) :
    q.parsed.rangeStart = spec.start ∧ q.parsed.rangeEnd = spec.stop := by
  obtain ⟨before, x, after, hheaders, hname, hvalue, hbefore, hafter⟩ := h
  have hline : IsRange x.toLine.line (ascii "bytes=" ++ spec.text) := by
    refine ⟨x.name, _, x.toLine.cut.1, ?_, ?_⟩
    · rw [show trim x.name = x.name from x.toLine.cut.2]
      exact hname
    · rw [x.trim_value, hvalue]
  have hne : x.toLine.line ≠ [] := List.append_ne_nil_of_left_ne_nil x.name_ne _
  obtain ⟨-, hend⟩ := foldl_notRange hbefore q.start
  obtain ⟨hafterStart, hafterEnd⟩ := foldl_notRange hafter (parseHeaderLine
    (((before.map Header.toLine).map HeaderLine.line).foldl parseHeaderLine q.start)
    x.toLine.line)
  rw [parsed, hheaders, List.map_append, List.map_append, List.foldl_append, List.map_cons,
    List.map_cons, List.foldl_cons, hafterStart, hafterEnd, parseHeaderLine, if_neg hne,
    parseHeader_bytes hline]
  exact spec.fields hend

end PathRequest

end LocalMarks.Http

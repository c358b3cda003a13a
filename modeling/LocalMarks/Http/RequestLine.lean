import LocalMarks.Http.ReadHeaders
import Mathlib.Data.List.TakeDrop

/-!
# What the request line says

Which header blocks `http_parse_request` accepts, what it takes from the first line, and how much
of the URI is kept.
-/

namespace LocalMarks.Http
open LocalMarks.Lib

/-! ### The parts of the line -/

structure LineParts where
  method : Bytes
  uri : Bytes
  version : Bytes

def lineParts (line : Bytes) : Option LineParts :=
  (strchr 32 line).bind fun (name, rest) =>
    (strchr 32 rest).map fun (uri, version) => ⟨name, uri, version⟩

def LineParts.line (p : LineParts) : Bytes := p.method ++ 32 :: (p.uri ++ 32 :: p.version)

/-- A method, a URI and a version. -/
def LineParts.Words (p : LineParts) : Prop :=
  (p.method ≠ [] ∧ 32 ∉ p.method) ∧ (p.uri ≠ [] ∧ 32 ∉ p.uri) ∧ p.version ≠ [] ∧ 32 ∉ p.version

theorem lineParts_some {line : Bytes} {p : LineParts} :
    lineParts line = some p ↔ line = p.line ∧ 32 ∉ p.method ∧ 32 ∉ p.uri := by
  unfold lineParts
  constructor
  · intro h
    obtain ⟨⟨name, rest⟩, hname, h⟩ := Option.bind_eq_some_iff.mp h
    obtain ⟨⟨uri, version⟩, huri, rfl⟩ := Option.map_eq_some_iff.mp h
    obtain ⟨rfl, hnot⟩ := strchr_some.mp hname
    obtain ⟨rfl, hnot'⟩ := strchr_some.mp huri
    exact ⟨rfl, hnot, hnot'⟩
  · intro h
    obtain ⟨rfl, hname, huri⟩ := h
    rw [LineParts.line, strchr_append _ hname, Option.bind_some]
    dsimp only
    rw [strchr_append _ huri]
    rfl

theorem LineParts.Words.parts {p : LineParts} (h : p.Words) : lineParts p.line = some p :=
  lineParts_some.mpr ⟨rfl, h.1.2, h.2.1.2⟩

def uriPath (uri : Bytes) : Bytes := ((strchr 63 uri).getD (uri, [])).1
def uriQuery (uri : Bytes) : Bytes := ((strchr 63 uri).getD (uri, [])).2

/-- The decoded path, up to its first NUL, contains `..`. -/
def PathTraverses (uri : Bytes) : Prop :=
  ascii ".." <:+: cstr (httpUrlDecode 4096 (uriPath uri))

/-- The line has fewer than two spaces, or its path contains `..`. -/
def Refused (line : Bytes) : Prop := ∀ p, lineParts line = some p → PathTraverses p.uri

theorem refused_iff {line : Bytes} {p : LineParts} (hp : lineParts line = some p) :
    Refused line ↔ PathTraverses p.uri := by
  constructor
  · intro h
    exact h p hp
  · intro htrav q hq
    rw [hp] at hq
    cases hq
    exact htrav

/-! ### Decoding -/

/-- The percent-decoding of a text of any length. -/
def urlDecode : Bytes → Bytes
  | [] => []
  | 37 :: a :: b :: s =>
    if isXDigit a && isXDigit b then UInt8.ofNat (16 * hexValue a + hexValue b) :: urlDecode s
    else 37 :: urlDecode (a :: b :: s)
  | c :: s => (if c = 43 then 32 else c) :: urlDecode s

theorem httpUrlDecode_eq (n : ℕ) (s : Bytes) : httpUrlDecode n s = (urlDecode s).take (n - 1) := by
  fun_induction httpUrlDecode n s with
  | case1 s => rfl
  | case2 s => rfl
  | case3 n => exact List.take_nil.symm
  | case4 n a b s h ih => rw [urlDecode, if_pos h, ih, Nat.add_sub_cancel]; rfl
  | case5 n a b s h ih => rw [urlDecode, if_neg h, ih, Nat.add_sub_cancel]; rfl
  | case6 n c s h ih =>
    rw [urlDecode, ih, Nat.add_sub_cancel]
    · rfl
    · exact h

theorem httpUrlDecode_length (n : ℕ) (s : Bytes) : (httpUrlDecode n s).length ≤ n - 1 := by
  rw [httpUrlDecode_eq, List.length_take]
  omega

theorem urlDecode_plain {s : Bytes} (h : ∀ c ∈ s, c ≠ 37 ∧ c ≠ 43) : urlDecode s = s := by
  induction s with
  | nil => rfl
  | cons c cs ih =>
    obtain ⟨h37, h43⟩ := h c (List.mem_cons_self ..)
    rw [urlDecode, if_neg h43, ih fun d hd => h d (List.mem_cons_of_mem _ hd)]
    exact fun a b s hc => absurd hc h37

/-! ### What is stored -/

theorem methodSize_pos : 0 < 16 := Nat.succ_pos _
theorem querySize_pos : 0 < 2048 := Nat.succ_pos _
theorem pathSize_pos : 0 < 4096 := Nat.succ_pos _

theorem storedPath_bytes (s : Bytes) :
    (fieldOf 4096 pathSize_pos (httpUrlDecode 4096 s)).bytes = cstr (httpUrlDecode 4096 s) := by
  have hlen := httpUrlDecode_length 4096 s
  have hcut := (cstr_initial (httpUrlDecode 4096 s)).length_le
  show (cstr _).take 4095 = _
  rw [List.take_of_length_le]
  omega

/-- The fields of a request that are taken from the parts of its first line. -/
def TakenFrom (r : HttpRequest) (p : LineParts) : Prop :=
  r.method = methodOf p.method ∧
  r.methodStr = fieldOf 16 methodSize_pos ((p.method.take 15).map upperByte) ∧
  r.version = fieldOf 16 methodSize_pos ((p.version.take 15).takeWhile (· != 13)) ∧
  r.query = fieldOf 2048 querySize_pos (uriQuery p.uri) ∧
  r.path.bytes = cstr (httpUrlDecode 4096 (uriPath p.uri))

def HttpRequest.withParts (r : HttpRequest) (p : LineParts) : HttpRequest :=
  { r with
    method := methodOf p.method
    methodStr := fieldOf 16 methodSize_pos ((p.method.take 15).map upperByte)
    version := fieldOf 16 methodSize_pos ((p.version.take 15).takeWhile (· != 13))
    query := fieldOf 2048 querySize_pos (uriQuery p.uri)
    path := fieldOf 4096 pathSize_pos (httpUrlDecode 4096 (uriPath p.uri)) }

theorem HttpRequest.withParts_taken (r : HttpRequest) (p : LineParts) :
    TakenFrom (r.withParts p) p := ⟨rfl, rfl, rfl, rfl, storedPath_bytes _⟩

theorem parseRequestLine_eq (line : Bytes) (r : HttpRequest) :
    parseRequestLine line r = (lineParts line).bind fun p =>
      if (strstr (ascii "..") (r.withParts p).path.bytes).isSome then none
      else some (r.withParts p) := by
  unfold parseRequestLine lineParts
  rw [Option.bind_assoc]
  congr 1
  funext ⟨name, rest⟩
  rw [Option.bind_map]
  rfl

theorem traverses_iff (r : HttpRequest) (p : LineParts) :
    (strstr (ascii "..") (r.withParts p).path.bytes).isSome ↔ PathTraverses p.uri := by
  rw [strstr_isSome, PathTraverses, ← storedPath_bytes]
  rfl

theorem parseRequestLine_none {line : Bytes} {r : HttpRequest} :
    parseRequestLine line r = none ↔ Refused line := by
  rw [parseRequestLine_eq, Option.bind_eq_none_iff]
  apply forall_congr'
  intro p
  apply imp_congr_right
  intro hp
  rw [← traverses_iff r]
  split <;> rename_i h
  · exact iff_of_true rfl h
  · exact iff_of_false (by simp) h

theorem parseRequestLine_parts {line : Bytes} {r r' : HttpRequest}
    (h : parseRequestLine line r = some r') :
    ∃ p, lineParts line = some p ∧ r' = r.withParts p ∧ ¬ PathTraverses p.uri := by
  rw [parseRequestLine_eq] at h
  obtain ⟨p, hp, h⟩ := Option.bind_eq_some_iff.mp h
  refine ⟨p, hp, ?_⟩
  rw [← traverses_iff r]
  split at h
  · cases h
  · cases h
    exact ⟨rfl, ‹_›⟩

/-! ### The whole block -/

theorem parseBlock_none {block : Bytes} :
    parseBlock block = none ↔ ∃ first lines, splitLines (cstr block) = first :: lines ∧
      Refused first := by
  unfold parseBlock
  split
  · rename_i hsplit
    rw [hsplit]
    exact iff_of_false (by simp) (by simp)
  · rename_i first lines hsplit
    rw [Option.map_eq_none_iff, parseRequestLine_none, hsplit]
    constructor
    · exact fun h => ⟨first, lines, rfl, h⟩
    · intro h
      obtain ⟨_, _, hlines, href⟩ := h
      cases hlines
      exact href

theorem parseBlock_taken {block : Bytes} {req : HttpRequest} (h : parseBlock block = some req) :
    cstr block = [] ∨ ∃ first lines p, splitLines (cstr block) = first :: lines ∧
      lineParts first = some p ∧ TakenFrom req p ∧ ¬ PathTraverses p.uri := by
  unfold parseBlock at h
  split at h
  · rename_i hsplit
    exact Or.inl (splitLines_eq_nil hsplit)
  · rename_i first lines hsplit
    right
    obtain ⟨r, hr, rfl⟩ := Option.map_eq_some_iff.mp h
    obtain ⟨p, hp, rfl, htrav⟩ := parseRequestLine_parts hr
    refine ⟨first, lines, p, hsplit, hp, ?_, htrav⟩
    have hline := foldl_parseHeaderLine_line lines ((emptyRequest block.length).withParts p)
    have htaken := (emptyRequest block.length).withParts_taken p
    refine ⟨(congrArg RequestLine.method hline).trans htaken.1,
      (congrArg RequestLine.methodStr hline).trans htaken.2.1,
      (congrArg RequestLine.version hline).trans htaken.2.2.1,
      (congrArg RequestLine.query hline).trans htaken.2.2.2.1, ?_⟩
    exact (congrArg (·.path.bytes) hline).trans htaken.2.2.2.2

theorem parseBlock_takenFrom {block first : Bytes} {lines : List Bytes} {p : LineParts}
    {req : HttpRequest} (hsplit : splitLines (cstr block) = first :: lines)
    (hp : lineParts first = some p) (h : parseBlock block = some req) :
    TakenFrom req p ∧ ¬ PathTraverses p.uri := by
  rcases parseBlock_taken h with hnil | ⟨first', lines', q, hsplit', hq, htaken⟩
  · rw [hnil] at hsplit
    cases hsplit
  · rw [hsplit] at hsplit'
    cases hsplit'
    rw [hp] at hq
    cases hq
    exact htaken

theorem parseBlock_accepted {block first : Bytes} {lines : List Bytes} {p : LineParts}
    (hsplit : splitLines (cstr block) = first :: lines) (hp : lineParts first = some p)
    (htrav : ¬ PathTraverses p.uri) : ∃ req, parseBlock block = some req := by
  cases hreq : parseBlock block with
  | none =>
    obtain ⟨first', lines', hsplit', href⟩ := parseBlock_none.mp hreq
    rw [hsplit] at hsplit'
    cases hsplit'
    exact absurd ((refused_iff hp).mp href) htrav
  | some req => exact ⟨req, rfl⟩

/-! ### What is accepted -/

/-- The block has no NUL, and its first line is a method, a URI and a version, which are those
of the request. -/
def RequestRead (block : Bytes) (req : HttpRequest) : Prop :=
  0 ∉ block ∧ ∃ p lines, splitLines block = p.line :: lines ∧ p.Words ∧ TakenFrom req p

/-- What is accepted is a request. -/
def AcceptsRequests (t : Conn) : Prop :=
  ∀ mallocOk block req t', httpParseRequest t mallocOk = .ok block req t' → RequestRead block req

/-- The text up to the first NUL has a first line, and this line is refused, or there is no NUL
and it has no empty part and no third space. -/
def RefusedOrWords (block : Bytes) : Prop :=
  ∃ first lines, splitLines (cstr block) = first :: lines ∧
    (Refused first ∨ 0 ∉ block ∧ ∃ p : LineParts, first = p.line ∧ p.Words)

theorem requestRead_iff {block : Bytes} :
    (∀ req, parseBlock block = some req → RequestRead block req) ↔ RefusedOrWords block := by
  constructor
  · intro h
    cases hp : parseBlock block with
    | none =>
      obtain ⟨first, lines, hsplit, href⟩ := parseBlock_none.mp hp
      exact ⟨first, lines, hsplit, Or.inl href⟩
    | some req =>
      obtain ⟨hnul, p, lines, hsplit, hwords, -⟩ := h req hp
      rw [← cstr_of_nul_free hnul] at hsplit
      exact ⟨p.line, lines, hsplit, Or.inr ⟨hnul, p, rfl, hwords⟩⟩
  · intro h req hreq
    obtain ⟨first, lines, hsplit, href | ⟨hnul, p, rfl, hwords⟩⟩ := h
    · rw [parseBlock_none.mpr ⟨first, lines, hsplit, href⟩] at hreq
      cases hreq
    · have htaken := (parseBlock_takenFrom hsplit hwords.parts hreq).1
      rw [cstr_of_nul_free hnul] at hsplit
      exact ⟨hnul, p, lines, hsplit, hwords, htaken⟩

/-- Everything that is accepted on a connection is a request exactly when the block that is
read, if there is one, is refused or has the form of one. -/
theorem acceptsRequests_iff (t : Conn) :
    AcceptsRequests t ↔ ∀ block t', readHeaders t (rawBufSize - 1) = (some block, t') →
      block ≠ [] → RefusedOrWords block := by
  constructor
  · intro h block t' hread hne
    rw [← requestRead_iff]
    intro req hreq
    exact h true block req t' (httpParseRequest_of_block hread hne hreq)
  · intro h mallocOk block req t' hok
    obtain ⟨-, hread, hne⟩ := httpParseRequest_block (Or.inr ⟨req, hok⟩)
    exact requestRead_iff.mpr (h block t' hread hne) req (httpParseRequest_ok hok).2

/-- A block that begins with a NUL is a request with empty fields, and the header behind the
NUL of the other one is not looked at. -/
def nulFirst : Bytes := 0 :: ascii "\r\n\r\n"
def nulBeforeHeader : Bytes :=
  ascii "GET / HTTP/1.1\r\n" ++ 0 :: ascii "Authorization: x\r\n\r\n"

theorem nul_accepted : ¬ AcceptsRequests ⟨nulFirst, [.data 5]⟩ ∧
    ¬ AcceptsRequests ⟨nulBeforeHeader, [.data 37]⟩ := by
  have hfirst : ∃ req t', httpParseRequest ⟨nulFirst, [.data 5]⟩ true = .ok nulFirst req t' :=
    ⟨_, _, rfl⟩
  have hheader : ∃ req t', httpParseRequest ⟨nulBeforeHeader, [.data 37]⟩ true =
      .ok nulBeforeHeader req t' := ⟨_, _, rfl⟩
  constructor <;> intro h
  · obtain ⟨req, t', hok⟩ := hfirst
    exact (h true nulFirst req t' hok).1 (by decide)
  · obtain ⟨req, t', hok⟩ := hheader
    exact (h true nulBeforeHeader req t' hok).1 (by decide)

/-! ### Encoded NULs -/

def strlen (b : Bytes) : ℕ := (cstr b).length
def strnlen (b : Bytes) (n : ℕ) : ℕ := (cstr (b.take n)).length

/-- The comparison by which `parse_request_line` looks for a NUL in the bytes of `r->path`. -/
def nulBlocked (field : Bytes) : Bool := strlen field != strnlen field 4096

theorem cstr_append_nul (s rest : Bytes) : cstr (s ++ 0 :: rest) = cstr s := by
  unfold cstr
  induction s with
  | nil => rfl
  | cons c cs ih => rw [List.cons_append, List.takeWhile_cons, List.takeWhile_cons, ih]

/-- It blocks nothing: both lengths end at the first NUL, and the decoder has put one in the
field. -/
theorem nulBlocked_never (path rest : Bytes) :
    nulBlocked (httpUrlDecode 4096 path ++ 0 :: rest) = false := by
  have hlen := httpUrlDecode_length 4096 path
  unfold nulBlocked strlen strnlen
  rw [bne_eq_false_iff_eq, List.take_append, List.take_of_length_le (by omega)]
  obtain ⟨k, hk⟩ : ∃ k, 4096 - (httpUrlDecode 4096 path).length = k + 1 :=
    ⟨4095 - (httpUrlDecode 4096 path).length, by omega⟩
  rw [hk, List.take_succ_cons, cstr_append_nul, cstr_append_nul]

/-- The path decodes to a text with a NUL in it. -/
def DecodesNul (uri : Bytes) : Prop := 0 ∈ httpUrlDecode 4096 (uriPath uri)

/-- A path that decodes to a text with a NUL is refused. -/
def RefusesNul (line : Bytes) : Prop :=
  ∀ r p, lineParts line = some p → DecodesNul p.uri → parseRequestLine line r = none

/-- No request of the connection whose path has an encoded NUL is accepted. -/
def NulNeverRouted (t : Conn) : Prop :=
  ∀ mallocOk block req t' first lines, httpParseRequest t mallocOk = .ok block req t' →
    splitLines (cstr block) = first :: lines → ∀ p, lineParts first = some p → ¬ DecodesNul p.uri

/-- The path has no encoded NUL, or `..` before the first one. -/
def DotsBeforeNul (line : Bytes) : Prop :=
  ∀ p, lineParts line = some p → DecodesNul p.uri → PathTraverses p.uri

/-- An encoded NUL is refused exactly when there is a `..` before it. -/
theorem refusesNul_iff (line : Bytes) (t : Conn) :
    (RefusesNul line ↔ DotsBeforeNul line) ∧
      (NulNeverRouted t ↔ ∀ block t' first lines,
        readHeaders t (rawBufSize - 1) = (some block, t') →
        splitLines (cstr block) = first :: lines → DotsBeforeNul first) := by
  constructor
  · constructor
    · intro h p hp hnul
      rw [← refused_iff hp]
      exact parseRequestLine_none.mp (h (emptyRequest 0) p hp hnul)
    · intro h r p hp hnul
      rw [parseRequestLine_none, refused_iff hp]
      exact h p hp hnul
  · constructor
    · intro h block t' first lines hread hsplit p hp hnul
      by_contra htrav
      have hne : block ≠ [] := by
        intro hnil
        rw [hnil] at hsplit
        cases hsplit
      obtain ⟨req, hreq⟩ := parseBlock_accepted hsplit hp htrav
      have hok := httpParseRequest_of_block hread hne hreq
      exact h true block req t' first lines hok hsplit p hp hnul
    · intro h mallocOk block req t' first lines hok hsplit p hp hnul
      obtain ⟨hread, hreq⟩ := httpParseRequest_ok hok
      have htrav := (parseBlock_takenFrom hsplit hp hreq).2
      exact htrav (h block t' first lines hread hsplit p hp hnul)

theorem encodedNul_accepted : ¬ RefusesNul (ascii "GET /%00 HTTP/1.1") ∧
    ¬ NulNeverRouted ⟨ascii "GET /%00 HTTP/1.1\r\n\r\n", [.data 21]⟩ := by
  have hparts : lineParts (ascii "GET /%00 HTTP/1.1") =
      some ⟨ascii "GET", ascii "/%00", ascii "HTTP/1.1"⟩ := rfl
  have hnul : DecodesNul (ascii "/%00") := by
    unfold DecodesNul
    decide
  constructor <;> intro h
  · have htrav := (refused_iff hparts).mp
      (parseRequestLine_none.mp (h (emptyRequest 0) _ hparts hnul))
    unfold PathTraverses at htrav
    exact absurd htrav (by decide)
  · have hok : ∃ req t', httpParseRequest
        ⟨ascii "GET /%00 HTTP/1.1\r\n\r\n", [.data 21]⟩ true =
          .ok (ascii "GET /%00 HTTP/1.1\r\n\r\n") req t' := ⟨_, _, rfl⟩
    obtain ⟨req, t', hok⟩ := hok
    exact h true _ req t' (ascii "GET /%00 HTTP/1.1") [[]] hok rfl _ hparts hnul

/-! ### Long URIs -/

/-- Whatever is accepted has the whole path of its URI, decoded, and the whole query. -/
def KeepsUri (t : Conn) : Prop :=
  ∀ mallocOk block req t' first lines p, httpParseRequest t mallocOk = .ok block req t' →
    0 ∉ block → splitLines block = first :: lines → lineParts first = some p →
    0 ∉ urlDecode (uriPath p.uri) →
    req.path.bytes = urlDecode (uriPath p.uri) ∧ req.query.bytes = uriQuery p.uri

/-- The URI of a block without NULs is refused, or its decoded path and its query fit their
fields. -/
def UriFits (block : Bytes) : Prop :=
  ∀ first lines p, splitLines block = first :: lines → lineParts first = some p →
    0 ∉ urlDecode (uriPath p.uri) → ¬ PathTraverses p.uri →
    (urlDecode (uriPath p.uri)).length < 4096 ∧ (uriQuery p.uri).length < 2048

theorem splitLines_subset {s line : Bytes} (h : line ∈ splitLines s) : line ⊆ s := by
  induction s using splitLines.induct generalizing line with
  | case1 => cases h
  | case2 rest ih =>
    rw [splitLines] at h
    rcases List.mem_cons.mp h with rfl | h
    · exact List.nil_subset _
    · exact fun c hc => List.mem_cons_of_mem _ (List.mem_cons_of_mem _ (ih h hc))
  | case3 c rest hc hsplit ih =>
    rw [splitLines, hsplit] at h
    · rw [List.mem_singleton.mp h]
      exact fun d hd => List.mem_singleton.mp hd ▸ List.mem_cons_self ..
    · exact hc
  | case4 c rest hc line' lines hsplit ih =>
    rw [hsplit] at ih
    rw [splitLines, hsplit] at h
    · rcases List.mem_cons.mp h with rfl | h
      · exact List.cons_subset_cons c (ih (List.mem_cons_self ..))
      · exact fun d hd => List.mem_cons_of_mem c (ih (List.mem_cons_of_mem _ h) hd)
    · exact hc

theorem uriQuery_subset (uri : Bytes) : uriQuery uri ⊆ uri := by
  unfold uriQuery
  cases hq : strchr 63 uri with
  | none => exact List.nil_subset _
  | some r =>
    obtain ⟨before, after⟩ := r
    obtain ⟨rfl, -⟩ := strchr_some.mp hq
    exact fun c hc => List.mem_append_right _ (List.mem_cons_of_mem _ hc)

theorem TakenFrom.whole_iff {r : HttpRequest} {p : LineParts} (h : TakenFrom r p)
    (hquery : 0 ∉ uriQuery p.uri) (hpath : 0 ∉ urlDecode (uriPath p.uri)) :
    r.path.bytes = urlDecode (uriPath p.uri) ∧ r.query.bytes = uriQuery p.uri ↔
      (urlDecode (uriPath p.uri)).length < 4096 ∧ (uriQuery p.uri).length < 2048 := by
  obtain ⟨-, -, -, hq, hp⟩ := h
  have hcut : 0 ∉ httpUrlDecode 4096 (uriPath p.uri) := by
    rw [httpUrlDecode_eq]
    exact fun hmem => hpath (List.mem_of_mem_take hmem)
  rw [hp, hq, cstr_of_nul_free hcut, httpUrlDecode_eq]
  show _ ∧ (cstr _).take 2047 = _ ↔ _
  rw [cstr_of_nul_free hquery, List.take_eq_self_iff, List.take_eq_self_iff]
  omega

/-- A connection keeps the URI of what it accepts exactly when the parts of it that are stored
fit their fields. -/
theorem keepsUri_iff (t : Conn) :
    KeepsUri t ↔ ∀ block t', readHeaders t (rawBufSize - 1) = (some block, t') → 0 ∉ block →
      UriFits block := by
  have hpart : ∀ {block first lines p}, 0 ∉ block → splitLines block = first :: lines →
      lineParts first = some p → 0 ∉ uriQuery p.uri := by
    intro block first lines p hnul hsplit hp hmem
    obtain ⟨rfl, -, -⟩ := lineParts_some.mp hp
    have hline : p.line ∈ splitLines block := hsplit ▸ List.mem_cons_self ..
    apply hnul (splitLines_subset hline _)
    exact List.mem_append_right _ (List.mem_cons_of_mem _
      (List.mem_append_left _ (uriQuery_subset _ hmem)))
  constructor
  · intro h block t' hread hnul first lines p hsplit hp hpath htrav
    have hne : block ≠ [] := by
      intro hnil
      rw [hnil] at hsplit
      cases hsplit
    have hcstr : splitLines (cstr block) = first :: lines := by
      rw [cstr_of_nul_free hnul]
      exact hsplit
    obtain ⟨req, hreq⟩ := parseBlock_accepted hcstr hp htrav
    have htaken := (parseBlock_takenFrom hcstr hp hreq).1
    rw [← htaken.whole_iff (hpart hnul hsplit hp) hpath]
    exact h true block req t' first lines p (httpParseRequest_of_block hread hne hreq) hnul hsplit
      hp hpath
  · intro h mallocOk block req t' first lines p hok hnul hsplit hp hpath
    obtain ⟨hread, hreq⟩ := httpParseRequest_ok hok
    have hcstr : splitLines (cstr block) = first :: lines := by
      rw [cstr_of_nul_free hnul]
      exact hsplit
    obtain ⟨htaken, htrav⟩ := parseBlock_takenFrom hcstr hp hreq
    rw [htaken.whole_iff (hpart hnul hsplit hp) hpath]
    exact h block t' hread hnul first lines p hsplit hp hpath htrav

def longPath (n : ℕ) : Bytes := 47 :: List.replicate n 97
def longPathParts (n : ℕ) : LineParts := ⟨ascii "GET", longPath n, ascii "HTTP/1.1"⟩

theorem longPath_letters {n : ℕ} {c : Byte} (h : c ∈ longPath n) : c = 47 ∨ c = 97 :=
  (List.mem_cons.mp h).imp_right List.eq_of_mem_replicate

theorem longPath_without (n : ℕ) {c : Byte} (h47 : c ≠ 47) (h97 : c ≠ 97) : c ∉ longPath n :=
  fun h => (longPath_letters h).elim h47 h97

theorem longPath_decoded (n : ℕ) :
    uriPath (longPath n) = longPath n ∧ urlDecode (longPath n) = longPath n := by
  constructor
  · rw [uriPath, strchr_none.mpr (longPath_without n (by decide) (by decide))]
    rfl
  · apply urlDecode_plain
    intro c hc
    rcases longPath_letters hc with rfl | rfl <;> decide

theorem longPath_plain (n : ℕ) : ¬ PathTraverses (longPath n) := by
  intro h
  obtain ⟨hpath, hdecode⟩ := longPath_decoded n
  have hdot : (46 : Byte) ∈ cstr (httpUrlDecode 4096 (uriPath (longPath n))) :=
    h.subset (by decide)
  have hmem := (cstr_initial _).subset hdot
  rw [hpath, httpUrlDecode_eq, hdecode] at hmem
  exact longPath_without n (by decide) (by decide) (List.mem_of_mem_take hmem)

theorem longPath_line {n : ℕ} {c : Byte} (h : c ∈ (longPathParts n).line) : c ≠ 0 ∧ c ≠ 13 := by
  have hname : ∀ c ∈ ascii "GET", c ≠ 0 ∧ c ≠ 13 := by decide +kernel
  have hversion : ∀ c ∈ (32 :: ascii "HTTP/1.1" : Bytes), c ≠ 0 ∧ c ≠ 13 := by decide +kernel
  rcases List.mem_append.mp h with h | h
  · exact hname c h
  · rcases List.mem_cons.mp h with rfl | h
    · decide
    · rcases List.mem_append.mp h with h | h
      · rcases longPath_letters h with rfl | rfl <;> decide
      · exact hversion c h

theorem longPath_length (n : ℕ) : (blockOf [(longPathParts n).line]).length = n + 18 := by
  have hname : (ascii "GET").length = 3 := by decide
  have hversion : (ascii "HTTP/1.1").length = 8 := by decide
  have hcrlf : crlf.length = 2 := rfl
  simp only [blockOf, LineParts.line, longPathParts, longPath, List.map_cons, List.map_nil,
    List.flatten_cons, List.flatten_nil, List.length_append, List.length_cons, List.length_nil,
    List.length_replicate, hname, hversion, hcrlf]
  omega

def longPathDelivery : Delivery (blockOf [(longPathParts 4096).line]) where
  rest := []
  sizes := [4096, 4096]
  later := []
  pos := by decide
  enough := by
    rw [longPath_length]
    decide

theorem longPath_cut : ¬ KeepsUri longPathDelivery.conn := by
  intro h
  have hline : ∀ line ∈ [(longPathParts 4096).line], ∀ c ∈ line, c ≠ 0 ∧ c ≠ 13 := by
    intro line hline c hc
    rw [List.mem_singleton.mp hline] at hc
    exact longPath_line hc
  have hcrlf := fun line hmem => crlf_free fun c hc => (hline line hmem c hc).2
  have hnul := blockOf_nul_free fun line hmem hc => (hline line hmem 0 hc).1 rfl
  have hne : ∀ line ∈ [(longPathParts 4096).line], line ≠ [] := by
    intro line hmem
    rw [List.mem_singleton.mp hmem]
    exact List.append_ne_nil_of_left_ne_nil (by decide) _
  have hfit : (blockOf [(longPathParts 4096).line]).length < rawBufSize - 1 := by
    rw [longPath_length]
    decide
  obtain ⟨t', hparse⟩ :=
    longPathDelivery.parse (blockOf_ends hcrlf hne (List.cons_ne_nil _ _)) hfit
  have hsplit := splitLines_blockOf hcrlf
  have hparts : lineParts (longPathParts 4096).line = some (longPathParts 4096) :=
    lineParts_some.mpr ⟨rfl, by decide, longPath_without 4096 (by decide) (by decide)⟩
  have hcstr : splitLines (cstr (blockOf [(longPathParts 4096).line])) =
      (longPathParts 4096).line :: [[]] := by
    rw [cstr_of_nul_free hnul]
    exact hsplit
  obtain ⟨req, hreq⟩ := parseBlock_accepted hcstr hparts (longPath_plain 4096)
  rw [blockResult, hreq] at hparse
  obtain ⟨hpath, hdecode⟩ := longPath_decoded 4096
  have hdecoded : urlDecode (uriPath (longPathParts 4096).uri) = longPath 4096 := by
    show urlDecode (uriPath (longPath 4096)) = _
    rw [hpath, hdecode]
  obtain ⟨hwhole, -⟩ := h true _ req t' _ _ _ hparse hnul hsplit hparts (by
    rw [hdecoded]
    exact longPath_without 4096 (by decide) (by decide))
  have hfits := req.path.fits
  rw [hwhole, hdecoded, longPath, List.length_cons, List.length_replicate] at hfits
  omega

end LocalMarks.Http

import LocalMarks.Http.Headers
import LocalMarks.Http.Routes
import LocalMarks.Lib.Strtoll

/-!
# Byte ranges

The range fields from the header to the slice of the file that is sent: what `parse_header` reads
in them, and the arithmetic that `file_serve` does with them in `long`.
-/

namespace LocalMarks.Http
open LocalMarks.Lib

/-! ### The arithmetic of `file_serve` -/

/-- What is decided about a range: none that can be satisfied, or the bytes to send, with their
number and whether they were asked for. -/
inductive RangeResult where
  | unsatisfiable
  | slice (isRange : Bool) (first last bodyLen : ℤ)
  deriving DecidableEq

/-- `(size_t)(range_last - range_first + 1)`. -/
def bodyLen (isRange : Bool) (first last : ℤ) : Option RangeResult :=
  (int64Of (last - first)).bind fun n => (int64Of (n + 1)).map (.slice isRange first last)

/-- The first and the last byte that were asked for. -/
def requestedRange (len start stop : ℤ) : Option (ℤ × ℤ) :=
  if start < 0 then
    (int64Of (len + start)).bind fun first =>
      (int64Of (len - 1)).map fun last => (if first < 0 then 0 else first, last)
  else (if 0 ≤ stop then some stop else int64Of (len - 1)).map fun last => (start, last)

/-- The clipping, and the number of bytes if anything is left. -/
def clippedRange (len first last : ℤ) : Option RangeResult :=
  let first := if first < 0 then 0 else first
  (if len ≤ last then int64Of (len - 1) else some last).bind fun last =>
    if last < first ∨ len ≤ first then some .unsatisfiable else bodyLen true first last

/-- The range arithmetic of `file_serve`, with a test for overflow at each operation; `none` where
one overflows. -/
def rangeArithmetic (len start stop : ℤ) : Option RangeResult :=
  (int64Of (len - 1)).bind fun last =>
    if start = -1 then bodyLen false 0 last
    else (requestedRange len start stop).bind fun (first, last) => clippedRange len first last

def ByteRange.result (len : ℤ) : ByteRange → RangeResult
  | .whole => .slice false 0 (len - 1) len
  | .unsatisfiable => .unsatisfiable
  | .part first last => .slice true first last (last - first + 1)

theorem int64Of_some {z : ℤ} (h0 : int64Min ≤ z) (h : z ≤ int64Max) : int64Of z = some z :=
  if_pos ⟨h0, h⟩

theorem int64Of_near {z len : ℤ} (hlen : len ≤ int64Max) (h0 : -1 ≤ z) (h : z ≤ len) :
    int64Of z = some z :=
  int64Of_some (le_trans (by decide) h0) (h.trans hlen)

theorem bodyLen_some {first last len : ℤ} (isRange : Bool) (hlen : len ≤ int64Max) (h0 : 0 ≤ first)
    (hfl : first ≤ last + 1) (hl : last < len) :
    bodyLen isRange first last = some (.slice isRange first last (last - first + 1)) := by
  unfold bodyLen
  rw [int64Of_near hlen (by omega) (by omega), Option.bind_some,
    int64Of_near hlen (by omega) (by omega), Option.map_some]

theorem clippedRange_eq {len first last : ℤ} (h0 : 0 ≤ len) (hlen : len ≤ int64Max) :
    clippedRange len first last = some ((clipRange len first last).result len) := by
  have hend : (if len ≤ last then int64Of (len - 1) else some last) =
      some (if len ≤ last then len - 1 else last) := by
    split
    · exact int64Of_near hlen (by omega) (by omega)
    · rfl
  unfold clippedRange clipRange
  dsimp only
  rw [hend, Option.bind_some]
  generalize hf : (if first < 0 then 0 else first) = f
  generalize hl : (if len ≤ last then len - 1 else last) = l
  have hf0 : 0 ≤ f := by
    rw [← hf]
    split <;> omega
  have hllen : l < len := by
    rw [← hl]
    split <;> omega
  by_cases hempty : l < f ∨ len ≤ f
  · rw [if_pos hempty, if_pos hempty]
    rfl
  · rw [if_neg hempty, if_neg hempty, bodyLen_some true hlen hf0 (by omega) hllen]
    rfl

theorem rangeArithmetic_eq {len start : ℤ} (stop : ℤ) (h0 : 0 ≤ len) (hlen : len ≤ int64Max)
    (hstart : int64Min ≤ start) :
    rangeArithmetic len start stop = some ((byteRange len start stop).result len) := by
  have hlast : int64Of (len - 1) = some (len - 1) := int64Of_near hlen (by omega) (by omega)
  unfold rangeArithmetic byteRange requestedRange
  rw [hlast, Option.bind_some]
  by_cases hnone : start = -1
  · rw [if_pos hnone, if_pos hnone, bodyLen_some false hlen le_rfl (by omega) (by omega)]
    simp [ByteRange.result]
  · rw [if_neg hnone, if_neg hnone]
    by_cases hneg : start < 0
    · have hfirst : int64Of (len + start) = some (len + start) :=
        int64Of_some (by omega) (by omega)
      rw [if_pos hneg, if_pos hneg, hfirst, Option.bind_some, Option.map_some, Option.bind_some]
      exact clippedRange_eq h0 hlen
    · have hstop : (if 0 ≤ stop then some stop else some (len - 1)) =
          some (if 0 ≤ stop then stop else len - 1) := by
        split <;> rfl
      rw [if_neg hneg, if_neg hneg, hstop, Option.map_some, Option.bind_some]
      exact clippedRange_eq h0 hlen

/-! ### The response -/

/-- The response sends this slice of the file, and its length. A HEAD request gets the length
only. -/
def SendsSlice (data : Bytes) (req : HttpRequest) (resp : Response) (first n : ℤ) : Prop :=
  0 ≤ first ∧ 0 ≤ n ∧ first + n ≤ data.length ∧ contentLengthLine n.toNat ∈ resp.lines ∧
    resp.body = if req.method = .head then [] else (data.drop first.toNat).take n.toNat

/-- The response for an outcome of the arithmetic. -/
def AnswersRange (data : Bytes) (req : HttpRequest) (resp : Response) : RangeResult → Prop
  | .unsatisfiable => resp.status = 416
  | .slice true first last n =>
    resp.status = 206 ∧ SendsSlice data req resp first n ∧ 1 ≤ n ∧ last = first + n - 1 ∧
      contentRangeLine first last data.length ∈ resp.lines
  | .slice false first _ n =>
    resp.status = 200 ∧ SendsSlice data req resp first n ∧ first = 0 ∧ n = data.length

theorem responseSend_lines {date : HttpDate} {status : ℕ} {text : Bytes} {mime : Option Bytes}
    {extra : List Bytes} {body : Bytes} {keepAlive sendBody : Bool}
    (h : (responseSend date status text mime extra body keepAlive sendBody).isSome) :
    ∃ resp, responseSend date status text mime extra body keepAlive sendBody = some resp ∧
      resp.status = status ∧ contentLengthLine body.length ∈ resp.lines ∧
      (∀ line ∈ extra, line ∈ resp.lines) ∧ resp.body = if sendBody then body else [] := by
  obtain ⟨resp, hresp⟩ := Option.isSome_iff_exists.mp h
  refine ⟨resp, hresp, ?_⟩
  obtain ⟨lines, hlines, rfl⟩ := Option.map_eq_some_iff.mp hresp
  unfold headerCacheBuild at hlines
  dsimp only at hlines
  split at hlines
  · cases hlines
  · cases hlines
    refine ⟨rfl, by simp, ?_, rfl⟩
    intro line hline
    simp [hline]

/-- The response says that the client has the file already. -/
def TagMatches (req : HttpRequest) (entry : VfsEntry) : Prop :=
  req.ifNoneMatch.bytes ≠ [] ∧
    req.ifNoneMatch.bytes = buildEtag entry.contentHash entry.file.bytes.length

theorem serveEntry_matched (svc : Services) {req : HttpRequest} {entry : VfsEntry}
    (keepAlive : Bool) (htag : TagMatches req entry) :
    ∃ resp, serveEntry svc req entry keepAlive = some resp ∧ resp.status = 304 ∧
      SendsSlice entry.file.bytes req resp 0 0 := by
  have hsome := (serveEntry_ends svc req entry keepAlive).written
  unfold TagMatches at htag
  unfold serveEntry at hsome ⊢
  dsimp only at hsome ⊢
  rw [if_pos htag] at hsome ⊢
  obtain ⟨resp, hresp, hstatus, hlength, -, hbody⟩ := responseSend_lines hsome
  refine ⟨resp, hresp, hstatus, le_rfl, le_rfl, by simp, hlength, ?_⟩
  rw [hbody, if_pos rfl]
  exact (ite_self []).symm

theorem body_unless_head (req : HttpRequest) (body : Bytes) :
    (if decide (req.method ≠ .head) = true then body else []) =
      if req.method = .head then [] else body := by
  by_cases h : req.method = .head
  · rw [if_pos h, if_neg (by simpa using h)]
  · rw [if_neg h, if_pos (by simpa using h)]

theorem serveEntry_range (svc : Services) {req : HttpRequest} {entry : VfsEntry}
    (keepAlive : Bool) (htag : ¬ TagMatches req entry) :
    ∃ resp, serveEntry svc req entry keepAlive = some resp ∧
      AnswersRange entry.file.bytes req resp ((byteRange entry.file.bytes.length req.rangeStart
        req.rangeEnd).result entry.file.bytes.length) := by
  have hsome := (serveEntry_ends svc req entry keepAlive).written
  unfold TagMatches at htag
  unfold serveEntry at hsome ⊢
  dsimp only at hsome ⊢
  rw [if_neg htag] at hsome ⊢
  cases hr : byteRange entry.file.bytes.length req.rangeStart req.rangeEnd with
  | unsatisfiable =>
    rw [hr] at hsome
    obtain ⟨resp, hresp, hstatus, -, -, -⟩ := responseSend_lines hsome
    exact ⟨resp, hresp, hstatus⟩
  | whole =>
    rw [hr] at hsome
    obtain ⟨resp, hresp, hstatus, hlength, -, hbody⟩ := responseSend_lines hsome
    rw [body_unless_head] at hbody
    refine ⟨resp, hresp, hstatus, ⟨le_rfl, Int.natCast_nonneg _, by omega, hlength, ?_⟩, rfl, rfl⟩
    rw [hbody, Int.toNat_natCast]
    exact congrArg (ite _ _) (List.take_length).symm
  | part first last =>
    rw [hr] at hsome
    obtain ⟨h0, hfl, hll⟩ := byteRange_part hr
    obtain ⟨resp, hresp, hstatus, hlength, hextra, hbody⟩ := responseSend_lines hsome
    rw [body_unless_head] at hbody
    have hcut : ((entry.file.bytes.drop first.toNat).take (last - first + 1).toNat).length =
        (last - first + 1).toNat := by
      rw [List.length_take, List.length_drop]
      omega
    rw [hcut] at hlength
    refine ⟨resp, hresp, hstatus, ⟨h0, by omega, by omega, hlength, hbody⟩, by omega, by omega, ?_⟩
    apply hextra
    simp

/-- In `long`, `file_serve` computes without overflow for every pair of range fields. It answers
416, or it sends a slice that lies in the file: for 206 one byte at least, and named by the
Content-Range; for 200 the whole file; for 304 nothing. -/
theorem fileServe_slice (svc : Services) {entry : VfsEntry} (req : HttpRequest) (keepAlive : Bool)
    (hmethod : req.method ≠ .other)
    (hfile : svc.vfsLookup (vfsPath req.path.bytes) = some entry)
    (hlen : (entry.file.bytes.length : ℤ) ≤ int64Max)
    (hstart : int64Min ≤ req.rangeStart) :
    ∃ result resp,
      rangeArithmetic entry.file.bytes.length req.rangeStart req.rangeEnd = some result ∧
      fileServe svc req keepAlive = some resp ∧
      (TagMatches req entry ∧ resp.status = 304 ∧ SendsSlice entry.file.bytes req resp 0 0 ∨
        ¬ TagMatches req entry ∧ AnswersRange entry.file.bytes req resp result) := by
  have harith := rangeArithmetic_eq req.rangeEnd
    (Int.natCast_nonneg entry.file.bytes.length) hlen hstart
  have hserve : fileServe svc req keepAlive = serveEntry svc req entry keepAlive := by
    unfold fileServe
    rw [if_neg hmethod, hfile]
  by_cases htag : TagMatches req entry
  · obtain ⟨resp, hresp, hstatus, hslice⟩ := serveEntry_matched svc keepAlive htag
    exact ⟨_, resp, harith, hserve.trans hresp, Or.inl ⟨htag, hstatus, hslice⟩⟩
  · obtain ⟨resp, hresp, hanswer⟩ := serveEntry_range svc keepAlive htag
    exact ⟨_, resp, harith, hserve.trans hresp, Or.inr ⟨htag, hanswer⟩⟩

/-- A file of three bytes, whatever is asked for. -/
def smallFile : VfsEntry where
  filePath := ascii "index.html"
  file := ⟨[97, 98, 99], by decide⟩
  contentHash := 0

def smallServices : Services where
  date := fieldOf 56 dateSize_pos []
  vfsLookup := fun _ => some smallFile
  dbMetaCount := 0
  bookmarkCopy := fun _ => none
  databasesJson := none
  databaseJson := fun _ => none

def lowestRange : HttpRequest :=
  { emptyRequest 0 with rangeStart := int64Min, rangeEnd := int64Max }

theorem fileServe_lowest : ∃ result resp,
    rangeArithmetic 3 lowestRange.rangeStart lowestRange.rangeEnd = some result ∧
    fileServe smallServices lowestRange true = some resp ∧
    (TagMatches lowestRange smallFile ∧ resp.status = 304 ∧
        SendsSlice smallFile.file.bytes lowestRange resp 0 0 ∨
      ¬ TagMatches lowestRange smallFile ∧
        AnswersRange smallFile.file.bytes lowestRange resp result) :=
  fileServe_slice smallServices lowestRange true (by decide) rfl (by decide) (by decide)

/-! ### The header -/

/-- The line is a Range header with this value. -/
def IsRange (line value : Bytes) : Prop :=
  ∃ name rest, strchr 58 line = some (name, rest) ∧ (trim name).map lowerByte = ascii "range" ∧
    trim rest = value

/-- A range field, from the text in which it is read. -/
def rangeField (s : Bytes) : ℤ := (int64Of (strtoll s).1).getD (-1)

theorem parseHeader_range {line value : Bytes} (h : IsRange line value) (r : HttpRequest) :
    parseHeader line r =
      if (ascii "bytes=").isPrefixOf value then parseRange (value.drop 6) r else r := by
  obtain ⟨name, rest, hcolon, hname, rfl⟩ := h
  have hcopy := (nameCopy_iff (trim name) (show (ascii "range").length < 255 by
    decide)).mpr hname
  unfold parseHeader
  rw [hcolon]
  dsimp only
  rw [hcopy]
  rfl

theorem parseHeader_bytes {line spec : Bytes} (h : IsRange line (ascii "bytes=" ++ spec))
    (r : HttpRequest) : parseHeader line r = parseRange spec r := by
  have hlen : (ascii "bytes=").length = 6 := by decide
  rw [parseHeader_range h, if_pos (List.isPrefixOf_iff_prefix.mpr (List.prefix_append _ _)),
    ← hlen, List.drop_left]

/-- What is left of a range field is -1 where the number is -1 itself or has no place in it. -/
def ReadsAsNone (s : Bytes) : Prop := ∃ z, HasNumber s z ∧ (z = -1 ∨ int64Of z = none)

theorem rangeField_none {s : Bytes} : rangeField s = -1 ↔ ReadsAsNone s := by
  unfold rangeField
  constructor
  · intro h
    by_cases hnum : ∃ z, HasNumber s z
    · obtain ⟨z, hz⟩ := hnum
      rw [strtoll_number hz] at h
      refine ⟨z, hz, ?_⟩
      cases hint : int64Of z with
      | none => exact Or.inr rfl
      | some y =>
        left
        rw [hint] at h
        unfold int64Of at hint
        split at hint
        · cases hint
          exact h
        · cases hint
    · rw [strtoll_none fun z hz => hnum ⟨z, hz⟩] at h
      cases h
  · intro h
    obtain ⟨z, hz, hval⟩ := h
    rw [strtoll_number hz]
    rcases hval with rfl | hnone
    · rfl
    · rw [hnone]
      rfl

theorem parseRange_fields {spec before after : Bytes} (h : strchr 45 spec = some (before, after))
    (r : HttpRequest) :
    (parseRange spec r).rangeStart = rangeField spec ∧
      (parseRange spec r).rangeEnd =
        if before = [] then r.rangeEnd else if after = [] then -1 else rangeField after := by
  unfold parseRange
  rw [h]
  dsimp only
  split
  · exact ⟨rfl, rfl⟩
  · split <;> exact ⟨rfl, rfl⟩

/-- `bytes=` and two numbers with a dash between them, one of which may be missing. -/
def WellFormedRange (value : Bytes) : Prop :=
  ∃ a b : Bytes, value = ascii "bytes=" ++ (a ++ 45 :: b) ∧ (∀ c ∈ a, isDigit c = true) ∧
    (∀ c ∈ b, isDigit c = true) ∧ (a ≠ [] ∨ b ≠ [])

def NoRange (r : HttpRequest) : Prop := r.rangeStart = -1 ∧ r.rangeEnd = -1

/-- A request without a range has none after this line either, and the file is served whole. -/
def LeavesNoRange (line : Bytes) : Prop :=
  ∀ r, NoRange r → NoRange (parseHeader line r) ∧
    ∀ len, byteRange len (parseHeader line r).rangeStart (parseHeader line r).rangeEnd = .whole

/-- The value has no range with a dash, or its numbers are read as none: the one at its head, and
the one behind the dash unless the dash is its first or its last character. -/
def NothingRead (value : Bytes) : Prop :=
  ∀ spec before after, value = ascii "bytes=" ++ spec → strchr 45 spec = some (before, after) →
    ReadsAsNone spec ∧ (before ≠ [] → after ≠ [] → ReadsAsNone after)

theorem parseRange_noRange_iff {spec : Bytes} {r : HttpRequest} (hr : NoRange r) :
    NoRange (parseRange spec r) ↔ ∀ before after, strchr 45 spec = some (before, after) →
      ReadsAsNone spec ∧ (before ≠ [] → after ≠ [] → ReadsAsNone after) := by
  constructor
  · intro h before after hdash
    obtain ⟨hstart, hstop⟩ := h
    obtain ⟨hs, he⟩ := parseRange_fields hdash r
    rw [hs, rangeField_none] at hstart
    refine ⟨hstart, ?_⟩
    intro hbefore hafter
    rw [he, if_neg hbefore, if_neg hafter, rangeField_none] at hstop
    exact hstop
  · intro h
    cases hdash : strchr 45 spec with
    | none =>
      unfold parseRange
      rw [hdash]
      exact hr
    | some parts =>
      obtain ⟨before, after⟩ := parts
      obtain ⟨hstart, hstop⟩ := h before after hdash
      obtain ⟨hs, he⟩ := parseRange_fields hdash r
      refine ⟨hs.trans (rangeField_none.mpr hstart), he.trans ?_⟩
      split
      · exact hr.2
      · split
        · rfl
        · exact rangeField_none.mpr (hstop ‹_› ‹_›)

theorem leavesNoRange_iff {line value : Bytes} (h : IsRange line value) :
    LeavesNoRange line ↔ NothingRead value := by
  constructor
  · intro hleaves spec before after hvalue hdash
    rw [hvalue] at h
    have hnone := (hleaves (emptyRequest 0) ⟨rfl, rfl⟩).1
    rw [parseHeader_bytes h] at hnone
    exact (parseRange_noRange_iff ⟨rfl, rfl⟩).mp hnone before after hdash
  · intro hnothing r hr
    have hnone : NoRange (parseHeader line r) := by
      by_cases hpre : ascii "bytes=" <+: value
      · obtain ⟨spec, rfl⟩ := hpre
        rw [parseHeader_bytes h]
        exact (parseRange_noRange_iff hr).mpr fun before after =>
          hnothing spec before after rfl
      · rw [parseHeader_range h, if_neg (mt List.isPrefixOf_iff_prefix.mp hpre)]
        exact hr
    refine ⟨hnone, ?_⟩
    intro len
    exact if_pos hnone.1

/-- A value that is no range leaves the request without one exactly when nothing is read in
it. -/
theorem illFormed_ignored_iff {line value : Bytes} (h : IsRange line value) :
    (¬ WellFormedRange value → LeavesNoRange line) ↔
      WellFormedRange value ∨ NothingRead value := by
  rw [leavesNoRange_iff h, or_iff_not_imp_left]

theorem trailing_isRange : IsRange (ascii "Range: bytes=5x-9") (ascii "bytes=5x-9") :=
  ⟨ascii "Range", ascii " bytes=5x-9", rfl, by decide, by decide⟩

theorem illFormed_ignored_trailing :
    (¬ WellFormedRange (ascii "bytes=5x-9") → LeavesNoRange (ascii "Range: bytes=5x-9")) ↔
      WellFormedRange (ascii "bytes=5x-9") ∨ NothingRead (ascii "bytes=5x-9") :=
  illFormed_ignored_iff trailing_isRange

theorem illFormed_read :
    ¬ (¬ WellFormedRange (ascii "bytes=5x-9") → LeavesNoRange (ascii "Range: bytes=5x-9")) := by
  intro h
  have hill : ¬ WellFormedRange (ascii "bytes=5x-9") := by
    intro hwell
    obtain ⟨a, b, hvalue, ha, -⟩ := hwell
    have hsplit : ascii "bytes=" ++ ascii "5x-9" = ascii "bytes=" ++ (a ++ 45 :: b) := hvalue
    have hspec := List.append_cancel_left hsplit
    have hdash := strchr_append b fun h45 => (digit_ok 45 (ha 45 h45)).2.2 rfl
    rw [← hspec] at hdash
    have hcut : strchr 45 (ascii "5x-9") = some (ascii "5x", ascii "9") := rfl
    rw [hcut] at hdash
    cases hdash
    exact absurd (ha 120 (by decide)) (by decide)
  obtain ⟨⟨hstart, -⟩, -⟩ := h hill (emptyRequest 0) ⟨rfl, rfl⟩
  exact absurd hstart (by decide)

/-! ### Ranges that are asked for -/

/-- The digits of a number that fits in 64 bits. -/
structure Number where
  digits : Bytes
  digits_ne : digits ≠ []
  digits_ok : ∀ c ∈ digits, isDigit c = true
  fits : (digitsValue digits : ℤ) ≤ int64Max

def Number.value (n : Number) : ℕ := digitsValue n.digits

inductive RangeSpec where
  | closed (a b : Number)
  | openEnd (a : Number)
  | suffix (n : Number)

def RangeSpec.text : RangeSpec → Bytes
  | .closed a b => a.digits ++ 45 :: b.digits
  | .openEnd a => a.digits ++ [45]
  | .suffix n => 45 :: n.digits

def SendsPart (data : Bytes) (resp : Response) (first last : ℕ) : Prop :=
  resp.status = 206 ∧ resp.body = (data.drop first).take (last + 1 - first)

/-- What a range asks for: the part of it that the file has, or 416 where it begins behind the
end. -/
def RangeSpec.Answered (data : Bytes) (resp : Response) : RangeSpec → Prop
  | .closed a b =>
    (a.value ≤ b.value → a.value < data.length →
      SendsPart data resp a.value (min b.value (data.length - 1))) ∧
    (data.length ≤ a.value → resp.status = 416)
  | .openEnd a =>
    (a.value < data.length → SendsPart data resp a.value (data.length - 1)) ∧
    (data.length ≤ a.value → resp.status = 416)
  | .suffix n =>
    1 ≤ n.value → SendsPart data resp (data.length - min n.value data.length) (data.length - 1)

theorem Number.hasNumber (n : Number) {rest : Bytes}
    (hrest : ∀ c ∈ rest.head?, isDigit c = false) : HasNumber (n.digits ++ rest) n.value :=
  ⟨[], [], n.digits, rest, rfl, by simp, Or.inl rfl, n.digits_ne, n.digits_ok, hrest, rfl⟩

theorem Number.field (n : Number) {rest : Bytes} (hrest : ∀ c ∈ rest.head?, isDigit c = false) :
    rangeField (n.digits ++ rest) = n.value := by
  have hfits : (n.value : ℤ) ≤ int64Max := n.fits
  unfold rangeField
  rw [strtoll_number (n.hasNumber hrest),
    int64Of_some (le_trans (by decide) (Int.natCast_nonneg _)) hfits]
  rfl

theorem Number.suffix_field (n : Number) : rangeField (45 :: n.digits) = -(n.value : ℤ) := by
  have hnum : HasNumber (45 :: n.digits) (-(n.value : ℤ)) :=
    ⟨[], [45], n.digits, [], by simp, by simp, Or.inr (Or.inr rfl), n.digits_ne, n.digits_ok,
      by simp, rfl⟩
  have hfits : (n.value : ℤ) ≤ int64Max := n.fits
  have hmax : int64Max = 9223372036854775807 := rfl
  have hmin : int64Min = -9223372036854775808 := rfl
  unfold rangeField
  rw [strtoll_number hnum, int64Of_some (by omega) (by omega)]
  rfl

theorem Number.no_dash (n : Number) : 45 ∉ n.digits :=
  fun h => (digit_ok 45 (n.digits_ok 45 h)).2.2 rfl

def RangeSpec.start : RangeSpec → ℤ
  | .closed a _ => a.value
  | .openEnd a => a.value
  | .suffix n => -n.value

def RangeSpec.stop : RangeSpec → ℤ
  | .closed _ b => b.value
  | .openEnd _ => -1
  | .suffix _ => -1

theorem RangeSpec.fields (spec : RangeSpec) {r : HttpRequest} (hr : r.rangeEnd = -1) :
    (parseRange spec.text r).rangeStart = spec.start ∧
      (parseRange spec.text r).rangeEnd = spec.stop := by
  cases spec with
  | closed a b =>
    have hdash : strchr 45 (RangeSpec.closed a b).text = some (a.digits, b.digits) :=
      strchr_append _ a.no_dash
    obtain ⟨hs, he⟩ := parseRange_fields hdash r
    rw [if_neg a.digits_ne, if_neg b.digits_ne] at he
    refine ⟨hs.trans (a.field ?_), he.trans ?_⟩
    · intro c hc
      cases hc
      rfl
    · have hfield : rangeField (b.digits ++ []) = b.value := b.field (by simp)
      rwa [List.append_nil] at hfield
  | openEnd a =>
    have hdash : strchr 45 (RangeSpec.openEnd a).text = some (a.digits, []) :=
      strchr_append _ a.no_dash
    obtain ⟨hs, he⟩ := parseRange_fields hdash r
    rw [if_neg a.digits_ne, if_pos rfl] at he
    refine ⟨hs.trans (a.field ?_), he⟩
    intro c hc
    cases hc
    rfl
  | suffix n =>
    have hdash : strchr 45 (RangeSpec.suffix n).text = some ([], n.digits) := rfl
    obtain ⟨hs, he⟩ := parseRange_fields hdash r
    rw [if_pos rfl, hr] at he
    exact ⟨hs.trans n.suffix_field, he⟩

theorem clipRange_inside {len first last : ℤ} (h0 : 0 ≤ first) (hfl : first ≤ last)
    (hlen : first < len) : clipRange len first last = .part first (min last (len - 1)) := by
  have hend : (if len ≤ last then len - 1 else last) = min last (len - 1) := by
    split <;> omega
  unfold clipRange
  dsimp only
  rw [if_neg (not_lt.mpr h0), hend, if_neg (by omega)]

theorem clipRange_behind {len first last : ℤ} (h0 : 0 ≤ first) (hlen : len ≤ first) :
    clipRange len first last = .unsatisfiable := by
  unfold clipRange
  dsimp only
  rw [if_neg (not_lt.mpr h0), if_pos (Or.inr hlen)]

theorem byteRange_from (len stop : ℤ) (a : ℕ) :
    byteRange len a stop = clipRange len a (if 0 ≤ stop then stop else len - 1) := by
  unfold byteRange
  rw [if_neg (by omega), if_neg (by omega)]

theorem byteRange_suffix {len n : ℕ} (hlen : 0 < len) (hn : 1 < n) :
    byteRange len (-(n : ℤ)) (-1) = .part ((len - min n len : ℕ) : ℤ) ((len - 1 : ℕ) : ℤ) := by
  have hfirst : (if (len : ℤ) + -(n : ℤ) < 0 then (0 : ℤ) else len + -(n : ℤ)) =
      ((len - min n len : ℕ) : ℤ) := by
    split <;> omega
  have hlast : min ((len : ℤ) - 1) (len - 1) = ((len - 1 : ℕ) : ℤ) := by omega
  unfold byteRange
  rw [if_neg (by omega), if_pos (by omega), hfirst,
    clipRange_inside (by omega) (by omega) (by omega), hlast]

theorem AnswersRange.part {data : Bytes} {req : HttpRequest} {resp : Response} {first last : ℕ}
    (hget : req.method = .get)
    (h : AnswersRange data req resp ((ByteRange.part first last).result data.length)) :
    SendsPart data resp first last := by
  obtain ⟨hstatus, ⟨-, -, -, -, hbody⟩, -⟩ := h
  refine ⟨hstatus, ?_⟩
  rw [hbody, if_neg (by rw [hget]; decide), Int.toNat_natCast]
  congr 1
  omega

/-- The range of the last byte alone, whose field says that there is no range. -/
def RangeSpec.LastByte (spec : RangeSpec) : Prop := ∃ n, spec = .suffix n ∧ n.value = 1

theorem RangeSpec.answered_closed {data : Bytes} {req : HttpRequest} {resp : Response}
    (a b : Number) (hget : req.method = .get)
    (h : AnswersRange data req resp
      ((byteRange data.length a.value b.value).result data.length)) :
    (RangeSpec.closed a b).Answered data resp := by
  rw [byteRange_from, if_pos (Int.natCast_nonneg _)] at h
  constructor
  · intro hab hlt
    have hlast : min (b.value : ℤ) (data.length - 1) =
        ((min b.value (data.length - 1) : ℕ) : ℤ) := by omega
    rw [clipRange_inside (by omega) (by omega) (by omega), hlast] at h
    exact h.part hget
  · intro hbehind
    rw [clipRange_behind (by omega) (by omega)] at h
    exact h

theorem RangeSpec.answered_openEnd {data : Bytes} {req : HttpRequest} {resp : Response}
    (a : Number) (hget : req.method = .get)
    (h : AnswersRange data req resp ((byteRange data.length a.value (-1)).result data.length)) :
    (RangeSpec.openEnd a).Answered data resp := by
  rw [byteRange_from, if_neg (by decide)] at h
  constructor
  · intro hlt
    have hlast : min ((data.length : ℤ) - 1) (data.length - 1) =
        ((data.length - 1 : ℕ) : ℤ) := by omega
    rw [clipRange_inside (by omega) (by omega) (by omega), hlast] at h
    exact h.part hget
  · intro hbehind
    rw [clipRange_behind (by omega) (by omega)] at h
    exact h

theorem RangeSpec.answered_suffix_iff {data : Bytes} {req : HttpRequest} {resp : Response}
    (n : Number) (hdata : 0 < data.length) (hget : req.method = .get)
    (h : AnswersRange data req resp
      ((byteRange data.length (-(n.value : ℤ)) (-1)).result data.length)) :
    (RangeSpec.suffix n).Answered data resp ↔ n.value ≠ 1 := by
  constructor
  · intro hanswered hone
    -- the field has the value for no range, and the whole file is sent
    rw [hone, show byteRange data.length (-((1 : ℕ) : ℤ)) (-1) = .whole from if_pos rfl] at h
    have hstatus := (hanswered hone.ge).1
    rw [h.1] at hstatus
    cases hstatus
  · intro hmore hpos
    rw [byteRange_suffix hdata (lt_of_le_of_ne hpos hmore.symm)] at h
    exact h.part hget

theorem RangeSpec.answered_iff {data : Bytes} {req : HttpRequest} {resp : Response}
    (spec : RangeSpec) (hdata : 0 < data.length) (hget : req.method = .get)
    (h : AnswersRange data req resp
      ((byteRange data.length spec.start spec.stop).result data.length)) :
    spec.Answered data resp ↔ ¬ spec.LastByte := by
  cases spec with
  | closed a b =>
    apply iff_of_true (answered_closed a b hget h)
    intro hlast
    obtain ⟨n, hn, -⟩ := hlast
    cases hn
  | openEnd a =>
    apply iff_of_true (answered_openEnd a hget h)
    intro hlast
    obtain ⟨n, hn, -⟩ := hlast
    cases hn
  | suffix n =>
    rw [answered_suffix_iff n hdata hget h]
    apply not_congr
    constructor
    · intro hone
      exact ⟨n, rfl, hone⟩
    · intro hlast
      obtain ⟨m, hm, hone⟩ := hlast
      cases hm
      exact hone

theorem fileServe_spec {svc : Services} {entry : VfsEntry} {r : HttpRequest} {line : Bytes}
    {spec : RangeSpec} (keepAlive : Bool) (hline : IsRange line (ascii "bytes=" ++ spec.text))
    (hget : r.method = .get) (hnone : NoRange r)
    (hfile : svc.vfsLookup (vfsPath r.path.bytes) = some entry) (htag : ¬ TagMatches r entry) :
    ∃ req resp, req.method = .get ∧
      fileServe svc (parseHeader line r) keepAlive = some resp ∧
      AnswersRange entry.file.bytes req resp
        ((byteRange entry.file.bytes.length spec.start spec.stop).result
          entry.file.bytes.length) := by
  have hframe := (parseRange_frame spec.text r).1
  have hmethod := (congrArg RequestLine.method hframe).trans hget
  have hpath : (parseRange spec.text r).path = r.path := congrArg RequestLine.path hframe
  have htag' : ¬ TagMatches (parseRange spec.text r) entry := by
    unfold TagMatches
    rw [show (parseRange spec.text r).ifNoneMatch.bytes = r.ifNoneMatch.bytes from
      TextField.text_parseRange .ifNoneMatch spec.text r]
    exact htag
  obtain ⟨hstart, hstop⟩ := spec.fields hnone.2
  obtain ⟨resp, hresp, hanswer⟩ := serveEntry_range svc keepAlive htag'
  rw [hstart, hstop] at hanswer
  refine ⟨_, resp, hmethod, ?_, hanswer⟩
  rw [parseHeader_bytes hline]
  unfold fileServe
  rw [hpath, hfile, if_neg]
  · exact hresp
  · intro hother
    rw [show (parseRange spec.text r).method = .get from hmethod] at hother
    cases hother

/-- A GET request that asks for a single range of a file is answered as the range says, unless it
asks for the last byte alone. -/
theorem rangeSpec_answered_iff {svc : Services} {entry : VfsEntry} {r : HttpRequest} {line : Bytes}
    (spec : RangeSpec) (keepAlive : Bool) (hline : IsRange line (ascii "bytes=" ++ spec.text))
    (hget : r.method = .get) (hnone : NoRange r)
    (hfile : svc.vfsLookup (vfsPath r.path.bytes) = some entry)
    (hdata : 0 < entry.file.bytes.length) (htag : ¬ TagMatches r entry) :
    ∃ resp, fileServe svc (parseHeader line r) keepAlive = some resp ∧
      (spec.Answered entry.file.bytes resp ↔ ¬ spec.LastByte) := by
  obtain ⟨req, resp, hmethod, hresp, hanswer⟩ :=
    fileServe_spec keepAlive hline hget hnone hfile htag
  exact ⟨resp, hresp, spec.answered_iff hdata hmethod hanswer⟩

/-- `bytes=-1`, and a range that is answered. -/
def one : Number where
  digits := ascii "1"
  digits_ne := by decide
  digits_ok := by decide +kernel
  fits := by decide

theorem rangeSpec_answered_small :
    ∃ resp, fileServe smallServices (parseHeader (ascii "Range: bytes=1-1") (emptyRequest 0)) true =
        some resp ∧
      ((RangeSpec.closed one one).Answered smallFile.file.bytes resp ↔
        ¬ (RangeSpec.closed one one).LastByte) :=
  rangeSpec_answered_iff (.closed one one) true
    ⟨ascii "Range", ascii " bytes=1-1", rfl, by decide, by decide⟩ rfl ⟨rfl, rfl⟩ rfl (by decide)
    fun h => h.1 rfl

theorem lastByte_whole : ∃ resp,
    fileServe smallServices (parseHeader (ascii "Range: bytes=-1") (emptyRequest 0)) true =
      some resp ∧ ¬ (RangeSpec.suffix one).Answered smallFile.file.bytes resp := by
  have hline : IsRange (ascii "Range: bytes=-1") (ascii "bytes=" ++ (RangeSpec.suffix one).text) :=
    ⟨ascii "Range", ascii " bytes=-1", rfl, by decide, by decide⟩
  have hfile : smallServices.vfsLookup (vfsPath (emptyRequest 0).path.bytes) = some smallFile := rfl
  obtain ⟨req, resp, hmethod, hresp, hanswer⟩ :=
    fileServe_spec true hline rfl ⟨rfl, rfl⟩ hfile fun h => h.1 rfl
  refine ⟨resp, hresp, ?_⟩
  rw [(RangeSpec.suffix one).answered_iff (by decide) hmethod hanswer]
  exact fun hnot => hnot ⟨one, rfl, by decide⟩

end LocalMarks.Http

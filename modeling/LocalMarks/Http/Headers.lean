import LocalMarks.Http.InPlace

/-!
# What the headers say

The text fields of a request hold the last header of their name, whatever other headers there
are.
-/

namespace LocalMarks.Http
open LocalMarks.Lib

/-! ### Fields -/

inductive TextField where
  | host
  | auth
  | connection
  | ifNoneMatch
  | ifModifiedSince
  deriving DecidableEq

def TextField.header : TextField → Bytes
  | .host => ascii "host"
  | .auth => ascii "authorization"
  | .connection => ascii "connection"
  | .ifNoneMatch => ascii "if-none-match"
  | .ifModifiedSince => ascii "if-modified-since"

def TextField.size : TextField → ℕ
  | .host => 256
  | .auth => 512
  | .connection => 32
  | .ifNoneMatch => 128
  | .ifModifiedSince => 64

def TextField.text (f : TextField) (r : HttpRequest) : Bytes :=
  match f with
  | .host => r.host.bytes
  | .auth => r.auth.bytes
  | .connection => r.connection.bytes
  | .ifNoneMatch => r.ifNoneMatch.bytes
  | .ifModifiedSince => r.ifModifiedSince.bytes

theorem TextField.header_length (f : TextField) : f.header.length < 255 := by
  cases f <;> decide

theorem TextField.text_empty (f : TextField) (n : ℕ) : f.text (emptyRequest n) = [] := by
  cases f <;> rfl

theorem TextField.text_withParts (f : TextField) (r : HttpRequest) (p : LineParts) :
    f.text (r.withParts p) = f.text r := by
  cases f <;> rfl

theorem TextField.text_parseRange (f : TextField) (spec : Bytes) (r : HttpRequest) :
    f.text (parseRange spec r) = f.text r := by
  unfold parseRange
  split
  · rfl
  · dsimp only
    repeat' split
    all_goals cases f <;> rfl

/-! ### One header -/

theorem nameCopy_iff (name : Bytes) {known : Bytes} (h : known.length < 255) :
    (name.take 255).map lowerByte = known ↔ name.map lowerByte = known := by
  by_cases hlen : name.length ≤ 255
  · rw [List.take_of_length_le hlen]
  · refine iff_of_false ?_ ?_ <;> intro heq <;> have hcut := congrArg List.length heq
    · rw [List.length_map, List.length_take] at hcut
      omega
    · rw [List.length_map] at hcut
      omega

theorem HeaderLine.cut (h : HeaderLine) :
    strchr 58 h.line = some (h.name, h.value) ∧ trim h.name = h.name := by
  constructor
  · exact strchr_append h.value fun hc => (h.name_ok 58 hc).2.1 rfl
  · exact trim_of_no_space fun c hc => (h.name_ok c hc).2.2

theorem HeaderLine.value_nul_free (h : HeaderLine) : 0 ∉ trim h.value :=
  fun hmem => (h.value_ok 0 ((trim_part h.value).subset hmem)).1 rfl

theorem parseHeader_field (h : HeaderLine) (f : TextField) (r : HttpRequest) :
    f.text (parseHeader h.line r) =
      if h.name.map lowerByte = f.header then (trim h.value).take (f.size - 1) else f.text r := by
  have hvalue := cstr_of_nul_free h.value_nul_free
  have hcopy := nameCopy_iff h.name f.header_length
  unfold parseHeader
  rw [h.cut.1]
  dsimp only
  rw [h.cut.2]
  by_cases hname : h.name.map lowerByte = f.header
  · rw [if_pos hname, hcopy.mpr hname]
    refine Eq.trans ?_ (congrArg (List.take _) hvalue)
    cases f <;> rfl
  · rw [if_neg hname]
    rw [← hcopy] at hname
    repeat' split
    all_goals
      cases f <;> first
        | rfl
        | exact absurd ‹_› hname
        | exact TextField.text_parseRange _ _ _

/-! ### All headers -/

/-- The value of the last header of that name, without the blanks around it. -/
def lastValue (hs : List HeaderLine) (name : Bytes) : Bytes :=
  ((hs.filter fun h => h.name.map lowerByte = name).getLast?.map fun h => trim h.value).getD []

theorem lastValue_concat (hs : List HeaderLine) (h : HeaderLine) (name : Bytes) :
    lastValue (hs ++ [h]) name =
      if h.name.map lowerByte = name then trim h.value else lastValue hs name := by
  unfold lastValue
  rw [List.filter_append]
  split <;> rename_i hname
  · rw [List.filter_cons_of_pos (by simpa using hname), List.filter_nil, List.getLast?_concat]
    rfl
  · rw [List.filter_cons_of_neg (by simpa using hname), List.filter_nil, List.append_nil]

theorem foldl_field (f : TextField) {r : HttpRequest} (hr : f.text r = []) (hs : List HeaderLine) :
    f.text ((hs.map HeaderLine.line).foldl parseHeaderLine r) =
      (lastValue hs f.header).take (f.size - 1) := by
  induction hs using List.reverseRecOn with
  | nil =>
    rw [List.map_nil, List.foldl_nil, hr]
    exact List.take_nil.symm
  | append_singleton hs h ih =>
    have hne : h.line ≠ [] := List.append_ne_nil_of_left_ne_nil h.name_ne _
    rw [List.map_append, List.map_singleton, List.foldl_concat, parseHeaderLine, if_neg hne,
      parseHeader_field, lastValue_concat, ih]
    split <;> rfl

/-! ### The block -/

/-- A line that `parse_request_line` accepts. -/
structure FirstLine where
  line : Bytes
  nul_free : 0 ∉ line
  one_line : ¬ crlf <:+: line
  accepted : ¬ Refused line

def requestLines (first : FirstLine) (hs : List HeaderLine) : List Bytes :=
  first.line :: hs.map HeaderLine.line

theorem FirstLine.line_ne (first : FirstLine) : first.line ≠ [] := by
  intro hnil
  apply first.accepted
  rw [hnil]
  intro p hp
  cases hp

theorem requestLines_ok (first : FirstLine) (hs : List HeaderLine) :
    ∀ line ∈ requestLines first hs, line ≠ [] ∧ 0 ∉ line ∧ ¬ crlf <:+: line := by
  intro line hline
  rcases List.mem_cons.mp hline with rfl | hline
  · exact ⟨first.line_ne, first.nul_free, first.one_line⟩
  · obtain ⟨h, -, rfl⟩ := List.mem_map.mp hline
    exact ⟨List.append_ne_nil_of_left_ne_nil h.name_ne _, fun hc => (h.line_ok 0 hc).1 rfl,
      crlf_free fun c hc => (h.line_ok c hc).2⟩

theorem requestLines_block (first : FirstLine) (hs : List HeaderLine) :
    EndsAtBlank (blockOf (requestLines first hs)) ∧ 0 ∉ blockOf (requestLines first hs) ∧
      splitLines (blockOf (requestLines first hs)) = requestLines first hs ++ [[]] := by
  have hok := requestLines_ok first hs
  refine ⟨?_, ?_, ?_⟩
  · exact blockOf_ends (fun line h => (hok line h).2.2) (fun line h => (hok line h).1)
      (List.cons_ne_nil _ _)
  · exact blockOf_nul_free fun line h => (hok line h).2.1
  · exact splitLines_blockOf fun line h => (hok line h).2.2

theorem requestLines_parsed (first : FirstLine) (hs : List HeaderLine) :
    ∃ p req, lineParts first.line = some p ∧
      parseBlock (blockOf (requestLines first hs)) = some req ∧ TakenFrom req p ∧
      ∀ f : TextField, f.text req = (lastValue hs f.header).take (f.size - 1) := by
  obtain ⟨-, hnul, hsplit⟩ := requestLines_block first hs
  have hblock : splitLines (cstr (blockOf (requestLines first hs))) =
      first.line :: (hs.map HeaderLine.line ++ [[]]) := by
    rw [cstr_of_nul_free hnul, hsplit]
    rfl
  generalize hn : (blockOf (requestLines first hs)).length = n
  cases hr : parseRequestLine first.line (emptyRequest n) with
  | none => exact absurd (parseRequestLine_none.mp hr) first.accepted
  | some r =>
    obtain ⟨p, hp, rfl, htrav⟩ := parseRequestLine_parts hr
    obtain ⟨req, hreq⟩ := parseBlock_accepted hblock hp htrav
    refine ⟨p, req, hp, hreq, (parseBlock_takenFrom hblock hp hreq).1, ?_⟩
    intro f
    unfold parseBlock at hreq
    rw [hblock, hn] at hreq
    dsimp only at hreq
    rw [hr, Option.map_some] at hreq
    cases hreq
    rw [List.foldl_append]
    refine foldl_field f ?_ hs
    rw [f.text_withParts, f.text_empty]

/-! ### Headers as they are sent -/

def isToken (c : Byte) : Bool :=
  isDigit c || (65 ≤ c && c ≤ 90) || (97 ≤ c && c ≤ 122) ||
    [33, 35, 36, 37, 38, 39, 42, 43, 45, 46, 94, 95, 96, 124, 126].contains c

/-- A header: a token, and a value of printable characters with no blank at either end. -/
structure Header where
  name : Bytes
  value : Bytes
  name_ne : name ≠ []
  name_token : ∀ c ∈ name, isToken c = true
  value_printable : ∀ c ∈ value, 32 ≤ c ∧ c ≤ 126
  value_first : value.head? ≠ some 32
  value_last : value.getLast? ≠ some 32

def Header.text (h : Header) : Bytes := h.name ++ (ascii ": " ++ h.value)

/-- The value of the last header of that name, whatever the case of its letters. -/
def lastSent (hs : List Header) (name : Bytes) : Bytes :=
  ((hs.filter fun h => h.name.map lowerByte = name).getLast?.map Header.value).getD []

theorem isToken_ok : ∀ c, isToken c = true → c ≠ 0 ∧ c ≠ 58 ∧ isSpace c = false := by
  apply every_byte
  decide +kernel

theorem printable_ok : ∀ c : Byte, 32 ≤ c ∧ c ≤ 126 →
    (c ≠ 0 ∧ c ≠ 10 ∧ c ≠ 13) ∧ (c ≠ 32 → isSpace c = false) := by
  apply every_byte
  decide +kernel

def Header.toLine (h : Header) : HeaderLine where
  name := h.name
  value := 32 :: h.value
  name_ne := h.name_ne
  name_ok c hc := isToken_ok c (h.name_token c hc)
  value_ok := by
    intro c hc
    rcases List.mem_cons.mp hc with rfl | hc
    · decide
    · exact (printable_ok c (h.value_printable c hc)).1

theorem Header.trim_value (h : Header) : trim h.toLine.value = h.value := by
  have hblank : ∀ c ∈ h.value, c ≠ 32 → isSpace c = false :=
    fun c hc => (printable_ok c (h.value_printable c hc)).2
  refine (trim_cons_space (by decide)).trans (trim_of_ends ?_ ?_)
  · intro c hc
    exact hblank c (List.mem_of_mem_head? hc) fun h32 => h.value_first (h32 ▸ hc)
  · intro c hc
    exact hblank c (List.mem_of_mem_getLast? hc) fun h32 => h.value_last (h32 ▸ hc)

theorem lastSent_eq (hs : List Header) (name : Bytes) :
    lastValue (hs.map Header.toLine) name = lastSent hs name := by
  unfold lastValue lastSent
  rw [List.filter_map, List.getLast?_map, Option.map_map]
  congr 2
  funext h
  exact h.trim_value

theorem headerLines_eq (first : FirstLine) (hs : List Header) :
    first.line :: hs.map Header.text = requestLines first (hs.map Header.toLine) := by
  rw [requestLines, List.map_map]
  rfl

theorem delivered_fields {block : Bytes} (d : Delivery block) (first : FirstLine) (hs : List Header)
    (hblock : block = blockOf (first.line :: hs.map Header.text)) (hfit : block.length ≤ 8190)
    (byte : ℕ → Byte) :
    ∃ req t', httpParseRequestMem d.conn true byte = .ok block req t' ∧
      ∀ f : TextField, f.text req = (lastSent hs f.header).take (f.size - 1) := by
  rw [headerLines_eq] at hblock
  subst hblock
  obtain ⟨hends, -, -⟩ := requestLines_block first (hs.map Header.toLine)
  obtain ⟨p, req, -, hreq, -, htext⟩ := requestLines_parsed first (hs.map Header.toLine)
  obtain ⟨t', hparse⟩ := d.parse hends (Nat.lt_of_le_of_lt hfit (by decide))
  rw [blockResult, hreq] at hparse
  refine ⟨req, t', (httpParseRequestMem_eq d.conn true byte).trans hparse, ?_⟩
  intro f
  rw [htext f, lastSent_eq]

/-- Parsing in place undoes the writing of the headers: each text field holds the value of the
last header of its name, cut to the size of the field, whatever the others are, however the block
arrives and whatever the raw buffer held before. -/
theorem headers_roundTrip (first : FirstLine) (hs : List Header)
    (d : Delivery (blockOf (first.line :: hs.map Header.text)))
    (hfit : (blockOf (first.line :: hs.map Header.text)).length ≤ 8190) (byte : ℕ → Byte) :
    ∃ req t', httpParseRequestMem d.conn true byte =
        .ok (blockOf (first.line :: hs.map Header.text)) req t' ∧
      ∀ f : TextField, f.text req = (lastSent hs f.header).take (f.size - 1) :=
  delivered_fields d first hs rfl hfit byte

/-- A request line, and two headers of one name. -/
def rootLine : FirstLine where
  line := ascii "GET / HTTP/1.1"
  nul_free := by decide
  one_line := crlf_free (by decide +kernel)
  accepted := by
    have hparts : lineParts (ascii "GET / HTTP/1.1") =
        some ⟨ascii "GET", ascii "/", ascii "HTTP/1.1"⟩ := rfl
    rw [refused_iff hparts]
    unfold PathTraverses
    decide

def firstHost : Header where
  name := ascii "Host"
  value := ascii "first"
  name_ne := by decide
  name_token := by decide +kernel
  value_printable := by decide +kernel
  value_first := by decide
  value_last := by decide

def secondHost : Header where
  name := ascii "HOST"
  value := ascii "second"
  name_ne := by decide
  name_token := by decide +kernel
  value_printable := by decide +kernel
  value_first := by decide
  value_last := by decide

def hostDelivery :
    Delivery (blockOf (rootLine.line :: [firstHost, secondHost].map Header.text)) where
  rest := []
  sizes := [20, 4096]
  later := []
  pos := by decide
  enough := by decide +kernel

theorem headers_roundTrip_host : ∃ req t', httpParseRequestMem hostDelivery.conn true (fun _ => 1) =
      .ok (blockOf (rootLine.line :: [firstHost, secondHost].map Header.text)) req t' ∧
    ∀ f : TextField, f.text req =
      (lastSent [firstHost, secondHost] f.header).take (f.size - 1) :=
  headers_roundTrip rootLine [firstHost, secondHost] hostDelivery (by decide +kernel) fun _ => 1

end LocalMarks.Http

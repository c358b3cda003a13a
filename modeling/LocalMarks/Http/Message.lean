import LocalMarks.Http.Request
import Mathlib.Data.List.Induction

/-!
# Well-formed requests

The header blocks that a client sends: what they look like and what `http_parse_request` makes
of one of them.
-/

namespace LocalMarks.Http
open LocalMarks.Lib

/-- A header, with everything behind the colon as its value. -/
structure HeaderLine where
  name : Bytes
  value : Bytes
  name_ne : name ≠ []
  name_ok : ∀ c ∈ name, c ≠ 0 ∧ c ≠ 58 ∧ isSpace c = false
  value_ok : ∀ c ∈ value, c ≠ 0 ∧ c ≠ 10 ∧ c ≠ 13

def HeaderLine.line (h : HeaderLine) : Bytes := h.name ++ 58 :: h.value

/-- An HTTP/1.1 request for GET or HEAD without a body that does not ask for the end of the
connection. -/
structure Message where
  head : Bool
  target : Bytes
  headers : List HeaderLine
  target_ne : target ≠ []
  target_ok : ∀ c ∈ target, c ≠ 0 ∧ isSpace c = false
  stays : ∀ h ∈ headers, h.name.map lowerByte = ascii "connection" →
    strcasestr h.value (ascii "close") = false

def Message.methodName (m : Message) : Bytes := if m.head then ascii "HEAD" else ascii "GET"

def Message.requestLine (m : Message) : Bytes :=
  m.methodName ++ 32 :: (m.target ++ 32 :: ascii "HTTP/1.1")

def Message.lines (m : Message) : List Bytes := m.requestLine :: m.headers.map HeaderLine.line

def blockOf (lines : List Bytes) : Bytes := (lines.map (· ++ crlf)).flatten ++ crlf

/-- The bytes of the header block. -/
def Message.block (m : Message) : Bytes := (m.lines.map (· ++ crlf)).flatten ++ crlf

def Message.path (m : Message) : FieldString 4096 :=
  fieldOf 4096 (Nat.succ_pos _) (httpUrlDecode 4096 ((strchr 63 m.target).getD (m.target, [])).1)

/-- The path contains `..`, which `parse_request_line` refuses. -/
def Message.Traverses (m : Message) : Prop := (strstr (ascii "..") m.path.bytes).isSome

/-! ### Lines -/

theorem isSpace_cr : isSpace 13 = true := by decide

theorem HeaderLine.line_ok (h : HeaderLine) : ∀ c ∈ h.line, c ≠ 0 ∧ c ≠ 13 := by
  intro c hc
  rcases List.mem_append.mp hc with hc | hc
  · refine ⟨(h.name_ok c hc).1, fun h13 => ?_⟩
    have := (h.name_ok c hc).2.2
    rw [h13, isSpace_cr] at this
    cases this
  · rcases List.mem_cons.mp hc with rfl | hc
    · decide
    · exact ⟨(h.value_ok c hc).1, (h.value_ok c hc).2.2⟩

theorem Message.requestLine_ok (m : Message) : ∀ c ∈ m.requestLine, c ≠ 0 ∧ c ≠ 13 := by
  have hname : ∀ c ∈ m.methodName, c ≠ 0 ∧ c ≠ 13 := by
    unfold methodName
    split <;> decide +kernel
  have hversion : ∀ c ∈ (32 :: ascii "HTTP/1.1" : Bytes), c ≠ 0 ∧ c ≠ 13 := by decide +kernel
  intro c hc
  rcases List.mem_append.mp hc with hc | hc
  · exact hname c hc
  · rcases List.mem_cons.mp hc with rfl | hc
    · decide
    · rcases List.mem_append.mp hc with hc | hc
      · refine ⟨(m.target_ok c hc).1, fun h13 => ?_⟩
        have := (m.target_ok c hc).2
        rw [h13, isSpace_cr] at this
        cases this
      · exact hversion c hc

theorem Message.lines_ok (m : Message) : ∀ line ∈ m.lines, ∀ c ∈ line, c ≠ 0 ∧ c ≠ 13 := by
  intro line hline
  rcases List.mem_cons.mp hline with rfl | hline
  · exact m.requestLine_ok
  · obtain ⟨h, _, rfl⟩ := List.mem_map.mp hline
    exact h.line_ok

theorem Message.lines_ne (m : Message) : ∀ line ∈ m.lines, line ≠ [] := by
  intro line hline
  rcases List.mem_cons.mp hline with rfl | hline
  · exact List.append_ne_nil_of_right_ne_nil _ (List.cons_ne_nil _ _)
  · obtain ⟨h, _, rfl⟩ := List.mem_map.mp hline
    exact List.append_ne_nil_of_left_ne_nil h.name_ne _

theorem blockOf_nul_free {lines : List Bytes} (h : ∀ line ∈ lines, 0 ∉ line) :
    0 ∉ blockOf lines := by
  intro hmem
  rcases List.mem_append.mp hmem with hmem | hmem
  · obtain ⟨l, hl, hmem⟩ := List.mem_flatten.mp hmem
    obtain ⟨line, hline, rfl⟩ := List.mem_map.mp hl
    rcases List.mem_append.mp hmem with hmem | hmem
    · exact h line hline hmem
    · exact absurd hmem (by decide)
  · exact absurd hmem (by decide)

theorem Message.block_nul_free (m : Message) : (0 : Byte) ∉ m.block :=
  blockOf_nul_free fun line hline hmem => (m.lines_ok line hline 0 hmem).1 rfl

theorem splitLines_cons {c : Byte} {rest line : Bytes} {lines : List Bytes}
    (hc : c = 13 → rest.head? ≠ some 10) (h : splitLines rest = line :: lines) :
    splitLines (c :: rest) = (c :: line) :: lines := by
  rw [splitLines, h]
  intro r hc13 hrest
  apply hc hc13
  rw [hrest, List.head?_cons]

theorem splitLines_eq_nil {s : Bytes} (h : splitLines s = []) : s = [] := by
  unfold splitLines at h
  split at h
  · rfl
  · cases h
  · split at h <;> cases h

theorem crlf_free {line : Bytes} (h : ∀ c ∈ line, c ≠ 13) : ¬ crlf <:+: line :=
  fun hin => h 13 (hin.subset (List.mem_cons_self ..)) rfl

theorem splitLines_line {line : Bytes} (h : ¬ crlf <:+: line) (rest : Bytes) :
    splitLines (line ++ crlf ++ rest) = line :: splitLines rest := by
  induction line with
  | nil => rfl
  | cons c cs ih =>
    have hcs : ¬ crlf <:+: cs := fun hin => h (hin.trans (List.suffix_cons c cs).isInfix)
    refine splitLines_cons ?_ (ih hcs)
    intro hc hhead
    cases cs with
    | nil => exact absurd hhead (by simp [crlf])
    | cons d ds =>
      have hd : d = 10 := Option.some.inj hhead
      rw [hc, hd] at h
      exact h (List.prefix_append [13, 10] ds).isInfix

theorem splitLines_lines {lines : List Bytes} (h : ∀ line ∈ lines, ¬ crlf <:+: line)
    (rest : Bytes) : splitLines ((lines.map (· ++ crlf)).flatten ++ rest) =
      lines ++ splitLines rest := by
  induction lines with
  | nil => rfl
  | cons line lines ih =>
    have hlines := ih fun l hl => h l (List.mem_cons_of_mem _ hl)
    rw [List.map_cons, List.flatten_cons, List.append_assoc,
      splitLines_line (h line (List.mem_cons_self ..)), hlines, List.cons_append]

theorem splitLines_blockOf {lines : List Bytes} (h : ∀ line ∈ lines, ¬ crlf <:+: line) :
    splitLines (blockOf lines) = lines ++ [[]] := splitLines_lines h crlf

theorem Message.splitLines_block (m : Message) : splitLines m.block = m.lines ++ [[]] :=
  splitLines_blockOf fun line hline => crlf_free fun c hc => (m.lines_ok line hline c hc).2

theorem splitLines_crlf (before after : Bytes) : ∃ line lines,
    splitLines (before ++ crlf ++ after) = line :: lines ++ splitLines after := by
  induction before using List.twoStepInduction with
  | nil => exact ⟨[], [], rfl⟩
  | singleton c => exact ⟨[c], [], splitLines_cons (fun _ => by simp [crlf]) rfl⟩
  | cons_cons c d rest ih1 ih2 =>
    by_cases hcd : c = 13 ∧ d = 10
    · obtain ⟨rfl, rfl⟩ := hcd
      obtain ⟨line, lines, hlines⟩ := ih1
      exact ⟨[], line :: lines, congrArg (List.cons []) hlines⟩
    · obtain ⟨line, lines, hlines⟩ := ih2 d
      refine ⟨c :: line, lines, splitLines_cons ?_ hlines⟩
      intro hc hd
      exact hcd ⟨hc, Option.some.inj hd⟩

/-! ### The blank line -/

/-- The text ends with a blank line and has no other one. -/
def EndsAtBlank (block : Bytes) : Prop :=
  blankLine <:+ block ∧ ∀ before after, block = before ++ blankLine ++ after → after = []

theorem EndsAtBlank.length {block : Bytes} (h : EndsAtBlank block) : 4 ≤ block.length :=
  h.1.length_le

/-- A block of lines that are not empty has no other blank line than the one at its end. -/
theorem blockOf_ends {lines : List Bytes} (hcrlf : ∀ line ∈ lines, ¬ crlf <:+: line)
    (hne : ∀ line ∈ lines, line ≠ []) (hlines : lines ≠ []) : EndsAtBlank (blockOf lines) := by
  constructor
  · obtain ⟨init, last, heq⟩ := List.eq_nil_or_concat' lines |>.resolve_left hlines
    refine ⟨(init.map (· ++ crlf)).flatten ++ last, ?_⟩
    rw [blockOf, heq]
    simp [blankLine, crlf]
  · intro before after hblock
    obtain ⟨line, front, hfront⟩ := splitLines_crlf before (crlf ++ after)
    have hblank : before ++ blankLine ++ after = before ++ crlf ++ (crlf ++ after) := by
      simp [blankLine, crlf]
    have hsplit : lines ++ [[]] = line :: front ++ [] :: splitLines after := by
      rw [← splitLines_blockOf hcrlf, hblock, hblank, hfront]
      rfl
    -- only the last line is empty
    by_contra hafter
    have hrest : splitLines after ≠ [] := fun h => hafter (splitLines_eq_nil h)
    have hdrop := congrArg List.dropLast hsplit
    rw [List.dropLast_concat, List.dropLast_append_of_ne_nil (List.cons_ne_nil _ _),
      List.dropLast_cons_of_ne_nil hrest] at hdrop
    refine hne [] ?_ rfl
    rw [hdrop]
    exact List.mem_append_right _ (List.mem_cons_self ..)

theorem Message.block_ends (m : Message) : EndsAtBlank m.block :=
  blockOf_ends (fun line hline => crlf_free fun c hc => (m.lines_ok line hline c hc).2) m.lines_ne
    (List.cons_ne_nil _ _)

/-! ### What is parsed -/

/-- What the headers do not change. -/
structure RequestLine where
  method : HttpMethod
  methodStr : FieldString 16
  path : FieldString 4096
  query : FieldString 2048
  version : FieldString 16
  rawLen : ℕ

def HttpRequest.line (r : HttpRequest) : RequestLine :=
  ⟨r.method, r.methodStr, r.path, r.query, r.version, r.rawLen⟩

theorem parseRange_frame (spec : Bytes) (r : HttpRequest) :
    (parseRange spec r).line = r.line ∧ (parseRange spec r).connection = r.connection := by
  unfold parseRange
  split
  · exact ⟨rfl, rfl⟩
  · dsimp only
    split
    · exact ⟨rfl, rfl⟩
    · split <;> exact ⟨rfl, rfl⟩

theorem parseHeader_line (text : Bytes) (r : HttpRequest) : (parseHeader text r).line = r.line := by
  unfold parseHeader
  split
  · rfl
  · dsimp only
    repeat' split
    all_goals first | rfl | exact (parseRange_frame _ r).1

theorem parseHeaderLine_line (text : Bytes) (r : HttpRequest) :
    (parseHeaderLine r text).line = r.line := by
  unfold parseHeaderLine
  split
  · rfl
  · exact parseHeader_line text r

theorem foldl_parseHeaderLine_line (texts : List Bytes) (r : HttpRequest) :
    (texts.foldl parseHeaderLine r).line = r.line := by
  induction texts generalizing r with
  | nil => rfl
  | cons text texts ih => rw [List.foldl_cons, ih, parseHeaderLine_line]

theorem parseRequestLine_rawLen {text : Bytes} {r r' : HttpRequest}
    (h : parseRequestLine text r = some r') : r'.rawLen = r.rawLen := by
  unfold parseRequestLine at h
  obtain ⟨⟨name, rest⟩, _, h⟩ := Option.bind_eq_some_iff.mp h
  obtain ⟨⟨uri, version⟩, _, h⟩ := Option.bind_eq_some_iff.mp h
  dsimp only at h
  split at h
  · cases h
  · cases h
    rfl

theorem parseBlock_rawLen {block : Bytes} {req : HttpRequest} (h : parseBlock block = some req) :
    req.rawLen = block.length := by
  unfold parseBlock at h
  split at h
  · cases h
    rfl
  · obtain ⟨r, hr, rfl⟩ := Option.map_eq_some_iff.mp h
    have hline := congrArg RequestLine.rawLen (foldl_parseHeaderLine_line ‹List Bytes› r)
    exact hline.trans (parseRequestLine_rawLen hr)

theorem parseHeader_connection (h : HeaderLine) (r : HttpRequest) :
    (parseHeader h.line r).connection = r.connection ∨
      h.name.map lowerByte = ascii "connection" ∧
        (parseHeader h.line r).connection = fieldOf 32 (by decide) (trim h.value) := by
  have hcolon : strchr 58 h.line = some (h.name, h.value) :=
    strchr_append h.value fun hc => (h.name_ok 58 hc).2.1 rfl
  have hname : trim h.name = h.name := trim_of_no_space fun c hc => (h.name_ok c hc).2.2
  have hlen : (ascii "connection").length = 10 := by decide
  unfold parseHeader
  rw [hcolon]
  dsimp only
  rw [hname]
  split
  · exact Or.inl rfl
  · split
    · exact Or.inl rfl
    · split
      · rename_i hconn
        refine Or.inr ⟨?_, rfl⟩
        -- a name of more than 255 bytes is not cut to a shorter one
        have hcut := congrArg List.length hconn
        rw [List.length_map, List.length_take, hlen] at hcut
        rw [← hconn, List.take_of_length_le (by omega)]
      · left
        repeat' split
        all_goals first | rfl | exact (parseRange_frame _ r).2

/-- The connection header, as parsed, does not ask for the end of the connection. -/
def StaysOpen (r : HttpRequest) : Prop := strcasestr r.connection.bytes (ascii "close") = false

theorem Message.headers_stayOpen (m : Message) {headers : List HeaderLine}
    (hsub : ∀ h ∈ headers, h ∈ m.headers) {r : HttpRequest} (hr : StaysOpen r) :
    StaysOpen ((headers.map HeaderLine.line ++ [[]]).foldl parseHeaderLine r) := by
  induction headers generalizing r with
  | nil => exact hr
  | cons h hs ih =>
    apply ih fun x hx => hsub x (List.mem_cons_of_mem _ hx)
    have hne : h.line ≠ [] := List.append_ne_nil_of_left_ne_nil h.name_ne _
    rw [parseHeaderLine, if_neg hne]
    rcases parseHeader_connection h r with hc | ⟨hname, hc⟩ <;> rw [StaysOpen, hc]
    · exact hr
    · apply strcasestr_part ((fieldOf_part _ _).trans (trim_part h.value))
      exact m.stays h (hsub h (List.mem_cons_self ..)) hname

def Message.method (m : Message) : HttpMethod := if m.head then .head else .get

theorem Message.requestLine_parsed (m : Message) (r : HttpRequest) :
    (m.Traverses → parseRequestLine m.requestLine r = none) ∧
      (¬ m.Traverses → ∃ r', parseRequestLine m.requestLine r = some r' ∧
        r'.method = m.method ∧ r'.path = m.path ∧ r'.version.bytes = ascii "HTTP/1.1" ∧
        r'.connection = r.connection) := by
  have hname : (32 : Byte) ∉ m.methodName := by
    unfold methodName
    split <;> decide
  have htarget : (32 : Byte) ∉ m.target := by
    intro hmem
    have := (m.target_ok 32 hmem).2
    exact absurd this (by decide)
  have hmethod : methodOf m.methodName = m.method := by
    unfold methodName method methodOf
    cases m.head <;> decide
  unfold parseRequestLine requestLine
  rw [strchr_append _ hname, Option.bind_some]
  dsimp only
  rw [strchr_append _ htarget, Option.bind_some]
  dsimp only
  constructor
  · intro h
    exact if_pos h
  · intro h
    refine ⟨_, if_neg h, hmethod, rfl, ?_, rfl⟩
    show (fieldOf 16 (by decide) _).bytes = _
    decide

/-- A header block is refused exactly when its path contains `..`. Otherwise its method and
its path are what the client sent, and the connection is to be kept. -/
theorem Message.block_parsed (m : Message) :
    (m.Traverses → parseBlock m.block = none) ∧
      (¬ m.Traverses → ∃ req, parseBlock m.block = some req ∧ req.method = m.method ∧
        req.path = m.path ∧ req.version.bytes = ascii "HTTP/1.1" ∧ StaysOpen req) := by
  have hparse : parseBlock m.block =
      (parseRequestLine m.requestLine (emptyRequest m.block.length)).map fun r =>
        (m.headers.map HeaderLine.line ++ [[]]).foldl parseHeaderLine r := by
    unfold parseBlock
    rw [cstr_of_nul_free m.block_nul_free, m.splitLines_block]
    rfl
  obtain ⟨hbad, hgood⟩ := m.requestLine_parsed (emptyRequest m.block.length)
  constructor
  · intro h
    rw [hparse, hbad h, Option.map_none]
  · intro h
    obtain ⟨r, hr, hmethod, hpath, hversion, hconn⟩ := hgood h
    have hline := foldl_parseHeaderLine_line (m.headers.map HeaderLine.line ++ [[]]) r
    refine ⟨_, by rw [hparse, hr, Option.map_some], ?_, ?_, ?_, ?_⟩
    · exact (congrArg RequestLine.method hline).trans hmethod
    · exact (congrArg RequestLine.path hline).trans hpath
    · rw [← hversion]
      exact congrArg (·.version.bytes) hline
    · apply m.headers_stayOpen fun h hh => hh
      rw [StaysOpen, hconn]
      rfl

end LocalMarks.Http

import LocalMarks.Http.InPlace
import LocalMarks.Http.ReadHeaders
import LocalMarks.Http.Routes
import LocalMarks.Lib.JsonValue
import LocalMarks.Lib.Search

/-!
# Responses as a client reads them

The client finds the end of the header block at the first blank line, and the end of the body by
the header `Content-Length`. The answer to a HEAD request has no body.
-/

namespace LocalMarks.Http
open LocalMarks.Lib

/-- What the client takes for one response: the headers by their names, without blanks around
the values. -/
structure Received where
  status : ℕ
  headers : List (Bytes × Bytes)
  body : Bytes
  deriving DecidableEq

def statusOf (line : Bytes) : ℕ := numeralValue 10 ((line.drop 9).takeWhile isDigit)

def headerOf (line : Bytes) : Option (Bytes × Bytes) :=
  (strchr 58 line).map fun h => (h.1, trim h.2)

/-- The first header of that name, in any letter case. -/
def headerValue (name : Bytes) (headers : List (Bytes × Bytes)) : Option Bytes :=
  (headers.find? fun h => h.1.map lowerByte = name).map Prod.snd

def contentLength (headers : List (Bytes × Bytes)) : Option ℕ :=
  (headerValue (ascii "content-length") headers).map (numeralValue 10)

/-- The server says that it ends the connection. -/
def Received.closes (r : Received) : Bool :=
  (headerValue (ascii "connection") r.headers).any fun v => strcasestr v (ascii "close")

/-- The first response in the bytes received, and what comes after it. -/
def readResponse (head : Bool) (s : Bytes) : Option (Received × Bytes) :=
  (strstr blankLine s).bind fun (block, rest) =>
    let lines := splitLines block
    let status := statusOf (lines.headD [])
    let headers := lines.tail.filterMap headerOf
    if head then some (⟨status, headers, []⟩, rest)
    else (contentLength headers).bind fun n =>
      if rest.length < n then none else some (⟨status, headers, rest.take n⟩, rest.drop n)

theorem readResponse_shorter {head : Bool} {s rest : Bytes} {r : Received}
    (h : readResponse head s = some (r, rest)) : rest.length < s.length := by
  unfold readResponse at h
  obtain ⟨⟨block, after⟩, hs, h⟩ := Option.bind_eq_some_iff.mp h
  have hlen := congrArg List.length (strstr_some hs)
  have hblank : blankLine.length = 4 := rfl
  simp only [List.length_append, hblank] at hlen
  dsimp only at h
  split at h
  · cases h
    omega
  · obtain ⟨n, _, h⟩ := Option.bind_eq_some_iff.mp h
    split at h
    · cases h
    · cases h
      rw [List.length_drop]
      omega

/-- All responses of a connection, up to the one that says `Connection: close`. The client knows
which of its requests were HEAD requests. -/
def readResponses (heads : ℕ → Bool) (k : ℕ) (s : Bytes) : List Received :=
  match _h : readResponse (heads k) s with
  | none => []
  | some (r, rest) => r :: if r.closes then [] else readResponses heads (k + 1) rest
termination_by s.length
decreasing_by exact readResponse_shorter _h

theorem readResponses_none {heads : ℕ → Bool} {k : ℕ} {s : Bytes}
    (h : readResponse (heads k) s = none) : readResponses heads k s = [] := by
  rw [readResponses]
  split
  · rfl
  · rename_i h'
    rw [h] at h'
    cases h'

theorem readResponses_some {heads : ℕ → Bool} {k : ℕ} {s rest : Bytes} {r : Received}
    (h : readResponse (heads k) s = some (r, rest)) : readResponses heads k s =
      r :: if r.closes then [] else readResponses heads (k + 1) rest := by
  rw [readResponses]
  split
  · rename_i h'
    rw [h] at h'
    cases h'
  · rename_i h'
    rw [h] at h'
    cases h'
    rfl

/-! ### Header lines -/

def headerLine (h : Bytes × Bytes) : Bytes := h.1 ++ ascii ": " ++ h.2 ++ crlf

/-- A name and a value that cannot be taken for anything else. -/
structure PlainHeader (h : Bytes × Bytes) : Prop where
  name : ∀ c ∈ h.1, c ≠ 58 ∧ c ≠ 13
  value : (13 : Byte) ∉ h.2

/-- The header block of a response with these headers, `n` being the length that it announces. -/
structure Announces (r : Response) (text : Bytes) (headers : List (Bytes × Bytes)) (n : ℕ) :
    Prop where
  lines : r.lines = statusLine r.status text :: headers.map headerLine ++ [crlf]
  text : (13 : Byte) ∉ text
  plain : ∀ h ∈ headers, PlainHeader h
  length : headerValue (ascii "content-length") headers = some (numeral 10 n)
  connection : headerValue (ascii "connection") headers =
    some (if r.closes then ascii "close" else ascii "keep-alive")

theorem not_mem_numeral {c : Byte} (hc : isDigit c = false) (n : ℕ) : c ∉ numeral 10 n := by
  intro hmem
  rw [decimal_isDigit n c hmem] at hc
  cases hc

def statusText (status : ℕ) (text : Bytes) : Bytes :=
  ascii "HTTP/1.1 " ++ numeral 10 status ++ ascii " " ++ text

theorem statusLine_eq (status : ℕ) (text : Bytes) :
    statusLine status text = statusText status text ++ crlf := rfl

theorem statusOf_statusText (status : ℕ) (text : Bytes) :
    statusOf (statusText status text) = status := by
  have hdrop : (statusText status text).drop 9 = numeral 10 status ++ (32 :: text) := by
    rw [statusText, List.append_assoc, List.append_assoc]
    exact List.drop_left' rfl
  rw [statusOf, hdrop, List.takeWhile_append_of_pos (decimal_isDigit _), List.takeWhile_cons,
    if_neg (by decide), List.append_nil, numeralValue_numeral _ (by decide) (by decide)]

theorem statusText_line {status : ℕ} {text : Bytes} (h : (13 : Byte) ∉ text) :
    ∀ c ∈ statusText status text, c ≠ 13 := by
  intro c hc
  simp only [statusText, List.mem_append] at hc
  rcases hc with ((hc | hc) | hc) | hc
  · exact fun h13 => absurd (h13 ▸ hc) (by decide)
  · exact fun h13 => not_mem_numeral (by decide) status (h13 ▸ hc)
  · exact fun h13 => absurd (h13 ▸ hc) (by decide)
  · exact fun h13 => h (h13 ▸ hc)

def headerText (h : Bytes × Bytes) : Bytes := h.1 ++ ascii ": " ++ h.2

theorem headerLine_eq (h : Bytes × Bytes) : headerLine h = headerText h ++ crlf := rfl

theorem headerOf_headerText {h : Bytes × Bytes} (hh : PlainHeader h) :
    headerOf (headerText h) = some (h.1, trim h.2) := by
  have htext : headerText h = h.1 ++ 58 :: (32 :: h.2) := by
    rw [headerText, List.append_assoc]
    rfl
  rw [headerOf, htext, strchr_append _ fun hm => (hh.name 58 hm).1 rfl, Option.map_some,
    trim_cons_space (by decide)]

theorem PlainHeader.line {h : Bytes × Bytes} (hh : PlainHeader h) :
    ∀ c ∈ headerText h, c ≠ 13 := by
  intro c hc
  simp only [headerText, List.mem_append] at hc
  rcases hc with (hc | hc) | hc
  · exact (hh.name c hc).2
  · exact fun h13 => absurd (h13 ▸ hc) (by decide)
  · exact fun h13 => hh.value (h13 ▸ hc)

/-! ### What the client makes of a response -/

/-- The headers of a response by their names. -/
def Response.headers (r : Response) : List (Bytes × Bytes) :=
  r.lines.tail.filterMap fun line => headerOf (line.take (line.length - 2))

/-- The response as it should arrive. -/
def Response.received (r : Response) (head : Bool) : Received :=
  ⟨r.status, r.headers, if head then [] else r.body⟩

def trimmed (headers : List (Bytes × Bytes)) : List (Bytes × Bytes) :=
  headers.map fun h => (h.1, trim h.2)

theorem headerValue_trimmed (name : Bytes) (headers : List (Bytes × Bytes)) :
    headerValue name (trimmed headers) = (headerValue name headers).map trim := by
  rw [headerValue, trimmed, List.find?_map, headerValue, Option.map_map, Option.map_map]
  rfl

section Announced
variable {r : Response} {text : Bytes} {headers : List (Bytes × Bytes)} {n : ℕ}

/-- The lines of the header block without their ends. -/
def blockLines (r : Response) (text : Bytes) (headers : List (Bytes × Bytes)) : List Bytes :=
  statusText r.status text :: headers.map headerText

theorem Announces.block (h : Announces r text headers n) :
    r.lines.flatten = blockOf (blockLines r text headers) := by
  have hheaders : headers.map headerLine = (headers.map headerText).map (· ++ crlf) := by
    rw [List.map_map]
    rfl
  rw [h.lines, hheaders, statusLine_eq, blockOf, blockLines]
  simp

theorem Announces.blockLines_free (h : Announces r text headers n) :
    ∀ line ∈ blockLines r text headers, ∀ c ∈ line, c ≠ 13 := by
  intro line hline
  rcases List.mem_cons.mp hline with rfl | hline
  · exact statusText_line h.text
  · obtain ⟨header, hheader, rfl⟩ := List.mem_map.mp hline
    exact (h.plain header hheader).line

theorem Announces.blockLines_ne (r : Response) (text : Bytes) (headers : List (Bytes × Bytes)) :
    ∀ line ∈ blockLines r text headers, line ≠ [] := by
  intro line hline
  rcases List.mem_cons.mp hline with rfl | hline
  · exact List.cons_ne_nil _ _
  · obtain ⟨header, _, rfl⟩ := List.mem_map.mp hline
    exact List.append_ne_nil_of_left_ne_nil (List.append_ne_nil_of_right_ne_nil _ (by decide)) _

theorem Announces.headers_eq (h : Announces r text headers n) : r.headers = trimmed headers := by
  have hline : ∀ header ∈ headers,
      headerOf ((headerLine header).take ((headerLine header).length - 2)) =
        some (header.1, trim header.2) := by
    intro header hheader
    have htake : (headerLine header).take ((headerLine header).length - 2) = headerText header := by
      rw [headerLine_eq, List.length_append]
      exact List.take_left' rfl
    rw [htake, headerOf_headerText (h.plain header hheader)]
  have hend : headerOf (crlf.take (crlf.length - 2)) = none := rfl
  rw [Response.headers, h.lines, List.cons_append, List.tail_cons, List.filterMap_append,
    List.filterMap_cons, hend, List.filterMap_map, trimmed, ← List.filterMap_eq_map]
  dsimp only
  rw [List.filterMap_nil, List.append_nil]
  exact List.filterMap_congr hline

theorem Announces.contentLength (h : Announces r text headers n) :
    Http.contentLength (trimmed headers) = some n := by
  have hspace : ∀ c ∈ numeral 10 n, isSpace c = false := by
    intro c hc
    have hdigit : ∀ c : Byte, isDigit c = true → isSpace c = false :=
      every_byte (by decide +kernel)
    exact hdigit c (decimal_isDigit _ c hc)
  rw [Http.contentLength, headerValue_trimmed, h.length, Option.map_some, Option.map_some,
    trim_of_no_space hspace, numeralValue_numeral _ (by decide) (by decide)]

theorem Announces.closes (h : Announces r text headers n) (head : Bool) :
    (r.received head).closes = r.closes := by
  rw [Received.closes, Response.received, h.headers_eq, headerValue_trimmed, h.connection,
    Option.map_some, Option.any_some]
  cases r.closes <;> decide

end Announced

theorem strstr_blankLine {block : Bytes} (h : EndsAtBlank block) (rest : Bytes) :
    ∃ front, block = front ++ blankLine ∧
      strstr blankLine (block ++ rest) = some (front, rest) := by
  have hstart : 0 + 4 ≤ block.length := h.length
  have hfind := findBlankLine_whole h rest hstart
  obtain ⟨⟨front, after⟩, hfound, hlen⟩ := Option.map_eq_some_iff.mp hfind
  have hcut : block ++ rest = (front ++ blankLine) ++ after := strstr_some hfound
  obtain ⟨hblock, hrest⟩ := List.append_inj hcut (by
    have hsum : 0 + front.length + 4 = block.length := hlen
    rw [List.length_append, blankLine_length]
    omega)
  exact ⟨front, hblock, by rw [hrest, ← hfound, List.drop_zero, hrest]⟩

theorem splitLines_front {lines : List Bytes} {front : Bytes} (hlines : lines ≠ [])
    (hcrlf : ∀ line ∈ lines, ¬ crlf <:+: line) (hne : ∀ line ∈ lines, line ≠ [])
    (h : blockOf lines = front ++ blankLine) : splitLines front = lines := by
  obtain ⟨init, last, rfl⟩ := List.eq_nil_or_concat' lines |>.resolve_left hlines
  have hfront : front = (init.map (· ++ crlf)).flatten ++ last := by
    have hsplit : blockOf (init ++ [last]) =
        ((init.map (· ++ crlf)).flatten ++ last) ++ blankLine := by
      simp [blockOf, blankLine, crlf]
    exact (List.append_cancel_right (hsplit.symm.trans h)).symm
  have hlast := hne last (List.mem_append_right _ (List.mem_singleton_self _))
  have hlast_free := hcrlf last (List.mem_append_right _ (List.mem_singleton_self _))
  have hlast_line : splitLines last = [last] := splitLines_last (strstr_none.mpr hlast_free) hlast
  rw [hfront, splitLines_lines fun line hline => hcrlf line (List.mem_append_left _ hline),
    hlast_line]

theorem Announces.read {r : Response} {text : Bytes} {headers : List (Bytes × Bytes)} {n : ℕ}
    (h : Announces r text headers n) {head : Bool} (hbody : head = false → r.body.length = n)
    (rest : Bytes) : readResponse head (r.bytes ++ rest) =
      some (r.received head, if head then r.body ++ rest else rest) := by
  have hlines : blockLines r text headers ≠ [] := List.cons_ne_nil _ _
  have hcrlf : ∀ line ∈ blockLines r text headers, ¬ crlf <:+: line := fun line hline =>
    crlf_free (h.blockLines_free line hline)
  have hne := Announces.blockLines_ne r text headers
  obtain ⟨front, hfront, hfound⟩ := strstr_blankLine (blockOf_ends hcrlf hne hlines)
    (r.body ++ rest)
  have hheaders : (headers.map headerText).filterMap headerOf = trimmed headers := by
    rw [List.filterMap_map, trimmed, ← List.filterMap_eq_map]
    exact List.filterMap_congr fun header hheader => headerOf_headerText (h.plain header hheader)
  rw [Response.received, h.headers_eq, readResponse, Response.bytes, h.block, List.append_assoc,
    hfound, Option.bind_some]
  dsimp only
  rw [splitLines_front hlines hcrlf hne hfront, blockLines, List.headD_cons, List.tail_cons,
    hheaders, statusOf_statusText]
  cases head with
  | true => rfl
  | false =>
    have hn := hbody rfl
    rw [if_neg Bool.false_ne_true, h.contentLength, Option.bind_some, if_neg (by simp [hn]), ← hn,
      List.take_left, List.drop_left]
    rfl

/-! ### The responses of the server -/

theorem dateLine_header (date : HttpDate) :
    dateLine date = headerLine (ascii "Date", date.bytes) := rfl

theorem serverLine_header :
    serverLine = headerLine (ascii "Server", ascii "local-mark/1.1.0") := by decide

theorem contentLengthLine_header (n : ℕ) :
    contentLengthLine n = headerLine (ascii "Content-Length", numeral 10 n) := rfl

def connValue (keepAlive : Bool) : Bytes :=
  if keepAlive then ascii "keep-alive" else ascii "close"

theorem headerCacheConn_header (keepAlive : Bool) :
    headerCacheConn keepAlive = headerLine (ascii "Connection", connValue keepAlive) := by
  cases keepAlive <;> decide

/-- The headers that `header_cache_build` writes. -/
def sentHeaders (date : HttpDate) (mime : Option Bytes) (n : ℕ) (extra : List (Bytes × Bytes))
    (keepAlive : Bool) : List (Bytes × Bytes) :=
  [(ascii "Date", date.bytes), (ascii "Server", ascii "local-mark/1.1.0")] ++
    (mime.map fun m => (ascii "Content-Type", m)).toList ++
    [(ascii "Content-Length", numeral 10 n)] ++ extra ++
    [(ascii "Connection", connValue keepAlive)]

/-- An extra header, which is neither of those that the client decides by. -/
structure ExtraHeader (h : Bytes × Bytes) : Prop extends PlainHeader h where
  not_length : h.1.map lowerByte ≠ ascii "content-length"
  not_connection : h.1.map lowerByte ≠ ascii "connection"

theorem ExtraHeader.not_close {h : Bytes × Bytes} (hh : ExtraHeader h) :
    headerLine h ≠ connClose := by
  intro heq
  have hcolon : (58 : Byte) ∉ h.1 := fun hmem => (hh.name 58 hmem).1 rfl
  have hname := congrArg (strchr 58) heq
  rw [headerLine, List.append_assoc, List.append_assoc] at hname
  have hclose : strchr 58 connClose = some (ascii "Connection", ascii " close\r\n") := by decide
  have hpair := Option.some.inj ((strchr_append _ hcolon).symm.trans (hname.trans hclose))
  apply hh.not_connection
  rw [(Prod.mk.inj hpair).1]
  decide

theorem headerValue_cons (name : Bytes) (h : Bytes × Bytes) (hs : List (Bytes × Bytes)) :
    headerValue name (h :: hs) =
      if h.1.map lowerByte = name then some h.2 else headerValue name hs := by
  rw [headerValue, List.find?_cons]
  split
  · rename_i hname
    rw [if_pos (of_decide_eq_true hname), Option.map_some]
  · rename_i hname
    rw [if_neg (of_decide_eq_false hname), headerValue]

theorem headerValue_skip {name : Bytes} {hs : List (Bytes × Bytes)}
    (h : ∀ x ∈ hs, x.1.map lowerByte ≠ name) (rest : List (Bytes × Bytes)) :
    headerValue name (hs ++ rest) = headerValue name rest := by
  induction hs with
  | nil => rfl
  | cons x xs ih =>
    rw [List.cons_append, headerValue_cons, if_neg (h x (List.mem_cons_self ..)),
      ih fun y hy => h y (List.mem_cons_of_mem x hy)]

section Sent
variable {date : HttpDate} {mime : Option Bytes} {n : ℕ} {extra : List (Bytes × Bytes)}
  {keepAlive : Bool}

theorem sentHeaders_front {name : Bytes} (hdate : ascii "date" ≠ name)
    (hserver : ascii "server" ≠ name) (htype : ascii "content-type" ≠ name) :
    headerValue name (sentHeaders date mime n extra keepAlive) =
      headerValue name ((ascii "Content-Length", numeral 10 n) ::
        (extra ++ [(ascii "Connection", connValue keepAlive)])) := by
  have htypes : ∀ x ∈ (mime.map fun m => (ascii "Content-Type", m)).toList,
      x.1.map lowerByte ≠ name := by
    intro x hx
    obtain ⟨m, _, rfl⟩ := Option.map_eq_some_iff.mp (Option.mem_toList.mp hx)
    exact htype
  have hlist : sentHeaders date mime n extra keepAlive =
      [(ascii "Date", date.bytes), (ascii "Server", ascii "local-mark/1.1.0")] ++
        ((mime.map fun m => (ascii "Content-Type", m)).toList ++
          ((ascii "Content-Length", numeral 10 n) ::
            (extra ++ [(ascii "Connection", connValue keepAlive)]))) := by
    simp only [sentHeaders, List.append_assoc, List.cons_append, List.nil_append]
  rw [hlist, headerValue_skip (fun x hx => ?_), headerValue_skip htypes]
  rcases List.mem_cons.mp hx with rfl | hx
  · exact hdate
  · obtain rfl := List.mem_singleton.mp hx
    exact hserver

theorem sentHeaders_length : headerValue (ascii "content-length")
    (sentHeaders date mime n extra keepAlive) = some (numeral 10 n) := by
  rw [sentHeaders_front (by decide) (by decide) (by decide), headerValue_cons]
  exact if_pos (by decide : (ascii "Content-Length").map lowerByte = ascii "content-length")

theorem sentHeaders_connection (hextra : ∀ h ∈ extra, ExtraHeader h) :
    headerValue (ascii "connection") (sentHeaders date mime n extra keepAlive) =
      some (connValue keepAlive) := by
  have hlength : (ascii "Content-Length").map lowerByte ≠ ascii "connection" := by decide
  rw [sentHeaders_front (by decide) (by decide) (by decide), headerValue_cons, if_neg hlength,
    headerValue_skip fun h hh => (hextra h hh).not_connection, headerValue_cons]
  exact if_pos (by decide : (ascii "Connection").map lowerByte = ascii "connection")

theorem sentHeaders_plain (hdate : (13 : Byte) ∉ date.bytes) (hmime : ∀ m ∈ mime, (13 : Byte) ∉ m)
    (hextra : ∀ h ∈ extra, ExtraHeader h) :
    ∀ h ∈ sentHeaders date mime n extra keepAlive, PlainHeader h := by
  intro h hh
  simp only [sentHeaders, List.mem_append, List.mem_cons, List.not_mem_nil, or_false] at hh
  rcases hh with ((((rfl | rfl) | hh) | rfl) | hh) | rfl
  · exact ⟨(all_bytes rfl : ∀ c ∈ ascii "Date", c ≠ 58 ∧ c ≠ 13), hdate⟩
  · exact ⟨all_bytes rfl, by decide⟩
  · obtain ⟨m, hm, rfl⟩ := Option.map_eq_some_iff.mp (Option.mem_toList.mp hh)
    exact ⟨(all_bytes rfl : ∀ c ∈ ascii "Content-Type", c ≠ 58 ∧ c ≠ 13), hmime m hm⟩
  · exact ⟨(all_bytes rfl : ∀ c ∈ ascii "Content-Length", c ≠ 58 ∧ c ≠ 13),
      not_mem_numeral (by decide) n⟩
  · exact (hextra h hh).toPlainHeader
  · exact ⟨(all_bytes rfl : ∀ c ∈ ascii "Connection", c ≠ 58 ∧ c ≠ 13),
      by cases keepAlive <;> decide⟩

theorem sentHeaders_lines (status : ℕ) (text : Bytes) :
    [statusLine status text, dateLine date, serverLine] ++ (mime.map contentTypeLine).toList ++
      [contentLengthLine n] ++ extra.map headerLine ++ [headerCacheConn keepAlive, crlf] =
    statusLine status text ::
      (sentHeaders date mime n extra keepAlive).map headerLine ++ [crlf] := by
  have hmime : (mime.map contentTypeLine).toList =
      (mime.map fun m => (ascii "Content-Type", m)).toList.map headerLine := by
    cases mime <;> rfl
  rw [dateLine_header, serverLine_header, contentLengthLine_header, headerCacheConn_header, hmime]
  simp [sentHeaders]

/-- What `response_send` writes. -/
theorem responseSend_announces {status : ℕ} {text body : Bytes} {sendBody : Bool} {r : Response}
    (htext : (13 : Byte) ∉ text) (hdate : (13 : Byte) ∉ date.bytes)
    (hmime : ∀ m ∈ mime, (13 : Byte) ∉ m) (hextra : ∀ h ∈ extra, ExtraHeader h)
    (h : responseSend date status text mime (extra.map headerLine) body keepAlive sendBody =
      some r) :
    Announces r text (sentHeaders date mime body.length extra keepAlive) body.length ∧
      r.closes = !keepAlive ∧ r.body = if sendBody then body else [] := by
  have hcloses : r.closes = !keepAlive := by
    refine responseSend_closes ?_ h
    intro hmem
    obtain ⟨x, hx, hclose⟩ := List.mem_map.mp hmem
    exact (hextra x hx).not_close hclose
  obtain ⟨lines, hlines, rfl⟩ := Option.map_eq_some_iff.mp h
  unfold headerCacheBuild at hlines
  dsimp only at hlines
  split at hlines
  · cases hlines
  · cases hlines
    refine ⟨⟨sentHeaders_lines status text, htext, sentHeaders_plain hdate hmime hextra,
      sentHeaders_length, ?_⟩, hcloses, rfl⟩
    rw [sentHeaders_connection hextra, hcloses, connValue]
    cases keepAlive <;> rfl

end Sent

end LocalMarks.Http

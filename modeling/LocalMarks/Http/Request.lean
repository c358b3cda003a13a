import LocalMarks.Lib.CText

/-!
# Requests (http.c)

The header block of a request is read from the transport into a raw buffer of fixed size and
taken apart in place.
-/

namespace LocalMarks.Http
open LocalMarks.Lib

/-! ### Reading the header block -/

/-- What the next `read` of the socket does: it delivers at most that many of the bytes still
to come, or fails (end of file, timeout or error). -/
inductive ReadOutcome where
  | data (k : ℕ)
  | fail
  deriving DecidableEq

/-- A connection, as seen by one reader: the bytes the client still sends and what the reads
to come do. A read past the list finds the connection closed. -/
structure Conn where
  stream : Bytes
  sched : List ReadOutcome
  deriving DecidableEq

def rawBufSize : ℕ := 8192
def maxRead : ℕ := 4096

/-- The bytes that one read of at most `want` bytes delivers; none for a return value that is
not positive. -/
def readOutcome (o : ReadOutcome) (want : ℕ) (stream : Bytes) : Option Bytes :=
  match o with
  | .fail => none
  | .data k =>
    let b := stream.take (min k want)
    if b = [] then none else some b

def crlf : Bytes := [13, 10]
def blankLine : Bytes := [13, 10, 13, 10]

/-- The scan for the blank line from offset `scan`: the offset behind its first occurrence. -/
def findBlankLine (buf : Bytes) (scan : ℕ) : Option ℕ :=
  (strstr blankLine (buf.drop scan)).map fun r => scan + r.1.length + 4

/-- The loop of `read_headers` with the bytes read so far. What was read behind the blank line
is left in the raw buffer and not looked at again. -/
def readLoop (max : ℕ) (stream : Bytes) : List ReadOutcome → Bytes → Option Bytes × Conn
  | [], buf => if buf.length + 1 < max then (none, ⟨stream, []⟩) else (some buf, ⟨stream, []⟩)
  | o :: os, buf =>
    if buf.length + 1 < max then
      match readOutcome o (min (max - buf.length) maxRead) stream with
      | none => (none, ⟨stream, os⟩)
      | some b =>
        let stream' := stream.drop b.length
        match findBlankLine (buf ++ b) (buf.length - 3) with
        | some n => (some ((buf ++ b).take n), ⟨stream', os⟩)
        | none => readLoop max stream' os (buf ++ b)
    else (some buf, ⟨stream, o :: os⟩)

/-- `read_headers`: the buffer up to the returned length. -/
def readHeaders (t : Conn) (max : ℕ) : Option Bytes × Conn := readLoop max t.stream t.sched []

/-! ### Parsing -/

inductive HttpMethod where
  | get
  | head
  | other
  deriving DecidableEq

/-- `HttpRequest` without its raw buffer. -/
structure HttpRequest where
  method : HttpMethod
  methodStr : FieldString 16
  path : FieldString 4096
  query : FieldString 2048
  version : FieldString 16
  host : FieldString 256
  auth : FieldString 512
  connection : FieldString 32
  ifNoneMatch : FieldString 128
  ifModifiedSince : FieldString 64
  rangeStart : ℤ
  rangeEnd : ℤ
  rawLen : ℕ
  deriving DecidableEq

def hexValue (c : Byte) : ℕ :=
  if isDigit c then c.toNat - 48 else (lowerByte c).toNat - 87

/-- `http_url_decode`: the bytes stored before the terminating NUL. -/
def httpUrlDecode : ℕ → Bytes → Bytes
  | 0, _ | 1, _ | _, [] => []
  | n + 2, 37 :: a :: b :: s =>
    if isXDigit a && isXDigit b then
      UInt8.ofNat (16 * hexValue a + hexValue b) :: httpUrlDecode (n + 1) s
    else 37 :: httpUrlDecode (n + 1) (a :: b :: s)
  | n + 2, c :: s => (if c = 43 then 32 else c) :: httpUrlDecode (n + 1) s

def emptyRequest (rawLen : ℕ) : HttpRequest :=
  let empty (n : ℕ) (hn : 0 < n) : FieldString n := fieldOf n hn []
  { method := .get, methodStr := empty 16 (by decide), path := empty 4096 (by decide),
    query := empty 2048 (by decide), version := empty 16 (by decide),
    host := empty 256 (by decide), auth := empty 512 (by decide),
    connection := empty 32 (by decide), ifNoneMatch := empty 128 (by decide),
    ifModifiedSince := empty 64 (by decide), rangeStart := -1, rangeEnd := -1, rawLen := rawLen }

def methodOf (name : Bytes) : HttpMethod :=
  if name = ascii "GET" then .get else if name = ascii "HEAD" then .head else .other

/-- `parse_request_line`; `none` is the return value -1. The check for a NUL in the decoded
path compares two lengths that both stop at it, so it never fails. -/
def parseRequestLine (line : Bytes) (r : HttpRequest) : Option HttpRequest :=
  (strchr 32 line).bind fun (name, rest) =>
    (strchr 32 rest).bind fun (uri, version) =>
      let (path, query) := (strchr 63 uri).getD (uri, [])
      let r := { r with
        method := methodOf name
        methodStr := fieldOf 16 (by decide) ((name.take 15).map upperByte)
        version := fieldOf 16 (by decide) ((version.take 15).takeWhile (· != 13))
        query := fieldOf 2048 (by decide) query
        path := fieldOf 4096 (by decide) (httpUrlDecode 4096 path) }
      if (strstr (ascii "..") r.path.bytes).isSome then none else some r

/-- The range of a value that starts with `bytes=`, the text after it given. -/
def parseRange (spec : Bytes) (r : HttpRequest) : HttpRequest :=
  match strchr 45 spec with
  | none => r
  | some (before, after) =>
    let r := { r with rangeStart := (int64Of (strtoll spec).1).getD (-1) }
    if before = [] then r
    else if after = [] then { r with rangeEnd := -1 }
    else { r with rangeEnd := (int64Of (strtoll after).1).getD (-1) }

/-- `parse_header`. -/
def parseHeader (line : Bytes) (r : HttpRequest) : HttpRequest :=
  match strchr 58 line with
  | none => r
  | some (before, after) =>
    let value := trim after
    let lname := ((trim before).take 255).map lowerByte
    if lname = ascii "host" then { r with host := fieldOf 256 (by decide) value }
    else if lname = ascii "authorization" then { r with auth := fieldOf 512 (by decide) value }
    else if lname = ascii "connection" then { r with connection := fieldOf 32 (by decide) value }
    else if lname = ascii "if-none-match" then
      { r with ifNoneMatch := fieldOf 128 (by decide) value }
    else if lname = ascii "if-modified-since" then
      { r with ifModifiedSince := fieldOf 64 (by decide) value }
    else if lname = ascii "range" then
      if (ascii "bytes=").isPrefixOf value then parseRange (value.drop 6) r else r
    else r

/-- The lines of the text: it is cut at every CRLF from the left, and an end without one ends
the last line. -/
def splitLines : Bytes → List Bytes
  | [] => []
  | 13 :: 10 :: rest => [] :: splitLines rest
  | c :: rest =>
    match splitLines rest with
    | [] => [[c]]
    | line :: lines => (c :: line) :: lines

def parseHeaderLine (r : HttpRequest) (line : Bytes) : HttpRequest :=
  if line = [] then r else parseHeader line r

/-- The parsing loop of `http_parse_request` on the bytes read. It stops at the first NUL, and
a block without any line is a request with every field empty. -/
def parseBlock (block : Bytes) : Option HttpRequest :=
  match splitLines (cstr block) with
  | [] => some (emptyRequest block.length)
  | first :: lines =>
    (parseRequestLine first (emptyRequest block.length)).map fun r =>
      lines.foldl parseHeaderLine r

/-- The ways out of `http_parse_request`, with the connection as they leave it. -/
inductive ParseResult where
  | noMemory
  | readFailed (t : Conn)
  | badLine (block : Bytes) (t : Conn)
  | ok (block : Bytes) (req : HttpRequest) (t : Conn)

/-- `http_parse_request`. -/
def httpParseRequest (t : Conn) (mallocOk : Bool) : ParseResult :=
  if mallocOk then
    match readHeaders t (rawBufSize - 1) with
    | (none, t') => .readFailed t'
    | (some block, t') =>
      if block = [] then .readFailed t'
      else
        match parseBlock block with
        | none => .badLine block t'
        | some req => .ok block req t'
  else .noMemory

end LocalMarks.Http

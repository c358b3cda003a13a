import LocalMarks.Http.Headers
import LocalMarks.Server.HandleClient

/-!
# Requests that end the connection

`wants_keep_alive` looks for `close` in the connection field, which has room for 31 bytes of the
last Connection header.
-/

namespace LocalMarks.Server
open LocalMarks.Lib
open LocalMarks.Http

def listMembers (value : Bytes) : List Bytes := (value.splitOn 44).map trim

/-- The header is a Connection header with the member `close`. -/
def AsksToClose (h : HeaderLine) : Prop :=
  h.name.map lowerByte = ascii "connection" ∧
    ∃ m ∈ listMembers h.value, m.map lowerByte = ascii "close"

/-- A request with these headers is not to be followed by another one when it asks for that. -/
def HonoursClose (hs : List HeaderLine) (req : HttpRequest) (timeout : ℤ) : Prop :=
  (∃ h ∈ hs, AsksToClose h) → wantsKeepAlive req timeout = false

/-- Where the last Connection header says `close`: in the 31 bytes that are kept of it. -/
def CloseInField (hs : List HeaderLine) : Prop :=
  strcasestr ((lastValue hs (ascii "connection")).take 31) (ascii "close") = true

theorem takenFrom_version {req : HttpRequest} {p : LineParts} (h : TakenFrom req p)
    (hv : p.version = ascii "HTTP/1.1") : req.version.bytes = ascii "HTTP/1.1" := by
  rw [h.2.2.1, hv]
  decide

theorem wantsKeepAlive_headers {first : FirstLine} {hs : List HeaderLine}
    (hversion : ∀ p, lineParts first.line = some p → p.version = ascii "HTTP/1.1")
    (d : Delivery (blockOf (requestLines first hs)))
    (hfit : (blockOf (requestLines first hs)).length ≤ 8190) :
    ∃ req t', httpParseRequest d.conn true = .ok (blockOf (requestLines first hs)) req t' ∧
      ∀ timeout, wantsKeepAlive req timeout = false ↔ timeout ≤ 0 ∨ CloseInField hs := by
  obtain ⟨hends, -, -⟩ := requestLines_block first hs
  obtain ⟨p, req, hp, hreq, htaken, htext⟩ := requestLines_parsed first hs
  obtain ⟨t', hparse⟩ := d.parse hends (Nat.lt_of_le_of_lt hfit (by decide))
  rw [blockResult, hreq] at hparse
  refine ⟨req, t', hparse, ?_⟩
  intro timeout
  have hconn : req.connection.bytes = (lastValue hs (ascii "connection")).take 31 :=
    htext .connection
  unfold wantsKeepAlive CloseInField
  rw [hconn, takenFrom_version htaken (hversion p hp), if_pos rfl]
  split
  · rename_i hle
    exact iff_of_true rfl (Or.inl hle)
  · rename_i hgt
    rw [Bool.not_eq_false']
    exact ⟨Or.inr, fun h => h.resolve_left hgt⟩

/-- A request to end the connection is honoured exactly when keep-alive is switched off or
`close` stands in the bytes that are kept of the last Connection header. -/
theorem honoursClose_iff (first : FirstLine) (hs : List HeaderLine)
    (hversion : ∀ p, lineParts first.line = some p → p.version = ascii "HTTP/1.1")
    (d : Delivery (blockOf (requestLines first hs)))
    (hfit : (blockOf (requestLines first hs)).length ≤ 8190) :
    ∃ req t', httpParseRequest d.conn true = .ok (blockOf (requestLines first hs)) req t' ∧
      ∀ timeout, HonoursClose hs req timeout ↔
        ((∃ h ∈ hs, AsksToClose h) → timeout ≤ 0 ∨ CloseInField hs) := by
  obtain ⟨req, t', hparse, hkeep⟩ := wantsKeepAlive_headers hversion d hfit
  refine ⟨req, t', hparse, ?_⟩
  intro timeout
  unfold HonoursClose
  rw [hkeep]

theorem rootLine_version (p : LineParts) (hp : lineParts rootLine.line = some p) :
    p.version = ascii "HTTP/1.1" := by
  have hparts : lineParts rootLine.line = some ⟨ascii "GET", ascii "/", ascii "HTTP/1.1"⟩ := rfl
  rw [hparts] at hp
  cases hp
  rfl

/-- The token at the end of a long list, and the token in the first of two headers. -/
def connectionHeader (value : Bytes) (h : ∀ c ∈ value, c ≠ 0 ∧ c ≠ 10 ∧ c ≠ 13) : HeaderLine where
  name := ascii "Connection"
  value := value
  name_ne := by decide
  name_ok := by decide +kernel
  value_ok := h

def longList : List HeaderLine :=
  [connectionHeader (ascii " keep-alive, Upgrade, HTTP2-Settings, close") (by decide +kernel)]
def closeThenKeep : List HeaderLine :=
  [connectionHeader (ascii " close") (by decide +kernel),
    connectionHeader (ascii " keep-alive") (by decide +kernel)]

/-- A request for the root with these headers, in one read. -/
def inOneRead (hs : List HeaderLine) (h : (blockOf (requestLines rootLine hs)).length ≤ 4096) :
    Delivery (blockOf (requestLines rootLine hs)) where
  rest := []
  sizes := [4096]
  later := []
  pos := by decide
  enough := h

theorem longList_length : (blockOf (requestLines rootLine longList)).length ≤ 4096 := by
  decide +kernel

theorem closeThenKeep_length : (blockOf (requestLines rootLine closeThenKeep)).length ≤ 4096 := by
  decide +kernel

theorem honoursClose_single :
    ∃ req t', httpParseRequest (inOneRead longList longList_length).conn true =
        .ok (blockOf (requestLines rootLine longList)) req t' ∧
      ∀ timeout, HonoursClose longList req timeout ↔
        ((∃ h ∈ longList, AsksToClose h) → timeout ≤ 0 ∨ CloseInField longList) :=
  honoursClose_iff rootLine longList rootLine_version (inOneRead longList longList_length)
    (longList_length.trans (by decide))

theorem asksToClose_lost {hs : List HeaderLine}
    (hlen : (blockOf (requestLines rootLine hs)).length ≤ 4096) (hasks : ∃ h ∈ hs, AsksToClose h)
    (hlost : ¬ CloseInField hs) :
    ∃ req t', httpParseRequest (inOneRead hs hlen).conn true =
        .ok (blockOf (requestLines rootLine hs)) req t' ∧ ¬ HonoursClose hs req 5 := by
  obtain ⟨req, t', hparse, hkeep⟩ :=
    wantsKeepAlive_headers rootLine_version (inOneRead hs hlen) (hlen.trans (by decide))
  refine ⟨req, t', hparse, ?_⟩
  intro h
  rcases (hkeep 5).mp (h hasks) with h | h
  · exact absurd h (by decide)
  · exact hlost h

theorem close_ignored :
    (∃ req t', httpParseRequest (inOneRead longList longList_length).conn true =
        .ok (blockOf (requestLines rootLine longList)) req t' ∧
      ¬ HonoursClose longList req 5) ∧
    ∃ req t', httpParseRequest (inOneRead closeThenKeep closeThenKeep_length).conn true =
        .ok (blockOf (requestLines rootLine closeThenKeep)) req t' ∧
      ¬ HonoursClose closeThenKeep req 5 := by
  constructor
  · apply asksToClose_lost longList_length
    · exact ⟨_, List.mem_cons_self .., by decide, ascii "close", by decide, by decide⟩
    · unfold CloseInField
      decide
  · apply asksToClose_lost closeThenKeep_length
    · exact ⟨_, List.mem_cons_self .., by decide, ascii "close", by decide, by decide⟩
    · unfold CloseInField
      decide

end LocalMarks.Server

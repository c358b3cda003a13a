import LocalMarks.Http.ErrorPage
import LocalMarks.Http.Request

/-!
# Responses (response.c, header_cache.c, http.c)

A response is a header block and the bytes of the body that are sent. The header lines are
kept apart, so that a header can be looked for.
-/

namespace LocalMarks.Http
open LocalMarks.Lib

/-- What is written for one request. -/
structure Response where
  status : ℕ
  lines : List Bytes
  body : Bytes
  deriving DecidableEq

def Response.bytes (r : Response) : Bytes := r.lines.flatten ++ r.body

def connKeepAlive : Bytes := ascii "Connection: keep-alive\r\n"
def connClose : Bytes := ascii "Connection: close\r\n"

/-- The response carries the header `Connection: close`. -/
def Response.closes (r : Response) : Bool := connClose ∈ r.lines

/-! ### The header block -/

def headerBufSize : ℕ := 4096

/-- The cached date, without the name of its header. -/
abbrev HttpDate := FieldString 56

theorem dateSize_pos : 0 < 56 := Nat.succ_pos 55

/-- header_cache_conn. -/
def headerCacheConn (keepAlive : Bool) : Bytes := if keepAlive then connKeepAlive else connClose

def serverLine : Bytes := ascii "Server: local-mark/1.1.0\r\n"
def dateLine (date : HttpDate) : Bytes := ascii "Date: " ++ date.bytes ++ crlf
def statusLine (status : ℕ) (text : Bytes) : Bytes :=
  ascii "HTTP/1.1 " ++ numeral 10 status ++ ascii " " ++ text ++ crlf
def contentTypeLine (mime : Bytes) : Bytes := ascii "Content-Type: " ++ mime ++ crlf
def contentLengthLine (n : ℕ) : Bytes := ascii "Content-Length: " ++ numeral 10 n ++ crlf

/-- `header_cache_build`; none when the block does not fit in the caller's buffer. -/
def headerCacheBuild (date : HttpDate) (status : ℕ) (statusText : Bytes)
    (contentType : Option Bytes) (contentLength : ℕ) (extra : List Bytes) (keepAlive : Bool) :
    Option (List Bytes) :=
  let lines := [statusLine status statusText, dateLine date, serverLine] ++
    (contentType.map contentTypeLine).toList ++ [contentLengthLine contentLength] ++ extra ++
    [headerCacheConn keepAlive, crlf]
  if lines.flatten.length ≥ headerBufSize then none else some lines

/-- `response_send`; without a header block nothing is written. -/
def responseSend (date : HttpDate) (status : ℕ) (statusText : Bytes) (mime : Option Bytes)
    (extra : List Bytes) (body : Bytes) (keepAlive sendBody : Bool) : Option Response :=
  (headerCacheBuild date status statusText mime body.length extra keepAlive).map fun lines =>
    ⟨status, lines, if sendBody then body else []⟩

theorem responseSend_status {date : HttpDate} {status : ℕ} {text : Bytes} {mime : Option Bytes}
    {extra : List Bytes} {body : Bytes} {keepAlive sendBody : Bool} {r : Response}
    (h : responseSend date status text mime extra body keepAlive sendBody = some r) :
    r.status = status := by
  obtain ⟨lines, -, rfl⟩ := Option.map_eq_some_iff.mp h
  rfl

/-- The texts of the statuses that response_error is called with. -/
def errorFindStatusText (status : ℕ) : Bytes :=
  match status with
  | 404 => ascii "Not Found"
  | 405 => ascii "Method Not Allowed"
  | _ => ascii "Internal Server Error"

/-- `response_error`: a page that always announces the end of the connection. -/
def responseError (date : HttpDate) (status : ℕ) (detail : Bytes) : Option Response :=
  let text := errorFindStatusText status
  responseSend date status text (some (ascii "text/html; charset=utf-8")) []
    ((errorPage status text detail).take 4095) false true

/-- `http_send_status`. -/
def httpSendStatus (code : ℕ) (reason body : Bytes) : Response :=
  ⟨code, [statusLine code reason, contentTypeLine (ascii "text/html; charset=utf-8"),
    contentLengthLine body.length, connClose, crlf], body⟩

/-! ### What the Connection header says -/

theorem headerCacheConn_eq_close {keepAlive : Bool} :
    headerCacheConn keepAlive = connClose ↔ keepAlive = false := by
  cases keepAlive <;> decide

theorem ne_connClose {a b : Bytes} (hlen : 6 ≤ a.length) (h : a.take 6 ≠ connClose.take 6) :
    a ++ b ≠ connClose := by
  intro heq
  refine h ?_
  rw [← heq, List.take_append_of_le_length hlen]

theorem statusLine_ne (status : ℕ) (text : Bytes) : statusLine status text ≠ connClose := by
  simp only [statusLine, List.append_assoc]
  exact ne_connClose (by decide) (by decide)

theorem dateLine_ne (date : HttpDate) : dateLine date ≠ connClose := by
  simp only [dateLine, List.append_assoc]
  exact ne_connClose (by decide) (by decide)

theorem contentTypeLine_ne (mime : Bytes) : contentTypeLine mime ≠ connClose := by
  simp only [contentTypeLine, List.append_assoc]
  exact ne_connClose (by decide) (by decide)

theorem contentLengthLine_ne (n : ℕ) : contentLengthLine n ≠ connClose := by
  simp only [contentLengthLine, List.append_assoc]
  exact ne_connClose (by decide) (by decide)

/-- A response written through `response_send` carries `Connection: close` exactly when it
was sent without keep-alive. -/
theorem responseSend_closes {date : HttpDate} {status : ℕ} {statusText : Bytes}
    {mime : Option Bytes} {extra : List Bytes} {body : Bytes} {keepAlive sendBody : Bool}
    {r : Response} (hextra : connClose ∉ extra)
    (h : responseSend date status statusText mime extra body keepAlive sendBody = some r) :
    r.closes = !keepAlive := by
  obtain ⟨lines, hl, rfl⟩ := Option.map_eq_some_iff.mp h
  unfold headerCacheBuild at hl
  dsimp only at hl
  split at hl
  · cases hl
  · cases hl
    have hmime : connClose ∉ (mime.map contentTypeLine).toList := by
      intro hmem
      obtain ⟨m, _, hm⟩ := Option.map_eq_some_iff.mp (Option.mem_toList.mp hmem)
      exact contentTypeLine_ne m hm
    have hcrlf : connClose ≠ crlf := by decide
    have hserver : connClose ≠ serverLine := by decide
    rw [Bool.eq_iff_iff]
    simp only [Response.closes, decide_eq_true_eq, List.mem_append, List.mem_cons,
      (statusLine_ne _ _).symm, (dateLine_ne _).symm, hserver, hmime,
      (contentLengthLine_ne _).symm, hextra, hcrlf, List.not_mem_nil, or_false, false_or]
    rw [eq_comm, headerCacheConn_eq_close, Bool.not_eq_true']

theorem responseError_closes {date : HttpDate} {status : ℕ} {detail : Bytes} {r : Response}
    (h : responseError date status detail = some r) : r.closes = true :=
  responseSend_closes List.not_mem_nil h

/-! ### The header block fits -/

theorem headerLines_length (date : HttpDate) {status : ℕ} {statusText : Bytes}
    {mime : Option Bytes} {n : ℕ} (hs : status < 10 ^ 3) (ht : statusText.length ≤ 64)
    (hm : ∀ m ∈ mime, m.length ≤ 64) (hn : n < 10 ^ 20) :
    (statusLine status statusText).length ≤ 79 ∧ (dateLine date).length ≤ 63 ∧
      (mime.map contentTypeLine).toList.flatten.length ≤ 80 ∧
      (contentLengthLine n).length ≤ 38 := by
  have h1 := numeral_length_le (by decide) (by decide) hs
  have h2 := numeral_length_le (by decide) (by decide) hn
  have h3 := date.fits
  have hhttp : (ascii "HTTP/1.1 ").length = 9 := by decide
  have hdate : (ascii "Date: ").length = 6 := by decide
  have htype : (ascii "Content-Type: ").length = 14 := by decide
  have hlength : (ascii "Content-Length: ").length = 16 := by decide
  have hspace : (ascii " ").length = 1 := by decide
  have hcrlf : crlf.length = 2 := by decide
  simp only [statusLine, dateLine, contentLengthLine, List.length_append, hhttp, hdate, hlength,
    hspace, hcrlf]
  refine ⟨by omega, by omega, ?_, by omega⟩
  cases mime with
  | none => exact Nat.zero_le _
  | some m =>
    have := hm m rfl
    simp only [Option.map_some, Option.toList_some, List.flatten_cons, List.flatten_nil,
      contentTypeLine, List.length_append, htype, hcrlf, List.length_nil]
    omega

/-- With the pieces the server uses the header block always fits, and the response is
written. -/
theorem responseSend_isSome (date : HttpDate) {status : ℕ} {statusText : Bytes}
    {mime : Option Bytes} {extra : List Bytes} {body : Bytes} (keepAlive sendBody : Bool)
    (hs : status < 10 ^ 3) (ht : statusText.length ≤ 64) (hm : ∀ m ∈ mime, m.length ≤ 64)
    (he : extra.flatten.length ≤ 512) (hb : body.length < 10 ^ 20) :
    (responseSend date status statusText mime extra body keepAlive sendBody).isSome := by
  obtain ⟨h1, h2, h3, h4⟩ := headerLines_length date hs ht hm hb
  have hconn : (headerCacheConn keepAlive).length ≤ 24 := by cases keepAlive <;> decide
  have hserver : serverLine.length = 26 := by decide
  have hcrlf : crlf.length = 2 := by decide
  rw [responseSend, Option.isSome_map, headerCacheBuild, if_neg]
  · rfl
  · simp only [List.flatten_append, List.flatten_cons, List.flatten_nil, List.length_append,
      List.length_nil, hserver, hcrlf, headerBufSize]
    omega

end LocalMarks.Http

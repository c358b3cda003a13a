import LocalMarks.Http.Auth
import Mathlib.Algebra.Order.Group.MinMax

/-!
# Answering a request (api.c, file.c, mime.c)

The JSON endpoints are tried first, then the embedded files. What the other modules answer at
that moment, the metadata, the cached databases and the embedded files, is given.
-/

namespace LocalMarks.Http
open LocalMarks.Lib

/-- A buffer whose length is a `size_t`. -/
structure Blob where
  bytes : Bytes
  size_lt : bytes.length < 2 ^ 64

/-- `vfs_entry`. -/
structure VfsEntry where
  filePath : Bytes
  file : Blob
  contentHash : UInt32

/-- What the rest of the server answers while one request is served. -/
structure Services where
  date : HttpDate
  vfsLookup : Bytes → Option VfsEntry
  dbMetaCount : ℕ
  bookmarkCopy : ℤ → Option Blob
  databasesJson : Option Blob
  databaseJson : ℤ → Option Blob

/-! ### MIME types -/

def mimeMap : List (Bytes × Bytes) :=
  [(".html", "text/html; charset=utf-8"), (".htm", "text/html; charset=utf-8"),
    (".css", "text/css"), (".js", "application/javascript"), (".mjs", "application/javascript"),
    (".ts", "application/typescript"), (".json", "application/json"), (".xml", "application/xml"),
    (".png", "image/png"), (".jpg", "image/jpeg"), (".jpeg", "image/jpeg"), (".gif", "image/gif"),
    (".ico", "image/x-icon"), (".webp", "image/webp"), (".avif", "image/avif"),
    (".bmp", "image/bmp"), (".tiff", "image/tiff"), (".svg", "image/svg+xml"),
    (".woff", "font/woff"), (".woff2", "font/woff2"), (".ttf", "font/ttf"), (".otf", "font/otf"),
    (".mp3", "audio/mpeg"), (".ogg", "audio/ogg"), (".opus", "audio/opus"), (".wav", "audio/wav"),
    (".flac", "audio/flac"), (".aac", "audio/aac"), (".mp4", "video/mp4"),
    (".webm", "video/webm"), (".ogv", "video/ogg"), (".mov", "video/quicktime"),
    (".avi", "video/x-msvideo"), (".txt", "text/plain; charset=utf-8"),
    (".md", "text/plain; charset=utf-8"), (".csv", "text/csv; charset=utf-8"),
    (".pdf", "application/pdf"), (".zip", "application/zip"), (".gz", "application/gzip"),
    (".tar", "application/x-tar"), (".wasm", "application/wasm")].map
      fun p => (ascii p.1, ascii p.2)

def octetStream : Bytes := ascii "application/octet-stream"

/-- `mime_from_path`: by the part from the last dot of the file name, unless the name starts
with it. -/
def mimeFromPath (path : Bytes) : Bytes :=
  let base := (path.reverse.takeWhile (· != 47)).reverse
  match strchr 46 base.reverse with
  | none => octetStream
  | some (ext, stem) =>
    if stem = [] then octetStream
    else ((mimeMap.find? fun p => strcaseEq (46 :: ext.reverse) p.1).map Prod.snd).getD octetStream

/-! ### Embedded files -/

/-- build_etag. -/
def buildEtag (contentHash : UInt32) (fileLen : ℕ) : Bytes :=
  ascii "\"" ++ paddedNumeral 16 8 contentHash.toNat ++ ascii "-" ++ numeral 16 fileLen ++
    ascii "\""

/-- The outcome of the range arithmetic: no range asked for, none that overlaps the file, or
the first and the last byte to send. -/
inductive ByteRange where
  | whole
  | unsatisfiable
  | part (first last : ℤ)
  deriving DecidableEq

/-- The clipping that a suffix range and an ordinary range share. -/
def clipRange (len first last : ℤ) : ByteRange :=
  let first := if first < 0 then 0 else first
  let last := if len ≤ last then len - 1 else last
  if last < first ∨ len ≤ first then .unsatisfiable else .part first last

def byteRange (len start stop : ℤ) : ByteRange :=
  if start = -1 then .whole
  else if start < 0 then
    clipRange len (if len + start < 0 then 0 else len + start) (len - 1)
  else clipRange len start (if 0 ≤ stop then stop else len - 1)

def etagLine (etag : Bytes) : Bytes := ascii "ETag: " ++ etag ++ crlf
def acceptRangesLine : Bytes := ascii "Accept-Ranges: bytes\r\n"
def contentRangeLine (first last : ℤ) (len : ℕ) : Bytes :=
  ascii "Content-Range: bytes " ++ signedNumeral first ++ ascii "-" ++ signedNumeral last ++
    ascii "/" ++ numeral 10 len ++ crlf
def unsatisfiedRangeLine (len : ℕ) : Bytes :=
  ascii "Content-Range: bytes */" ++ numeral 10 len ++ crlf
def gzipLine : Bytes := ascii "Content-Encoding: gzip\r\n"

def isGzipped (data : Bytes) : Bool := data.take 2 = [0x1f, 0x8b]

def serveEntry (svc : Services) (req : HttpRequest) (entry : VfsEntry) (keepAlive : Bool) :
    Option Response :=
  let data := entry.file.bytes
  let etag := buildEtag entry.contentHash data.length
  let gzip := if isGzipped data then [gzipLine] else []
  if req.ifNoneMatch.bytes ≠ [] ∧ req.ifNoneMatch.bytes = etag then
    responseSend svc.date 304 (ascii "Not Modified") none [etagLine etag] [] keepAlive true
  else
    let mime := some (mimeFromPath entry.filePath)
    let sendBody := req.method ≠ .head
    match byteRange data.length req.rangeStart req.rangeEnd with
    | .unsatisfiable =>
      responseSend svc.date 416 (ascii "Range Not Satisfiable") none
        [unsatisfiedRangeLine data.length] [] keepAlive true
    | .whole =>
      responseSend svc.date 200 (ascii "OK") mime ([etagLine etag, acceptRangesLine] ++ gzip)
        data keepAlive sendBody
    | .part first last =>
      responseSend svc.date 206 (ascii "Partial Content") mime
        ([etagLine etag, acceptRangesLine, contentRangeLine first last data.length] ++ gzip)
        ((data.drop first.toNat).take (last - first + 1).toNat) keepAlive sendBody

/-- The path that is looked up: without a leading slash, `index.html` for the root. -/
def vfsPath (path : Bytes) : Bytes :=
  let p := match path with
    | 47 :: s => s
    | s => s
  if p = [] then ascii "index.html" else p

/-- `file_serve`. -/
def fileServe (svc : Services) (req : HttpRequest) (keepAlive : Bool) : Option Response :=
  if req.method = .other then
    responseError svc.date 405 (ascii "Only GET and HEAD are supported.")
  else
    match svc.vfsLookup (vfsPath req.path.bytes) with
    | none => responseError svc.date 404 (ascii "File not found.")
    | some entry => serveEntry svc req entry keepAlive

/-! ### JSON endpoints -/

/-- Which of its branches api_handle_request takes; `file` is the return value 0. -/
inductive Route where
  | bookmark (index : Bytes)
  | firstBookmark
  | databases
  | database (index : Bytes)
  | file
  deriving DecidableEq

/-- The index text of a path below `/bookmarks/`. The suffix has to be the first `.json`. -/
def bookmarkIndex (path : Bytes) : Option Bytes :=
  if (ascii "/bookmarks/").isPrefixOf path then
    match strstr (ascii ".json") (path.drop 11) with
    | some (index, []) => if index = [] then none else some index
    | _ => none
  else none

def routeOf (firstDb : Bool) (req : HttpRequest) : Route :=
  let path := req.path.bytes
  if req.method ≠ .get then .file
  else
    match bookmarkIndex path with
    | some index => .bookmark index
    | none =>
      if firstDb && path == ascii "/bookmarks.json" then .firstBookmark
      else if path = ascii "/api/databases" then .databases
      else if (ascii "/api/databases/").isPrefixOf path then .database (path.drop 15)
      else .file

/-- The index that a text denotes, when it is one of the databases. -/
def databaseIndex (svc : Services) (text : Bytes) : Option ℤ :=
  let r := strtol text
  if r.2 ≠ [] ∨ r.1 < 0 ∨ (svc.dbMetaCount : ℤ) ≤ r.1 then none else some r.1

/-- send_json_response. -/
def sendJsonResponse (svc : Services) (json : Blob) (keepAlive : Bool) : Option Response :=
  responseSend svc.date 200 (ascii "OK") (some (ascii "application/json; charset=utf-8"))
    [ascii "Cache-Control: no-cache\r\n"] json.bytes keepAlive true

/-- A JSON text, or the error for a missing one. -/
def jsonOrError (svc : Services) (json : Option Blob) (detail : Bytes) (keepAlive : Bool) :
    Option Response :=
  match json with
  | none => responseError svc.date 500 detail
  | some j => sendJsonResponse svc j keepAlive

/-- `api_handle_request`; `none` is the return value 0. -/
def apiHandleRequest (svc : Services) (firstDb : Bool) (req : HttpRequest) (keepAlive : Bool) :
    Option (Option Response) :=
  match routeOf firstDb req with
  | .bookmark index =>
    if 32 ≤ index.length then
      some (responseError svc.date 404 (ascii "Bookmark index out of range"))
    else
      match databaseIndex svc index with
      | none => some (responseError svc.date 404 (ascii "Bookmark index out of range"))
      | some i => some
          (jsonOrError svc (svc.bookmarkCopy i) (ascii "Cannot load bookmark database") keepAlive)
  | .firstBookmark => some
      (jsonOrError svc (svc.bookmarkCopy 0) (ascii "Cannot load bookmark database") keepAlive)
  | .databases => some (jsonOrError svc svc.databasesJson (ascii "Out of memory") keepAlive)
  | .database index =>
    if index = [] then some (responseError svc.date 404 (ascii "Database index out of range"))
    else
      match databaseIndex svc index with
      | none => some (responseError svc.date 404 (ascii "Database index out of range"))
      | some i => some (jsonOrError svc (svc.databaseJson i) (ascii "Out of memory") keepAlive)
  | .file => none

/-- The response to a request: the API endpoints first, then the embedded files. -/
def answer (svc : Services) (firstDb : Bool) (req : HttpRequest) (keepAlive : Bool) :
    Option Response :=
  match apiHandleRequest svc firstDb req keepAlive with
  | some r => r
  | none => fileServe svc req keepAlive

/-! ### Which answers close the connection -/

/-- The request is answered by an error page: a method other than GET and HEAD, a file that is
not embedded, an index that names no database, or a text that could not be produced. -/
def ErrorAnswered (svc : Services) (firstDb : Bool) (req : HttpRequest) : Prop :=
  match routeOf firstDb req with
  | .bookmark index => 32 ≤ index.length ∨
      ∀ i, databaseIndex svc index = some i → (svc.bookmarkCopy i).isNone
  | .firstBookmark => (svc.bookmarkCopy 0).isNone
  | .databases => svc.databasesJson.isNone
  | .database index => index = [] ∨
      ∀ i, databaseIndex svc index = some i → (svc.databaseJson i).isNone
  | .file => req.method = .other ∨ (svc.vfsLookup (vfsPath req.path.bytes)).isNone

/-- How a handler ends: with an error page, or with a response that follows the decision to
keep the connection. -/
inductive Ends (keepAlive : Bool) : Prop → Option Response → Prop where
  | error {p : Prop} {date : HttpDate} {status : ℕ} {detail : Bytes} (hp : p)
      (hs : status < 10 ^ 3) : Ends keepAlive p (responseError date status detail)
  | sent {p : Prop} {date : HttpDate} {status : ℕ} {text : Bytes} {mime : Option Bytes}
      {extra : List Bytes} {body : Bytes} {sendBody : Bool} (hp : ¬ p) (hs : status < 10 ^ 3)
      (ht : text.length ≤ 64) (hm : ∀ m ∈ mime, m.length ≤ 64)
      (he : extra.flatten.length ≤ 512) (hc : connClose ∉ extra) (hb : body.length < 10 ^ 20) :
      Ends keepAlive p (responseSend date status text mime extra body keepAlive sendBody)

theorem responseError_isSome (date : HttpDate) {status : ℕ} (detail : Bytes)
    (hs : status < 10 ^ 3) : (responseError date status detail).isSome := by
  refine responseSend_isSome date false true hs ?_ (by decide) (by decide) ?_
  · unfold errorFindStatusText
    split <;> decide
  · rw [List.length_take]
    omega

theorem Ends.written {keepAlive : Bool} {p : Prop} {r : Option Response}
    (h : Ends keepAlive p r) : r.isSome := by
  cases h with
  | error _ hs => exact responseError_isSome _ _ hs
  | sent _ hs ht hm he _ hb => exact responseSend_isSome _ _ _ hs ht hm he hb

theorem Ends.closes {keepAlive : Bool} {p : Prop} {r : Response}
    (h : Ends keepAlive p (some r)) : r.closes = true ↔ p ∨ keepAlive = false := by
  generalize hr : some r = o at h
  cases h with
  | error hp _ => simp [responseError_closes hr.symm, hp]
  | sent hp _ _ _ _ hc _ => simp [responseSend_closes hc hr.symm, hp]

theorem mimeFromPath_length (path : Bytes) : (mimeFromPath path).length ≤ 64 := by
  have hocta : octetStream.length ≤ 64 := by decide
  unfold mimeFromPath
  dsimp only
  split
  · exact hocta
  · split
    · exact hocta
    · cases hf : mimeMap.find? _ with
      | none => exact hocta
      | some e =>
        have hall : ∀ p ∈ mimeMap, p.2.length ≤ 64 := by decide +kernel
        exact hall e (List.mem_of_find?_eq_some hf)

theorem clipRange_part {len a b first last : ℤ} (h : clipRange len a b = .part first last) :
    0 ≤ first ∧ first ≤ last ∧ last < len := by
  unfold clipRange at h
  dsimp only at h
  generalize hf : (if a < 0 then 0 else a) = x at h
  generalize hl : (if len ≤ b then len - 1 else b) = y at h
  split at h
  · cases h
  · cases h
    refine ⟨?_, by omega, ?_⟩
    · rw [← hf]
      split <;> omega
    · rw [← hl]
      split <;> omega

theorem byteRange_part {len start stop first last : ℤ}
    (h : byteRange len start stop = .part first last) :
    0 ≤ first ∧ first ≤ last ∧ last < len := by
  unfold byteRange at h
  split at h
  · cases h
  · split at h <;> exact clipRange_part h

theorem buildEtag_length (contentHash : UInt32) {n : ℕ} (hn : n < 2 ^ 64) :
    (buildEtag contentHash n).length ≤ 27 := by
  have h1 : (numeral 16 contentHash.toNat).length ≤ 8 :=
    numeral_length_le (by decide) (by decide) contentHash.toNat_lt
  have h2 : (numeral 16 n).length ≤ 16 := numeral_length_le (by decide) (by decide) hn
  have hquote : (ascii "\"").length = 1 := by decide
  have hdash : (ascii "-").length = 1 := by decide
  simp only [buildEtag, paddedNumeral, List.length_append, List.length_replicate, hquote, hdash]
  omega

theorem etagLine_length (contentHash : UInt32) {n : ℕ} (hn : n < 2 ^ 64) :
    (etagLine (buildEtag contentHash n)).length ≤ 35 := by
  have := buildEtag_length contentHash hn
  have hname : (ascii "ETag: ").length = 6 := by decide
  have hcrlf : crlf.length = 2 := by decide
  simp only [etagLine, List.length_append, hname, hcrlf]
  omega

theorem signedNumeral_length {z : ℤ} (h0 : 0 ≤ z) (h : z < 2 ^ 64) :
    (signedNumeral z).length ≤ 20 := by
  rw [signedNumeral, if_neg (by omega)]
  exact numeral_length_le (by decide) (by decide) (by omega)

theorem rangeLines_length {first last : ℤ} {n : ℕ} (h0 : 0 ≤ first) (hfl : first ≤ last)
    (hln : last < n) (hn : n < 2 ^ 64) :
    (contentRangeLine first last n).length ≤ 85 ∧ (unsatisfiedRangeLine n).length ≤ 45 := by
  have h1 := signedNumeral_length h0 (by omega)
  have h2 := signedNumeral_length (h0.trans hfl) (by omega)
  have h3 : (numeral 10 n).length ≤ 20 := numeral_length_le (by decide) (by decide) (by omega)
  have hname : (ascii "Content-Range: bytes ").length = 21 := by decide
  have hstar : (ascii "Content-Range: bytes */").length = 23 := by decide
  have hdash : (ascii "-").length = 1 := by decide
  have hslash : (ascii "/").length = 1 := by decide
  have hcrlf : crlf.length = 2 := by decide
  simp only [contentRangeLine, unsatisfiedRangeLine, List.length_append, hname, hstar, hdash,
    hslash, hcrlf]
  omega

theorem unsatisfiedRangeLine_length {n : ℕ} (hn : n < 2 ^ 64) :
    (unsatisfiedRangeLine n).length ≤ 45 := by
  have h3 : (numeral 10 n).length ≤ 20 := numeral_length_le (by decide) (by decide) (by omega)
  have hstar : (ascii "Content-Range: bytes */").length = 23 := by decide
  have hcrlf : crlf.length = 2 := by decide
  simp only [unsatisfiedRangeLine, List.length_append, hstar, hcrlf]
  omega

theorem etagLine_ne (etag : Bytes) : etagLine etag ≠ connClose := by
  simp only [etagLine, List.append_assoc]
  exact ne_connClose (by decide) (by decide)

theorem contentRangeLine_ne (first last : ℤ) (n : ℕ) :
    contentRangeLine first last n ≠ connClose := by
  simp only [contentRangeLine, List.append_assoc]
  exact ne_connClose (by decide) (by decide)

theorem unsatisfiedRangeLine_ne (n : ℕ) : unsatisfiedRangeLine n ≠ connClose := by
  simp only [unsatisfiedRangeLine, List.append_assoc]
  exact ne_connClose (by decide) (by decide)

theorem gzip_extra (data : Bytes) {l : List Bytes} {n : ℕ} (hc : connClose ∉ l)
    (hl : l.flatten.length ≤ n) :
    connClose ∉ l ++ (if isGzipped data then [gzipLine] else []) ∧
      (l ++ (if isGzipped data then [gzipLine] else [])).flatten.length ≤ n + 24 := by
  have hne : connClose ≠ gzipLine := by decide
  have hlen : gzipLine.length = 24 := by decide
  split
  · rw [List.flatten_append, List.length_append, List.mem_append, List.mem_singleton]
    refine ⟨fun h => h.elim hc hne, ?_⟩
    simp only [List.flatten_cons, List.flatten_nil, List.append_nil, hlen]
    omega
  · rw [List.append_nil]
    exact ⟨hc, by omega⟩

theorem serveEntry_ends (svc : Services) (req : HttpRequest) (entry : VfsEntry)
    (keepAlive : Bool) : Ends keepAlive False (serveEntry svc req entry keepAlive) := by
  have hn := entry.file.size_lt
  have hetag := etagLine_length entry.contentHash hn
  have hetag_ne := (etagLine_ne (buildEtag entry.contentHash entry.file.bytes.length)).symm
  have haccept : acceptRangesLine.length = 22 := by decide
  have haccept_ne : connClose ≠ acceptRangesLine := by decide
  have hmime : ∀ m ∈ some (mimeFromPath entry.filePath), m.length ≤ 64 := by
    intro m hm
    obtain rfl := Option.some.inj hm
    exact mimeFromPath_length _
  unfold serveEntry
  dsimp only
  generalize etagLine (buildEtag entry.contentHash entry.file.bytes.length) = tag at *
  split
  · exact .sent id (by decide) (by decide) (by decide) (by simp; omega) (by simp [hetag_ne])
      (by decide)
  · split
    · have hlen := unsatisfiedRangeLine_length hn
      have hne := (unsatisfiedRangeLine_ne entry.file.bytes.length).symm
      exact .sent id (by decide) (by decide) (by decide) (by simp; omega) (by simp [hne])
        (by decide)
    · obtain ⟨hc, hl⟩ := gzip_extra entry.file.bytes (l := [tag, acceptRangesLine]) (n := 57)
        (by simp [hetag_ne, haccept_ne]) (by simp; omega)
      exact .sent id (by decide) (by decide) hmime (by omega) hc (by omega)
    · rename_i first last hr
      obtain ⟨h0, hfl, hln⟩ := byteRange_part hr
      have hlen := (rangeLines_length h0 hfl hln hn).1
      have hne := (contentRangeLine_ne first last entry.file.bytes.length).symm
      generalize contentRangeLine first last entry.file.bytes.length = line at *
      obtain ⟨hc, hl⟩ := gzip_extra entry.file.bytes (l := [tag, acceptRangesLine, line])
        (n := 142) (by simp [hetag_ne, haccept_ne, hne]) (by simp; omega)
      refine .sent id (by decide) (by decide) hmime (by omega) hc ?_
      rw [List.length_take, List.length_drop]
      omega

theorem jsonOrError_ends (svc : Services) (json : Option Blob) (detail : Bytes)
    (keepAlive : Bool) : Ends keepAlive json.isNone (jsonOrError svc json detail keepAlive) := by
  cases json with
  | none => exact .error rfl (by decide)
  | some j =>
    have hj := j.size_lt
    exact .sent (by simp) (by decide) (by decide) (by decide) (by decide) (by decide) (by omega)

theorem fileServe_ends (svc : Services) (req : HttpRequest) (keepAlive : Bool) :
    Ends keepAlive (req.method = .other ∨ (svc.vfsLookup (vfsPath req.path.bytes)).isNone)
      (fileServe svc req keepAlive) := by
  unfold fileServe
  by_cases hm : req.method = .other
  · rw [if_pos hm]
    exact .error (Or.inl hm) (by decide)
  · rw [if_neg hm]
    cases hv : svc.vfsLookup (vfsPath req.path.bytes) with
    | none => exact .error (Or.inr rfl) (by decide)
    | some entry =>
      have h := serveEntry_ends svc req entry keepAlive
      simpa [hm] using h

/-- Every request is answered by an error page or by a response that says what
`handle_client` has decided about the connection. -/
theorem answer_ends (svc : Services) (firstDb : Bool) (req : HttpRequest) (keepAlive : Bool) :
    Ends keepAlive (ErrorAnswered svc firstDb req) (answer svc firstDb req keepAlive) := by
  unfold ErrorAnswered answer apiHandleRequest
  cases hr : routeOf firstDb req with
  | file => exact fileServe_ends svc req keepAlive
  | firstBookmark => exact jsonOrError_ends ..
  | databases => exact jsonOrError_ends ..
  | bookmark index =>
    dsimp only
    by_cases hlen : 32 ≤ index.length
    · rw [if_pos hlen]
      exact .error (Or.inl hlen) (by decide)
    · rw [if_neg hlen]
      cases hi : databaseIndex svc index with
      | none => exact .error (Or.inr nofun) (by decide)
      | some i => simpa [hlen] using jsonOrError_ends svc (svc.bookmarkCopy i) _ keepAlive
  | database index =>
    dsimp only
    by_cases hnil : index = []
    · rw [if_pos hnil]
      exact .error (Or.inl hnil) (by decide)
    · rw [if_neg hnil]
      cases hi : databaseIndex svc index with
      | none => exact .error (Or.inr nofun) (by decide)
      | some i => simpa [hnil] using jsonOrError_ends svc (svc.databaseJson i) _ keepAlive

end LocalMarks.Http

import LocalMarks.Http.Client
import LocalMarks.Server.Closing
import LocalMarks.Server.Wire

/-!
# The borders between responses

A client that goes by `Content-Length` and stops at `Connection: close` gets the responses of a
connection back as they were written, and nothing that a request brought along can move the border
between two of them.
-/

namespace LocalMarks.Server
open LocalMarks.Lib
open LocalMarks.Http

/-- A client that knows whether it has sent HEAD finds the end of the response. -/
def Framed (head : Bool) (r : Response) : Prop :=
  ∃ text headers n, Announces r text headers n ∧ (head = false → r.body.length = n) ∧
    (head = true → r.closes = false → r.body = [])

/-! ### The extra headers -/

theorem numeral_above {base n : ℕ} (hb : 1 < base) (hb' : base ≤ 16) :
    ∀ c ∈ numeral base n, c ≠ 13 := by
  intro c hc
  unfold numeral at hc
  split at hc
  · obtain rfl := List.mem_singleton.mp hc
    decide
  · obtain ⟨d, hd, rfl⟩ := List.mem_map.mp hc
    have hlt := Nat.digits_lt_base hb (List.mem_reverse.mp hd)
    have hall : ∀ d : Fin 16, digitChar d ≠ 13 := by decide
    exact hall ⟨d, by omega⟩

theorem buildEtag_line (contentHash : UInt32) (n : ℕ) : (13 : Byte) ∉ buildEtag contentHash n := by
  intro hmem
  simp only [buildEtag, paddedNumeral, List.mem_append] at hmem
  rcases hmem with ((((hmem | hmem | hmem) | hmem) | hmem) | hmem)
  · exact absurd hmem (by decide)
  · exact absurd (List.eq_of_mem_replicate hmem) (by decide)
  · exact numeral_above (by decide) (by decide) 13 hmem rfl
  · exact absurd hmem (by decide)
  · exact numeral_above (by decide) (by decide) 13 hmem rfl
  · exact absurd hmem (by decide)

theorem signedNumeral_line (z : ℤ) : (13 : Byte) ∉ signedNumeral z := by
  intro hmem
  unfold signedNumeral at hmem
  split at hmem
  · rcases List.mem_append.mp hmem with hmem | hmem
    · exact absurd hmem (by decide)
    · exact numeral_above (by decide) (by decide) 13 hmem rfl
  · exact numeral_above (by decide) (by decide) 13 hmem rfl

def etagHeader (etag : Bytes) : Bytes × Bytes := (ascii "ETag", etag)
def acceptRangesHeader : Bytes × Bytes := (ascii "Accept-Ranges", ascii "bytes")
def contentRangeHeader (first last : ℤ) (len : ℕ) : Bytes × Bytes :=
  (ascii "Content-Range", ascii "bytes " ++ signedNumeral first ++ ascii "-" ++
    signedNumeral last ++ ascii "/" ++ numeral 10 len)
def unsatisfiedRangeHeader (len : ℕ) : Bytes × Bytes :=
  (ascii "Content-Range", ascii "bytes */" ++ numeral 10 len)
def gzipHeader : Bytes × Bytes := (ascii "Content-Encoding", ascii "gzip")

theorem contentRangeLine_header (first last : ℤ) (len : ℕ) :
    contentRangeLine first last len = headerLine (contentRangeHeader first last len) := by
  have hname : ascii "Content-Range: bytes " =
    ascii "Content-Range" ++ ascii ": " ++ ascii "bytes " := by decide
  simp only [contentRangeLine, headerLine, contentRangeHeader, hname, List.append_assoc]

theorem unsatisfiedRangeLine_header (len : ℕ) :
    unsatisfiedRangeLine len = headerLine (unsatisfiedRangeHeader len) := by
  have hname : ascii "Content-Range: bytes */" =
    ascii "Content-Range" ++ ascii ": " ++ ascii "bytes */" := by decide
  simp only [unsatisfiedRangeLine, headerLine, unsatisfiedRangeHeader, hname, List.append_assoc]

theorem etagHeader_extra {etag : Bytes} (h : (13 : Byte) ∉ etag) :
    ExtraHeader (etagHeader etag) where
  name := (all_bytes rfl : ∀ c ∈ ascii "ETag", c ≠ 58 ∧ c ≠ 13)
  value := h
  not_length := (by decide : (ascii "ETag").map lowerByte ≠ ascii "content-length")
  not_connection := (by decide : (ascii "ETag").map lowerByte ≠ ascii "connection")

theorem rangeHeader_extra {value : Bytes} (h : (13 : Byte) ∉ value) :
    ExtraHeader (ascii "Content-Range", value) where
  name := (all_bytes rfl : ∀ c ∈ ascii "Content-Range", c ≠ 58 ∧ c ≠ 13)
  value := h
  not_length := (by decide : (ascii "Content-Range").map lowerByte ≠ ascii "content-length")
  not_connection := (by decide : (ascii "Content-Range").map lowerByte ≠ ascii "connection")

theorem contentRangeHeader_extra (first last : ℤ) (len : ℕ) :
    ExtraHeader (contentRangeHeader first last len) := by
  apply rangeHeader_extra
  intro hmem
  simp only [List.mem_append] at hmem
  rcases hmem with ((((hmem | hmem) | hmem) | hmem) | hmem) | hmem
  · exact absurd hmem (by decide)
  · exact signedNumeral_line first hmem
  · exact absurd hmem (by decide)
  · exact signedNumeral_line last hmem
  · exact absurd hmem (by decide)
  · exact not_mem_numeral (by decide) len hmem

theorem unsatisfiedRangeHeader_extra (len : ℕ) : ExtraHeader (unsatisfiedRangeHeader len) := by
  apply rangeHeader_extra
  intro hmem
  rcases List.mem_append.mp hmem with hmem | hmem
  · exact absurd hmem (by decide)
  · exact not_mem_numeral (by decide) len hmem

theorem acceptRangesHeader_extra : ExtraHeader acceptRangesHeader :=
  ⟨⟨all_bytes rfl, by decide⟩, by decide, by decide⟩

theorem gzipHeader_extra : ExtraHeader gzipHeader :=
  ⟨⟨all_bytes rfl, by decide⟩, by decide, by decide⟩

/-! ### Each answer -/

theorem responseSend_framed {date : HttpDate} {status : ℕ} {text : Bytes} {mime : Option Bytes}
    (extra : List (Bytes × Bytes)) {body : Bytes} {keepAlive sendBody head : Bool} {r : Response}
    (htext : (13 : Byte) ∉ text) (hdate : (13 : Byte) ∉ date.bytes)
    (hmime : ∀ m ∈ mime, (13 : Byte) ∉ m) (hextra : ∀ h ∈ extra, ExtraHeader h)
    (hget : head = false → sendBody = true)
    (hhead : head = true → keepAlive = true → sendBody = false ∨ body = [])
    (h : responseSend date status text mime (extra.map headerLine) body keepAlive sendBody =
      some r) : Framed head r := by
  obtain ⟨hannounces, hcloses, hbody⟩ := responseSend_announces htext hdate hmime hextra h
  refine ⟨_, _, _, hannounces, ?_, ?_⟩
  · intro hh
    rw [hbody, hget hh, if_pos rfl]
  · intro hh hopen
    have hkeep : keepAlive = true := by
      rw [hopen] at hcloses
      cases keepAlive
      · cases hcloses
      · rfl
    rw [hbody]
    rcases hhead hh hkeep with hs | hs
    · rw [hs, if_neg Bool.false_ne_true]
    · rw [hs, ite_self]

theorem htmlType_line : ∀ m ∈ some (ascii "text/html; charset=utf-8"), (13 : Byte) ∉ m := by
  intro m hm
  obtain rfl := Option.some.inj hm
  decide

theorem responseError_framed {date : HttpDate} (hdate : (13 : Byte) ∉ date.bytes) {status : ℕ}
    {detail : Bytes} (head : Bool) {r : Response} (h : responseError date status detail = some r) :
    Framed head r := by
  have htext : (13 : Byte) ∉ errorFindStatusText status := by
    unfold errorFindStatusText
    split <;> decide
  unfold responseError at h
  dsimp only at h
  generalize (errorPage status (errorFindStatusText status) detail).take 4095 = body at h
  exact responseSend_framed [] htext hdate htmlType_line nofun (fun _ => rfl)
    (fun _ hkeep => absurd hkeep (by decide)) h

theorem authSendChallenge_framed {date : HttpDate} (hdate : (13 : Byte) ∉ date.bytes) (head : Bool)
    {r : Response} (h : authSendChallenge date = some r) : Framed head r := by
  have hextra : ∀ x ∈ [(ascii "WWW-Authenticate", ascii "Basic realm=\"live-server\""),
      (ascii "Cache-Control", ascii "no-store")], ExtraHeader x := by
    intro x hx
    rcases List.mem_cons.mp hx with rfl | hx
    · exact ⟨⟨all_bytes rfl, by decide⟩, by decide, by decide⟩
    · obtain rfl := List.mem_singleton.mp hx
      exact ⟨⟨all_bytes rfl, by decide⟩, by decide, by decide⟩
  exact responseSend_framed _ (by decide) hdate htmlType_line hextra (fun _ => rfl)
    (fun _ hkeep => absurd hkeep (by decide)) h

theorem jsonOrError_framed {svc : Services} (hdate : (13 : Byte) ∉ svc.date.bytes)
    {json : Option Blob} {detail : Bytes} {keepAlive : Bool} {r : Response}
    (h : jsonOrError svc json detail keepAlive = some r) : Framed false r := by
  cases json with
  | none => exact responseError_framed hdate false h
  | some j =>
    have hextra : ∀ x ∈ [(ascii "Cache-Control", ascii "no-cache")], ExtraHeader x := by
      intro x hx
      obtain rfl := List.mem_singleton.mp hx
      exact ⟨⟨all_bytes rfl, by decide⟩, by decide, by decide⟩
    have hmime : ∀ m ∈ some (ascii "application/json; charset=utf-8"), (13 : Byte) ∉ m := by
      intro m hm
      obtain rfl := Option.some.inj hm
      decide
    exact responseSend_framed _ (by decide) hdate hmime hextra (fun _ => rfl)
      (fun hhead => absurd hhead (by decide)) h

theorem mimeFromPath_line (path : Bytes) : (13 : Byte) ∉ mimeFromPath path := by
  have hocta : (13 : Byte) ∉ octetStream := by decide
  have htable : ∀ p ∈ mimeMap, (13 : Byte) ∉ p.2 := by decide +kernel
  unfold mimeFromPath
  dsimp only
  split
  · exact hocta
  · split
    · exact hocta
    · cases hf : mimeMap.find? _ with
      | none => exact hocta
      | some e => exact htable e (List.mem_of_find?_eq_some hf)

/-- The headers of a file, those of the range between them. -/
def fileHeaders (etag data : Bytes) (range : List (Bytes × Bytes)) : List (Bytes × Bytes) :=
  [etagHeader etag, acceptRangesHeader] ++ range ++ if isGzipped data then [gzipHeader] else []

theorem fileHeaders_lines (etag data : Bytes) (range : List (Bytes × Bytes)) :
    [etagLine etag, acceptRangesLine] ++ range.map headerLine ++
      (if isGzipped data then [gzipLine] else []) =
    (fileHeaders etag data range).map headerLine := by
  have haccept : acceptRangesLine = headerLine acceptRangesHeader := by decide
  have hgzip : gzipLine = headerLine gzipHeader := by decide
  rw [fileHeaders, List.map_append, List.map_append, haccept, hgzip]
  split <;> rfl

theorem fileHeaders_extra {etag data : Bytes} {range : List (Bytes × Bytes)}
    (hetag : (13 : Byte) ∉ etag) (hrange : ∀ h ∈ range, ExtraHeader h) :
    ∀ h ∈ fileHeaders etag data range, ExtraHeader h := by
  intro h hh
  rcases List.mem_append.mp hh with hh | hh
  · rcases List.mem_append.mp hh with hh | hh
    · rcases List.mem_cons.mp hh with rfl | hh
      · exact etagHeader_extra hetag
      · obtain rfl := List.mem_singleton.mp hh
        exact acceptRangesHeader_extra
    · exact hrange h hh
  · split at hh
    · obtain rfl := List.mem_singleton.mp hh
      exact gzipHeader_extra
    · cases hh

theorem serveEntry_framed {svc : Services} (hdate : (13 : Byte) ∉ svc.date.bytes)
    {req : HttpRequest} {entry : VfsEntry} {keepAlive : Bool} {r : Response}
    (h : serveEntry svc req entry keepAlive = some r) :
    Framed (decide (req.method = .head)) r := by
  have hetag := buildEtag_line entry.contentHash entry.file.bytes.length
  have hmime : ∀ m ∈ some (mimeFromPath entry.filePath), (13 : Byte) ∉ m := by
    intro m hm
    obtain rfl := Option.some.inj hm
    exact mimeFromPath_line _
  have hnone : ∀ m ∈ (none : Option Bytes), (13 : Byte) ∉ m := fun m hm =>
    absurd hm (Option.not_mem_none m)
  have hget : decide (req.method = .head) = false → decide (req.method ≠ .head) = true := by
    intro hh
    exact decide_eq_true (of_decide_eq_false hh)
  have hhead : ∀ body : Bytes, decide (req.method = .head) = true → keepAlive = true →
      decide (req.method ≠ .head) = false ∨ body = [] := by
    intro body hh _
    exact Or.inl (decide_eq_false (not_not.mpr (of_decide_eq_true hh)))
  unfold serveEntry at h
  dsimp only at h
  generalize buildEtag entry.contentHash entry.file.bytes.length = etag at *
  split at h
  · exact responseSend_framed [etagHeader etag] (by decide) hdate hnone
      (by simpa using etagHeader_extra hetag) (fun _ => rfl) (fun _ _ => Or.inr rfl) h
  · split at h
    · rw [unsatisfiedRangeLine_header] at h
      exact responseSend_framed [unsatisfiedRangeHeader entry.file.bytes.length]
        (by decide) hdate hnone (by simpa using unsatisfiedRangeHeader_extra _) (fun _ => rfl)
        (fun _ _ => Or.inr rfl) h
    · have hlines := fileHeaders_lines etag entry.file.bytes []
      rw [List.map_nil, List.append_nil] at hlines
      rw [hlines] at h
      exact responseSend_framed _ (by decide) hdate hmime
        (fileHeaders_extra hetag fun x hx => absurd hx List.not_mem_nil) hget (hhead _) h
    · rename_i first last _
      have hlines := fileHeaders_lines etag entry.file.bytes
        [contentRangeHeader first last entry.file.bytes.length]
      rw [List.map_singleton, ← contentRangeLine_header] at hlines
      have hrange : ∀ h ∈ [contentRangeHeader first last entry.file.bytes.length],
          ExtraHeader h := by simpa using contentRangeHeader_extra first last _
      rw [show [etagLine etag, acceptRangesLine,
        contentRangeLine first last entry.file.bytes.length] = [etagLine etag, acceptRangesLine] ++
          [contentRangeLine first last entry.file.bytes.length] from rfl, hlines] at h
      exact responseSend_framed _ (by decide) hdate hmime (fileHeaders_extra hetag hrange) hget
        (hhead _) h

theorem fileServe_framed {svc : Services} (hdate : (13 : Byte) ∉ svc.date.bytes)
    {req : HttpRequest} {keepAlive : Bool} {r : Response}
    (h : fileServe svc req keepAlive = some r) : Framed (decide (req.method = .head)) r := by
  unfold fileServe at h
  split at h
  · exact responseError_framed hdate _ h
  · split at h
    · exact responseError_framed hdate _ h
    · exact serveEntry_framed hdate h

/-- The JSON endpoints answer GET only; everything else knows of HEAD. -/
theorem answer_framed {svc : Services} (hdate : (13 : Byte) ∉ svc.date.bytes) {firstDb : Bool}
    {req : HttpRequest} {keepAlive : Bool} {r : Response}
    (h : answer svc firstDb req keepAlive = some r) : Framed (decide (req.method = .head)) r := by
  by_cases hget : req.method = .get
  · have hhead : decide (req.method = .head) = false := by rw [hget]; decide
    unfold answer apiHandleRequest at h
    cases hroute : routeOf firstDb req with
    | file =>
      rw [hroute] at h
      exact fileServe_framed hdate h
    | firstBookmark =>
      rw [hroute] at h
      rw [hhead]
      exact jsonOrError_framed hdate h
    | databases =>
      rw [hroute] at h
      rw [hhead]
      exact jsonOrError_framed hdate h
    | bookmark index =>
      rw [hroute] at h
      rw [hhead]
      dsimp only at h
      split at h
      · rename_i hapi
        split at hapi
        · exact responseError_framed hdate _ (Option.some.inj hapi ▸ h)
        · split at hapi
          · exact responseError_framed hdate _ (Option.some.inj hapi ▸ h)
          · exact jsonOrError_framed hdate (Option.some.inj hapi ▸ h)
      · rename_i hapi
        split at hapi
        · cases hapi
        · split at hapi <;> cases hapi
    | database index =>
      rw [hroute] at h
      rw [hhead]
      dsimp only at h
      split at h
      · rename_i hapi
        split at hapi
        · exact responseError_framed hdate _ (Option.some.inj hapi ▸ h)
        · split at hapi
          · exact responseError_framed hdate _ (Option.some.inj hapi ▸ h)
          · exact jsonOrError_framed hdate (Option.some.inj hapi ▸ h)
      · rename_i hapi
        split at hapi
        · cases hapi
        · split at hapi <;> cases hapi
  · have hroute : routeOf firstDb req = .file := by
      unfold routeOf
      exact if_pos hget
    unfold answer apiHandleRequest at h
    rw [hroute] at h
    exact fileServe_framed hdate h

theorem badRequest_framed (head : Bool) : Framed head badRequest := by
  refine ⟨ascii "Bad Request", [(ascii "Content-Type", ascii "text/html; charset=utf-8"),
    (ascii "Content-Length", numeral 10 24), (ascii "Connection", ascii "close")], 24,
    ⟨by decide +kernel, by decide, ?_, by decide +kernel, by decide +kernel⟩, fun _ => ?_,
    fun _ h => ?_⟩
  · intro h hh
    simp only [List.mem_cons, List.not_mem_nil, or_false] at hh
    rcases hh with rfl | rfl | rfl
    · exact ⟨all_bytes rfl, by decide⟩
    · exact ⟨all_bytes rfl, not_mem_numeral (by decide) 24⟩
    · exact ⟨all_bytes rfl, by decide⟩
  · decide
  · exact absurd h (by decide +kernel)

/-! ### The whole connection -/

/-- The responses up to the first one that closes the connection. -/
def untilClose : List (ℕ × Response) → List (ℕ × Response)
  | [] => []
  | a :: as => a :: if a.2.closes then [] else untilClose as

/-- The client goes by the right method in the rounds whose requests were parsed. -/
def Knows (heads : ℕ → Bool) (es : List Event) : Prop :=
  ∀ k req r, .respond k (some req) r ∈ es → heads k = decide (req.method = .head)

theorem Framed.read {head : Bool} {r : Response} (h : Framed head r) (rest : Bytes) :
    (r.received head).closes = r.closes ∧ ∃ rest', readResponse head (r.bytes ++ rest) =
      some (r.received head, rest') ∧ (r.closes = false → rest' = rest) := by
  obtain ⟨text, headers, n, hannounces, hget, hhead⟩ := h
  refine ⟨hannounces.closes head, _, hannounces.read hget rest, ?_⟩
  intro hopen
  cases head with
  | true => rw [if_pos rfl, hhead rfl hopen, List.nil_append]
  | false => rfl

theorem clientRound_framed {cfg : ServerConfig} {env : Round} {k : ℕ} {t : Conn}
    (hdate : (13 : Byte) ∉ env.svc.date.bytes) {heads : ℕ → Bool}
    (hheads : Knows heads (clientRound cfg env k t).1) :
    ∃ r, answers (clientRound cfg env k t).1 = [(k, r)] ∧ Framed (heads k) r := by
  have hstep := clientRound_step cfg env k t
  generalize clientRound cfg env k t = round at hheads hstep
  cases hstep with
  | noMemory => exact ⟨_, rfl, badRequest_framed _⟩
  | readFailed => exact ⟨_, rfl, badRequest_framed _⟩
  | badLine block hp => exact ⟨_, rfl, badRequest_framed _⟩
  | denied block req t' r hp hd hr => exact ⟨r, rfl, authSendChallenge_framed hdate _ hr⟩
  | closed block req t' r hp hd hk hr =>
    rw [hheads k req r (by simp)]
    exact ⟨r, rfl, answer_framed hdate hr⟩
  | kept block req t' r hp hd hk hr =>
    rw [hheads k req r (by simp)]
    exact ⟨r, rfl, answer_framed hdate hr⟩

theorem readResponses_nil (heads : ℕ → Bool) (k : ℕ) : readResponses heads k [] = [] :=
  readResponses_none rfl

theorem clientFrom_read (cfg : ServerConfig) (env : ℕ → Round) (heads : ℕ → Bool)
    (hdate : ∀ k, (13 : Byte) ∉ (env k).svc.date.bytes) (k : ℕ) (t : Conn) :
    Knows heads (clientFrom cfg env k t) →
      readResponses heads k (sentBytes (clientFrom cfg env k t)) =
        (untilClose (answers (clientFrom cfg env k t))).map fun a => a.2.received (heads a.1) := by
  induction k, t using clientFrom_induct cfg env with
  | last k t h =>
    rw [clientFrom_last h]
    intro hheads
    obtain ⟨r, hanswers, hframed⟩ := clientRound_framed (hdate k) hheads
    obtain ⟨hcloses, rest, hread, hrest⟩ := hframed.read []
    rw [sentBytes, hanswers, List.flatMap_singleton]
    rw [List.append_nil] at hread
    rw [readResponses_some hread, hcloses, untilClose]
    cases hclose : r.closes with
    | true => rfl
    | false =>
      rw [hrest hclose]
      simp [readResponses_nil, untilClose]
  | next k t t' h ih =>
    rw [clientFrom_next h]
    intro hheads
    have hround : Knows heads (clientRound cfg (env k) k t).1 := fun j req r hmem =>
      hheads j req r (List.mem_append_left _ hmem)
    have hlater : Knows heads (clientFrom cfg env (k + 1) t') := fun j req r hmem =>
      hheads j req r (List.mem_append_right _ hmem)
    obtain ⟨r, hanswers, hframed⟩ := clientRound_framed (hdate k) hround
    obtain ⟨hcloses, rest, hread, hrest⟩ :=
      hframed.read (sentBytes (clientFrom cfg env (k + 1) t'))
    have hbytes : sentBytes ((clientRound cfg (env k) k t).1 ++ clientFrom cfg env (k + 1) t') =
        r.bytes ++ sentBytes (clientFrom cfg env (k + 1) t') := by
      rw [sentBytes, answers_append, hanswers, List.flatMap_append, List.flatMap_singleton,
        sentBytes]
    rw [hbytes, readResponses_some hread, hcloses, answers_append, hanswers,
      List.singleton_append, untilClose]
    cases hclose : r.closes with
    | true => rfl
    | false =>
      rw [hrest hclose, if_neg Bool.false_ne_true, ih hlater]
      rfl

def hiRound : Round where
  mallocOk := true
  svc :=
    { date := fieldOf 56 dateSize_pos (ascii "Thu, 01 Jan 1970 00:00:00 GMT")
      vfsLookup := fun path =>
        if path == ascii "hi" then some ⟨ascii "hi", ⟨ascii "Hello", by decide⟩, 7⟩ else none
      dbMetaCount := 0, bookmarkCopy := fun _ => none, databasesJson := none,
      databaseJson := fun _ => none }
  shutdown := false

end LocalMarks.Server

import LocalMarks.Http.PathRequest
import LocalMarks.Server.Framing
import LocalMarks.Vfs.Hash

/-!
# Fetching an embedded file

A request on the wire, the parsing, the index of the embedded files, `file_serve` and the bytes
that come back, put together: what a client gets that asks for a file.
-/

namespace LocalMarks.Server
open LocalMarks.Lib
open LocalMarks.Http
open LocalMarks.Vfs

/-! ### The embedded files -/

theorem noContent_lt : ([] : Bytes).length < 2 ^ 64 := by decide

/-- The bytes of an entry; an empty file may have no array. -/
def content (e : TableEntry) : Blob := e.fileStart.getD ⟨[], noContent_lt⟩

/-- The entry as `file_serve` sees it. -/
def vfsEntry (e : TableEntry) : VfsEntry := ⟨e.filePath.bytes, content e, e.contentHash⟩

/-- The embedded files are those of the table. -/
def ServesTable (svc : Services) (cap : HashCap) (h : VfsHash) : Prop :=
  ∀ path : CString, svc.vfsLookup path.bytes =
    (vfsLookup cap h path).bind fun i => (h.table[i]?).map vfsEntry

theorem ServesTable.lookup {svc : Services} {cap : HashCap} {table : List TableEntry} {h : VfsHash}
    (hserves : ServesTable svc cap h) (hfit : table.length ≤ cap.size)
    (hinit : vfsHashInit cap table = some h) (path : CString) : svc.vfsLookup path.bytes =
      (table.find? fun e => e.filePath = path).map fun e => vfsEntry e.hashed := by
  obtain ⟨h', hinit', hl⟩ := vfsHashInit_loaded cap hfit
  obtain rfl := Option.some.inj (hinit.symm.trans hinit')
  have hget : ∀ i : ℕ, (h.table[i]?).map vfsEntry =
      (table[i]?).map fun e : TableEntry => vfsEntry e.hashed := by
    intro i
    rw [hl.table_eq, List.getElem?_map, Option.map_map]
    rfl
  rw [hserves, vfsLookup_range hl, find_range_eq, List.find?_eq_bind_findIdx?_getElem?,
    Option.map_bind]
  simp only [hget]
  rfl

/-! ### The first response of a connection -/

/-- The first response that the client reads off the socket. -/
def firstResponse (head : Bool) (cfg : ServerConfig) (env : ℕ → Round)
    (kernel : ℕ → ℕ → List KernelResult) (t : Conn) : Option Received :=
  (onSocket kernel (handleClient cfg env t) []).bind fun bytes =>
    (readResponses (fun _ => head) 0 bytes).head?

theorem answers_served {cfg : ServerConfig} {env : ℕ → Round} {k : ℕ} {t t' : Conn}
    {block : Bytes} {req : HttpRequest}
    (hparse : httpParseRequest t (env k).mallocOk = .ok block req t')
    (hdenied : denied cfg req = false) :
    ∃ r later, answer (env k).svc cfg.firstDb req (wantsKeepAlive req cfg.keepAliveTimeout) =
        some r ∧ answers (clientFrom cfg env k t) = (k, r) :: later := by
  obtain ⟨r, hr⟩ := Option.isSome_iff_exists.mp (answer_ends (env k).svc cfg.firstDb req
    (wantsKeepAlive req cfg.keepAliveTimeout)).written
  have hround : answers (clientRound cfg (env k) k t).1 = [(k, r)] := by
    unfold clientRound
    rw [hparse]
    dsimp only
    rw [hdenied, hr]
    cases wantsKeepAlive req cfg.keepAliveTimeout
    · rfl
    · cases (env k).shutdown <;> rfl
  cases hnext : (clientRound cfg (env k) k t).2 with
  | none => exact ⟨r, [], hr, by rw [clientFrom_last hnext, hround]⟩
  | some t'' => exact ⟨r, _, hr, by rw [clientFrom_next hnext, answers_append, hround]; rfl⟩

/-- A request that is parsed and let in is answered, and the client reads the answer when the kernel
takes it whole. -/
theorem firstResponse_served {cfg : ServerConfig} {env : ℕ → Round} {t t' : Conn} {block : Bytes}
    {kernel : ℕ → ℕ → List KernelResult} {req : HttpRequest}
    (hparse : httpParseRequest t (env 0).mallocOk = .ok block req t')
    (hdenied : denied cfg req = false) (hdate : (13 : Byte) ∉ (env 0).svc.date.bytes)
    (htaken : TakesAll kernel (handleClient cfg env t)) :
    ∃ r, answer (env 0).svc cfg.firstDb req (wantsKeepAlive req cfg.keepAliveTimeout) = some r ∧
      firstResponse (decide (req.method = .head)) cfg env kernel t =
        some (r.received (decide (req.method = .head))) := by
  obtain ⟨r, later, hr, hanswers⟩ := answers_served hparse hdenied
  obtain ⟨-, rest, hread, -⟩ := (answer_framed hdate hr).read (later.flatMap fun a => a.2.bytes)
  refine ⟨r, hr, ?_⟩
  rw [firstResponse, htaken.onSocket [], Option.bind_some, List.nil_append, handleClient_eq,
    sentBytes, hanswers, List.flatMap_cons, readResponses_some hread]
  rfl

/-! ### Asking for a file -/

/-- The embedded files with their index. -/
structure Embedded where
  cap : HashCap
  table : List TableEntry
  fits : table.length ≤ cap.size
  index : VfsHash
  indexed : vfsHashInit cap table = some index

def Embedded.find (site : Embedded) (path : CString) : Option TableEntry :=
  site.table.find? fun e => e.filePath = path

def etagOf (e : TableEntry) : Bytes :=
  buildEtag e.hashed.contentHash (content e).bytes.length

theorem fileName_nul_free (q : PathRequest) : (0 : Byte) ∉ q.file := by
  show (0 : Byte) ∉ if q.path.bytes = [] then ascii "index.html" else q.path.bytes
  split
  · decide
  · exact q.path.nul_free

def fileName (q : PathRequest) : CString := ⟨q.file, fileName_nul_free q⟩

/-- A connection on which a client asks for a path first. -/
structure Exchange where
  cfg : ServerConfig
  env : ℕ → Round
  request : PathRequest
  delivery : Delivery request.block
  kernel : ℕ → ℕ → List KernelResult

def Exchange.events (x : Exchange) : List Event := handleClient x.cfg x.env x.delivery.conn

def Exchange.response (x : Exchange) : Option Received :=
  firstResponse x.request.head x.cfg x.env x.kernel x.delivery.conn

/-- A server without authentication that can allocate its buffer, a request that fits it, and a
kernel that takes the responses whole. -/
structure Exchange.Open (x : Exchange) : Prop where
  user : x.cfg.user = none
  pass : x.cfg.pass = none
  memory : (x.env 0).mallocOk = true
  date : (13 : Byte) ∉ (x.env 0).svc.date.bytes
  short : x.request.block.length ≤ 8190
  taken : TakesAll x.kernel x.events

theorem Exchange.Open.answered {x : Exchange} (hx : x.Open) :
    ∃ keepAlive r, answer (x.env 0).svc x.cfg.firstDb x.request.parsed keepAlive = some r ∧
      x.response = some (r.received x.request.head) := by
  have hdenied : denied x.cfg x.request.parsed = false := by
    rw [denied, hx.user, hx.pass]
    rfl
  have hhead : decide (x.request.parsed.method = .head) = x.request.head := by
    rw [x.request.parsed_method]
    cases x.request.head <;> decide
  obtain ⟨t', hparse⟩ := x.request.delivered x.delivery hx.short
  rw [← hx.memory] at hparse
  obtain ⟨r, hr, hresponse⟩ := firstResponse_served hparse hdenied hx.date hx.taken
  rw [hhead] at hresponse
  exact ⟨_, r, hr, hresponse⟩

/-- A server with these files, and a request for one of them. -/
structure Exchange.With (x : Exchange) (site : Embedded) : Prop extends x.Open where
  files : ServesTable (x.env 0).svc site.cap site.index
  not_api : ¬ ApiPath (47 :: x.request.path.bytes)

/-- The file is found, and the client reads what `file_serve` sends for it. -/
theorem Exchange.With.served {x : Exchange} {site : Embedded} (hx : x.With site) {e : TableEntry}
    (hfind : site.find (fileName x.request) = some e) :
    ∃ keepAlive r, serveEntry (x.env 0).svc x.request.parsed (vfsEntry e.hashed) keepAlive =
      some r ∧ x.response = some (r.received x.request.head) := by
  obtain ⟨keepAlive, r, hr, hresponse⟩ := hx.toOpen.answered
  have hentry := hx.files.lookup site.fits site.indexed (fileName x.request)
  rw [show (site.table.find? fun e => e.filePath = fileName x.request) = some e from hfind,
    Option.map_some] at hentry
  have hfile : (x.env 0).svc.vfsLookup x.request.file = some (vfsEntry e.hashed) := hentry
  rw [x.request.parsed_answer hx.not_api, hfile] at hr
  exact ⟨keepAlive, r, hr, hresponse⟩

/-! ### What `file_serve` sends -/

theorem quote_ends (contentHash : UInt32) (n : ℕ) :
    trim (buildEtag contentHash n) = buildEtag contentHash n := by
  apply trim_of_ends
  · intro c hc
    have hfirst : (buildEtag contentHash n).head? = some 34 := rfl
    rw [hfirst] at hc
    obtain rfl := Option.some.inj hc
    decide
  · intro c hc
    have hlast : (buildEtag contentHash n).getLast? = some 34 := by
      rw [buildEtag]
      exact List.getLast?_append_of_ne_nil _ (List.cons_ne_nil _ _)
    rw [hlast] at hc
    obtain rfl := Option.some.inj hc
    decide

theorem announced_etag {r : Response} {text : Bytes} {date : HttpDate} {mime : Option Bytes}
    {n : ℕ} {contentHash : UInt32} {len : ℕ} {rest : List (Bytes × Bytes)} {keepAlive : Bool}
    (h : Announces r text (sentHeaders date mime n
      (etagHeader (buildEtag contentHash len) :: rest) keepAlive) n) (head : Bool) :
    headerValue (ascii "etag") (r.received head).headers = some (buildEtag contentHash len) := by
  have hlength : (ascii "Content-Length").map lowerByte ≠ ascii "etag" := by decide
  have hname : (etagHeader (buildEtag contentHash len)).1.map lowerByte = ascii "etag" :=
    (by decide : (ascii "ETag").map lowerByte = ascii "etag")
  rw [Response.received, h.headers_eq, headerValue_trimmed,
    sentHeaders_front (by decide) (by decide) (by decide), headerValue_cons, if_neg hlength,
    List.cons_append, headerValue_cons, if_pos hname, Option.map_some, etagHeader, quote_ends]

/-- The whole file, when no range is asked for and the client does not have it. -/
theorem serveEntry_whole {svc : Services} (hdate : (13 : Byte) ∉ svc.date.bytes)
    {req : HttpRequest} {entry : VfsEntry} {keepAlive : Bool} {r : Response} (hrange : NoRange req)
    (htag : ¬ TagMatches req entry) (h : serveEntry svc req entry keepAlive = some r) :
    r.status = 200 ∧ r.body = (if req.method = .head then [] else entry.file.bytes) ∧
      ∀ head, headerValue (ascii "etag") (r.received head).headers =
          some (buildEtag entry.contentHash entry.file.bytes.length) ∧
        contentLength (r.received head).headers = some entry.file.bytes.length := by
  have hwhole : byteRange entry.file.bytes.length req.rangeStart req.rangeEnd = .whole :=
    if_pos hrange.1
  have hmime : ∀ m ∈ some (mimeFromPath entry.filePath), (13 : Byte) ∉ m := by
    intro m hm
    obtain rfl := Option.some.inj hm
    exact mimeFromPath_line _
  have hlines := fileHeaders_lines (buildEtag entry.contentHash entry.file.bytes.length)
    entry.file.bytes []
  rw [List.map_nil, List.append_nil] at hlines
  unfold TagMatches at htag
  unfold serveEntry at h
  dsimp only at h
  rw [if_neg htag, hwhole] at h
  dsimp only at h
  rw [hlines] at h
  obtain ⟨hannounces, -, hbody⟩ := responseSend_announces (by decide) hdate hmime
    (fileHeaders_extra (buildEtag_line _ _) fun x hx => absurd hx List.not_mem_nil) h
  have hstatus : r.status = 200 := by
    obtain ⟨lines, -, rfl⟩ := Option.map_eq_some_iff.mp h
    rfl
  refine ⟨hstatus, hbody.trans (body_unless_head req _), fun head => ?_⟩
  refine ⟨announced_etag hannounces head, ?_⟩
  rw [Response.received, hannounces.headers_eq]
  exact hannounces.contentLength

/-- Two tags are the same only for the same hash and the same length. -/
theorem buildEtag_inj {h h' : UInt32} {n n' : ℕ} (heq : buildEtag h n = buildEtag h' n') :
    h = h' ∧ n = n' := by
  have hlen : ∀ k : UInt32, (paddedNumeral 16 8 k.toNat).length = 8 := fun k =>
    paddedNumeral_length (by decide) (by decide) k.toNat_lt
  simp only [buildEtag, List.append_assoc] at heq
  obtain ⟨hhash, hrest⟩ := List.append_inj (List.append_cancel_left heq)
    ((hlen h).trans (hlen h').symm)
  constructor
  · exact UInt32.toNat_inj.mp (paddedNumeral_injective 8 (by decide) (by decide) hhash)
  · exact numeral_injective (by decide) (by decide)
      (List.append_cancel_right (List.append_cancel_left hrest))

theorem parsed_tagMatches (q : PathRequest) (entry : VfsEntry) :
    TagMatches q.parsed entry ↔ lastSent q.headers (ascii "if-none-match") =
      buildEtag entry.contentHash entry.file.bytes.length := by
  have hfield : q.parsed.ifNoneMatch.bytes =
      (lastSent q.headers (ascii "if-none-match")).take 127 := q.parsed_field .ifNoneMatch
  have hlen := buildEtag_length entry.contentHash entry.file.size_lt
  have hne : buildEtag entry.contentHash entry.file.bytes.length ≠ [] := List.cons_ne_nil _ _
  unfold TagMatches
  rw [hfield]
  constructor
  · rintro ⟨-, htag⟩
    have hcut := congrArg List.length htag
    rw [List.length_take] at hcut
    rw [← htag, List.take_of_length_le (by omega)]
  · intro htag
    rw [htag, List.take_of_length_le (by omega)]
    exact ⟨hne, rfl⟩

theorem vfsEntry_hashed (e : TableEntry) :
    (vfsEntry e.hashed).file = content e ∧
      buildEtag (vfsEntry e.hashed).contentHash (vfsEntry e.hashed).file.bytes.length =
        etagOf e := by
  have hcontent : content e.hashed = content e := by
    unfold TableEntry.hashed content
    split
    · rfl
    · split <;> simp [*]
  refine ⟨hcontent, ?_⟩
  show buildEtag e.hashed.contentHash (content e.hashed).bytes.length = _
  rw [hcontent, etagOf]

/-- What the client reads when it does not have the file and asks for no range. -/
theorem Exchange.With.whole {x : Exchange} {site : Embedded} (hx : x.With site) {e : TableEntry}
    (hfind : site.find (fileName x.request) = some e)
    (hrange : ∀ h ∈ x.request.headers, NotRange h)
    (htag : lastSent x.request.headers (ascii "if-none-match") ≠ etagOf e) :
    ∃ r : Response, x.response = some (r.received x.request.head) ∧ r.status = 200 ∧
      (r.received x.request.head).body =
        (if x.request.head then [] else (content e).bytes) ∧
      headerValue (ascii "etag") (r.received x.request.head).headers = some (etagOf e) ∧
      contentLength (r.received x.request.head).headers = some (content e).bytes.length := by
  obtain ⟨keepAlive, r, hr, hresponse⟩ := hx.served hfind
  obtain ⟨hfile, hetag⟩ := vfsEntry_hashed e
  have hnew : ¬ TagMatches x.request.parsed (vfsEntry e.hashed) := by
    rw [parsed_tagMatches, hetag]
    exact htag
  obtain ⟨hstatus, hbody, hheaders⟩ :=
    serveEntry_whole hx.date (x.request.parsed_noRange hrange) hnew hr
  obtain ⟨htagged, hlength⟩ := hheaders x.request.head
  rw [hetag] at htagged
  rw [hfile] at hlength hbody
  refine ⟨r, hresponse, hstatus, ?_, htagged, hlength⟩
  rw [Response.received, hbody, x.request.parsed_method]
  cases x.request.head <;> rfl

/-- A client that asks for an embedded file, whatever it encodes in the path and whatever other
headers it sends, gets all of its bytes and a tag, and the headers alone if it asks with HEAD. -/
theorem file_fetched {x : Exchange} {site : Embedded} (hx : x.With site) {e : TableEntry}
    (hfind : site.find (fileName x.request) = some e)
    (hrange : ∀ h ∈ x.request.headers, NotRange h)
    (htag : lastSent x.request.headers (ascii "if-none-match") ≠ etagOf e) :
    ∃ r, x.response = some r ∧ r.status = 200 ∧
      r.body = (if x.request.head then [] else (content e).bytes) ∧
      headerValue (ascii "etag") r.headers = some (etagOf e) ∧
      contentLength r.headers = some (content e).bytes.length := by
  obtain ⟨r, hresponse, hstatus, hrest⟩ := hx.whole hfind hrange htag
  exact ⟨_, hresponse, hstatus, hrest⟩

/-- An exchange over a kernel that takes everything at once. -/
def freeExchange (cfg : ServerConfig) (env : ℕ → Round) (q : PathRequest)
    (d : Delivery q.block) : Exchange :=
  ⟨cfg, env, q, d, generous (sentBytes (handleClient cfg env d.conn)).length⟩

theorem freeExchange_taken (cfg : ServerConfig) (env : ℕ → Round) (q : PathRequest)
    (d : Delivery q.block) :
    TakesAll (freeExchange cfg env q d).kernel (freeExchange cfg env q d).events :=
  generous_takesAll le_rfl

def aPath : CString := ⟨ascii "a", by decide⟩
def oneFile (file : Blob) : TableEntry := ⟨aPath, some file, 0⟩

theorem oneFile_fits (file : Blob) : [oneFile file].length ≤ twoSlots.size :=
  (by decide : 1 ≤ twoSlots.size)

theorem oneFile_indexed (file : Blob) : (vfsHashInit twoSlots [oneFile file]).isSome := by
  obtain ⟨h, hinit, -⟩ := vfsHashInit_loaded twoSlots (oneFile_fits file)
  rw [hinit]
  rfl

def oneSite (file : Blob) : Embedded where
  cap := twoSlots
  table := [oneFile file]
  fits := oneFile_fits file
  index := (vfsHashInit twoSlots [oneFile file]).get (oneFile_indexed file)
  indexed := (Option.some_get _).symm

def oneRound (file : Blob) : Round where
  mallocOk := true
  svc := { hiRound.svc with
    vfsLookup := fun path =>
      if h : 0 ∉ path then
        (vfsLookup (oneSite file).cap (oneSite file).index ⟨path, h⟩).bind fun i =>
          ((oneSite file).index.table[i]?).map vfsEntry
      else none }
  shutdown := false

/-- The file under a name with an encoded letter. -/
def aRequest (headers : List Header) : PathRequest where
  head := false
  path := aPath
  target := ascii "/%61"
  query := none
  headers := headers
  encodes := .plain _ (by decide) (by decide) (.hex _ _ _ rfl rfl rfl .nil)
  target_ok := all_bytes rfl
  query_ok := no_query
  fits := by decide
  no_dots := by decide

def oneExchange (file : Blob) {headers : List Header}
    (h : (aRequest headers).block.length ≤ 4096) : Exchange :=
  freeExchange bareServer (fun _ => oneRound file) (aRequest headers) (onePiece h)

theorem oneExchange_with (file : Blob) {headers : List Header}
    (h : (aRequest headers).block.length ≤ 4096) :
    (oneExchange file h).With (oneSite file) where
  user := rfl
  pass := rfl
  memory := rfl
  date := by
    show (13 : Byte) ∉ hiRound.svc.date.bytes
    decide +kernel
  short := h.trans (by decide)
  taken := freeExchange_taken _ _ _ _
  files := by
    intro path
    exact dif_pos path.nul_free
  not_api := by
    show ¬ ApiPath (47 :: aPath.bytes)
    unfold ApiPath
    decide

theorem aRequest_found (file : Blob) (headers : List Header) :
    (oneSite file).find (fileName (aRequest headers)) = some (oneFile file) := rfl

def abcFile : Blob := ⟨ascii "abc", by decide⟩

theorem aPlain_short : (aRequest []).block.length ≤ 4096 := by decide +kernel

theorem abcFile_fresh : lastSent [] (ascii "if-none-match") ≠ etagOf (oneFile abcFile) := by
  decide +kernel

theorem file_fetched_abc : ∃ r, (oneExchange abcFile aPlain_short).response = some r ∧
    r.status = 200 ∧
    r.body = (if (aRequest []).head then [] else (content (oneFile abcFile)).bytes) ∧
    headerValue (ascii "etag") r.headers = some (etagOf (oneFile abcFile)) ∧
    contentLength r.headers = some (content (oneFile abcFile)).bytes.length :=
  file_fetched (oneExchange_with abcFile aPlain_short) (aRequest_found abcFile [])
    (fun _ hh => absurd hh List.not_mem_nil) abcFile_fresh

/-- A client that has fetched a file and later asks for it with the tag it got is told that
nothing has changed exactly if length and hash are still the same; else it gets the new file. -/
theorem file_revalidated {x y : Exchange} {old new : Embedded} (hx : x.With old) (hy : y.With new)
    {e f : TableEntry} (hfindx : old.find (fileName x.request) = some e)
    (hfindy : new.find (fileName y.request) = some f)
    (hrangex : ∀ h ∈ x.request.headers, NotRange h)
    (hrangey : ∀ h ∈ y.request.headers, NotRange h)
    (hfresh : lastSent x.request.headers (ascii "if-none-match") ≠ etagOf e)
    (htag : ∀ r, x.response = some r → headerValue (ascii "etag") r.headers =
      some (lastSent y.request.headers (ascii "if-none-match"))) :
    ∃ r, y.response = some r ∧
      if e.hashed.contentHash = f.hashed.contentHash ∧
          (content e).bytes.length = (content f).bytes.length then
        r.status = 304 ∧ r.body = []
      else r.status = 200 ∧ r.body = if y.request.head then [] else (content f).bytes := by
  obtain ⟨rx, hresponsex, -, -, hold, -⟩ := hx.whole hfindx hrangex hfresh
  -- the tag that the client has is the one of the old file
  rw [htag _ hresponsex] at hold
  have hsent := Option.some.inj hold
  by_cases hsame : e.hashed.contentHash = f.hashed.contentHash ∧
      (content e).bytes.length = (content f).bytes.length
  · have hmatch : TagMatches y.request.parsed (vfsEntry f.hashed) := by
      rw [parsed_tagMatches, (vfsEntry_hashed f).2, hsent, etagOf, etagOf, hsame.1, hsame.2]
    obtain ⟨keepAlive, r, hr, hresponse⟩ := hy.served hfindy
    obtain ⟨r', hr', hstatus, -, -, -, -, hbody⟩ :=
      serveEntry_matched (y.env 0).svc keepAlive hmatch
    obtain rfl := Option.some.inj (hr.symm.trans hr')
    refine ⟨_, hresponse, ?_⟩
    rw [if_pos hsame]
    refine ⟨hstatus, ?_⟩
    rw [Response.received, hbody, Int.toNat_zero, List.take_zero, ite_self, ite_self]
  · have hnew : lastSent y.request.headers (ascii "if-none-match") ≠ etagOf f := by
      rw [hsent]
      exact fun heq => hsame (buildEtag_inj heq)
    obtain ⟨r, hresponse, hstatus, hbody, -⟩ := hy.whole hfindy hrangey hnew
    refine ⟨_, hresponse, ?_⟩
    rw [if_neg hsame]
    exact ⟨hstatus, hbody⟩

/-- The same request with the tag, to the same build and to one with another file. -/
def abcTag : Header where
  name := ascii "If-None-Match"
  value := ascii "\"1a47e90b-3\""
  name_ne := by decide
  name_token := all_bytes rfl
  value_printable := all_bytes rfl
  value_first := by decide
  value_last := by decide

def wxyzFile : Blob := ⟨ascii "wxyz", by decide⟩

theorem abcTag_short : (aRequest [abcTag]).block.length ≤ 4096 := by decide +kernel

theorem abcTag_sent : lastSent [abcTag] (ascii "if-none-match") = etagOf (oneFile abcFile) := by
  decide +kernel

theorem abcTag_notRange : ∀ h ∈ [abcTag], NotRange h := by
  intro h hh
  obtain rfl := List.mem_singleton.mp hh
  unfold NotRange
  decide

theorem file_revalidated_abc :
    (∃ r, (oneExchange abcFile abcTag_short).response = some r ∧ r.status = 304 ∧ r.body = []) ∧
    ∃ r, (oneExchange wxyzFile abcTag_short).response = some r ∧ r.status = 200 ∧
      r.body = ascii "wxyz" := by
  have hplain : ∀ h ∈ ([] : List Header), NotRange h := fun _ hh => absurd hh List.not_mem_nil
  have htag : ∀ r, (oneExchange abcFile aPlain_short).response = some r →
      headerValue (ascii "etag") r.headers =
        some (lastSent [abcTag] (ascii "if-none-match")) := by
    intro r hr
    obtain ⟨r', hresponse, -, -, htag, -⟩ := (oneExchange_with abcFile aPlain_short).whole
      (aRequest_found abcFile []) hplain abcFile_fresh
    obtain rfl := Option.some.inj (hr.symm.trans hresponse)
    exact htag.trans (congrArg some abcTag_sent.symm)
  have hagain := fun file => file_revalidated (oneExchange_with abcFile aPlain_short)
    (oneExchange_with file abcTag_short) (aRequest_found abcFile [])
    (aRequest_found file [abcTag]) hplain abcTag_notRange abcFile_fresh htag
  have hother : ¬ ((oneFile abcFile).hashed.contentHash = (oneFile wxyzFile).hashed.contentHash ∧
      (content (oneFile abcFile)).bytes.length = (content (oneFile wxyzFile)).bytes.length) := by
    decide +kernel
  constructor
  · obtain ⟨r, hr, hsame⟩ := hagain abcFile
    rw [if_pos ⟨rfl, rfl⟩] at hsame
    exact ⟨r, hr, hsame⟩
  · obtain ⟨r, hr, hnew⟩ := hagain wxyzFile
    rw [if_neg hother] at hnew
    exact ⟨r, hr, hnew⟩

/-! ### A file in pieces -/

/-- The pieces lie next to each other, and cover a file of `len` bytes from `i` on. -/
def Covers (len : ℕ) : ℕ → List (Number × Number) → Prop
  | i, [] => i = len
  | i, (a, b) :: ps => a.value = i ∧ a.value ≤ b.value ∧ b.value < len ∧ Covers len (b.value + 1) ps

/-- A GET request for a piece of the file. -/
structure Exchange.AsksPiece (x : Exchange) (site : Embedded) (e : TableEntry) (a b : Number) :
    Prop extends x.With site where
  found : site.find (fileName x.request) = some e
  get : x.request.head = false
  range : AsksRange x.request.headers (.closed a b)
  fresh : lastSent x.request.headers (ascii "if-none-match") ≠ etagOf e

theorem Exchange.AsksPiece.answered {x : Exchange} {site : Embedded} {e : TableEntry}
    {a b : Number} (h : x.AsksPiece site e a b) (hab : a.value ≤ b.value)
    (hb : b.value < (content e).bytes.length) :
    ∃ r, x.response = some r ∧ r.status = 206 ∧
      r.body = ((content e).bytes.drop a.value).take (b.value + 1 - a.value) := by
  obtain ⟨keepAlive, r, hr, hresponse⟩ := h.toWith.served h.found
  obtain ⟨hfile, hetag⟩ := vfsEntry_hashed e
  have hnew : ¬ TagMatches x.request.parsed (vfsEntry e.hashed) := by
    rw [parsed_tagMatches, hetag]
    exact h.fresh
  obtain ⟨hstart, hstop⟩ := x.request.parsed_range h.range
  obtain ⟨r', hr', hanswers⟩ := serveEntry_range (x.env 0).svc keepAlive hnew
  obtain rfl := Option.some.inj (hr.symm.trans hr')
  rw [hfile, hstart, hstop] at hanswers
  have hget : x.request.parsed.method = .get := by
    rw [x.request.parsed_method, h.get]
    rfl
  obtain ⟨hstatus, hbody⟩ :=
    (RangeSpec.answered_closed a b hget hanswers).1 hab (Nat.lt_of_le_of_lt hab hb)
  refine ⟨_, hresponse, hstatus, ?_⟩
  rw [Nat.min_eq_left (Nat.le_sub_one_of_lt hb)] at hbody
  rw [Response.received, h.get, hbody]
  rfl

/-- The pieces of a file that were fetched one by one, on as many connections, are the file. -/
theorem pieces_reassemble {site : Embedded} {e : TableEntry}
    {pieces : List (Exchange × Number × Number)}
    (hasks : ∀ p ∈ pieces, p.1.AsksPiece site e p.2.1 p.2.2)
    (hcovers : Covers (content e).bytes.length 0 (pieces.map Prod.snd)) :
    ∃ rs : List Received, (pieces.map fun p => p.1.response) = rs.map some ∧
      (∀ r ∈ rs, r.status = 206) ∧ (rs.map Received.body).flatten = (content e).bytes := by
  -- the pieces from `i` on are the bytes from `i` on
  have hfrom : ∀ i, Covers (content e).bytes.length i (pieces.map Prod.snd) →
      ∃ rs : List Received, (pieces.map fun p => p.1.response) = rs.map some ∧
        (∀ r ∈ rs, r.status = 206) ∧
        (rs.map Received.body).flatten = (content e).bytes.drop i := by
    clear hcovers
    induction pieces with
    | nil =>
      rintro i rfl
      exact ⟨[], rfl, fun r hr => absurd hr List.not_mem_nil, List.drop_length.symm⟩
    | cons p ps ih =>
      obtain ⟨x, a, b⟩ := p
      rintro i ⟨rfl, hab, hb, hrest⟩
      obtain ⟨r, hresponse, hstatus, hbody⟩ := (hasks _ (List.mem_cons_self ..)).answered hab hb
      obtain ⟨rs, hresponses, hstatuses, hbodies⟩ :=
        ih (fun p hp => hasks p (List.mem_cons_of_mem _ hp)) _ hrest
      refine ⟨r :: rs, by rw [List.map_cons, hresponse, hresponses, List.map_cons], ?_, ?_⟩
      · intro y hy
        rcases List.mem_cons.mp hy with rfl | hy
        · exact hstatus
        · exact hstatuses y hy
      · have hnext : b.value + 1 = a.value + (b.value + 1 - a.value) := by omega
        rw [List.map_cons, List.flatten_cons, hbody, hbodies]
        nth_rewrite 2 [hnext]
        rw [← List.drop_drop, List.take_append_drop]
  exact hfrom 0 hcovers

def zero : Number := ⟨ascii "0", by decide, all_bytes rfl, by decide⟩
def two : Number := ⟨ascii "2", by decide, all_bytes rfl, by decide⟩

def rangeHeader (value : Bytes) (h : ∀ c ∈ value, 32 ≤ c ∧ c ≤ 126)
    (hfirst : value.head? ≠ some 32) (hlast : value.getLast? ≠ some 32) : Header :=
  ⟨ascii "Range", value, by decide, all_bytes rfl, h, hfirst, hlast⟩

def firstPiece : Header :=
  rangeHeader (ascii "bytes=0-1") (all_bytes rfl) (by decide) (by decide)
def lastPiece : Header :=
  rangeHeader (ascii "bytes=2-2") (all_bytes rfl) (by decide) (by decide)

theorem firstPiece_short : (aRequest [firstPiece]).block.length ≤ 4096 := by decide +kernel
theorem lastPiece_short : (aRequest [lastPiece]).block.length ≤ 4096 := by decide +kernel

theorem firstPiece_asks : (oneExchange abcFile firstPiece_short).AsksPiece (oneSite abcFile)
    (oneFile abcFile) zero one where
  toWith := oneExchange_with abcFile firstPiece_short
  found := aRequest_found abcFile [firstPiece]
  get := rfl
  range := ⟨[], firstPiece, [], rfl, by decide, by decide, by simp, by simp⟩
  fresh := by
    show lastSent [firstPiece] (ascii "if-none-match") ≠ etagOf (oneFile abcFile)
    decide +kernel

theorem lastPiece_asks : (oneExchange abcFile lastPiece_short).AsksPiece (oneSite abcFile)
    (oneFile abcFile) two two where
  toWith := oneExchange_with abcFile lastPiece_short
  found := aRequest_found abcFile [lastPiece]
  get := rfl
  range := ⟨[], lastPiece, [], rfl, by decide, by decide, by simp, by simp⟩
  fresh := by
    show lastSent [lastPiece] (ascii "if-none-match") ≠ etagOf (oneFile abcFile)
    decide +kernel

theorem pieces_reassemble_abc : ∃ rs : List Received,
    [(oneExchange abcFile firstPiece_short).response,
        (oneExchange abcFile lastPiece_short).response] = rs.map some ∧
      (∀ r ∈ rs, r.status = 206) ∧ (rs.map Received.body).flatten = ascii "abc" := by
  have hasks : ∀ p ∈ [(oneExchange abcFile firstPiece_short, zero, one),
      (oneExchange abcFile lastPiece_short, two, two)],
      p.1.AsksPiece (oneSite abcFile) (oneFile abcFile) p.2.1 p.2.2 := by
    intro p hp
    rcases List.mem_cons.mp hp with rfl | hp
    · exact firstPiece_asks
    · obtain rfl := List.mem_singleton.mp hp
      exact lastPiece_asks
  exact pieces_reassemble hasks
    ⟨by decide, by decide, by decide, by decide, by decide, by decide, rfl⟩

end LocalMarks.Server

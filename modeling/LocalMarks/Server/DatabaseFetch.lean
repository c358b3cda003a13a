import LocalMarks.BookmarkCache.Served
import LocalMarks.FrontEnd.FetchedData
import LocalMarks.Http.Index
import LocalMarks.Marks2json.FileHistory
import LocalMarks.Server.Fetch

/-!
# Fetching a database

From the file that marks2json keeps, through the cache, the endpoint and the connection, to the
categories that the page shows.
-/

namespace LocalMarks.Server
open LocalMarks.Lib
open LocalMarks.Http
open LocalMarks.BookmarkCache
open LocalMarks.Marks2json (FileRun)
open LocalMarks.FrontEnd.Browse (bookmarksPath fetchedCategories ofStoredCategory
  fetchedCategories_holds)

/-! ### The endpoint -/

/-- The databases that are served come from the cache in this state. -/
def ServesCache (svc : Services) (s : BookmarkCache.State) (env : CallEnv) : Prop :=
  ∀ index, (svc.bookmarkCopy index).map Blob.bytes =
    (getCachedBookmarkJsonCopy s.cache s.disk index env).1.sent

theorem jsonOrError_sent {svc : Services} {j : Blob} {detail : Bytes} {keepAlive : Bool}
    {r : Response} (h : jsonOrError svc (some j) detail keepAlive = some r) :
    r.status = 200 ∧ r.body = j.bytes := by
  obtain ⟨lines, -, rfl⟩ := Option.map_eq_some_iff.mp h
  exact ⟨rfl, rfl⟩

theorem firstBookmark_route {req : HttpRequest} (hget : req.method = .get)
    (hpath : req.path.bytes = ascii "/bookmarks.json") : routeOf true req = .firstBookmark := by
  have hindex : bookmarkIndex (ascii "/bookmarks.json") = none := by decide
  unfold routeOf
  rw [if_neg (not_not.mpr hget), hpath, hindex]
  rfl

theorem bookmarksPath_answer {svc : Services} {req : HttpRequest} {index : ℕ} (keepAlive : Bool)
    (hget : req.method = .get) (hpath : req.path.bytes = 47 :: bookmarksPath index)
    (hknown : index = 0 ∨ index < svc.dbMetaCount) (hcount : svc.dbMetaCount < 2 ^ 31) :
    answer svc true req keepAlive = jsonOrError svc (svc.bookmarkCopy index)
      (ascii "Cannot load bookmark database") keepAlive := by
  unfold bookmarksPath at hpath
  by_cases hpos : 0 < index
  · rw [if_pos hpos] at hpath
    have hslash : 47 :: ascii "bookmarks/" = ascii "/bookmarks/" := by decide
    have hpath' : req.path.bytes = Endpoint.bookmarks.path (numeral 10 index) := by
      rw [hpath, ← List.cons_append, hslash]
      rfl
    have hdigits : Digits (numeral 10 index) := ⟨numeral_ne_nil index, decimal_isDigit index⟩
    have hwhole : WholeNumber (numeral 10 index) index := by
      have := hdigits.whole
      rwa [digitsValue_numeral] at this
    have hlt : index < svc.dbMetaCount := hknown.resolve_left (Nat.ne_of_gt hpos)
    have hlen : (numeral 10 index).length ≤ 10 :=
      numeral_length_le (by decide) (by decide) (by omega)
    have hshort : ¬ Endpoint.bookmarks.TooLong (numeral 10 index) := fun h => by
      have := h.2
      omega
    have hindex : Endpoint.bookmarks.index svc (numeral 10 index) = some (index : ℤ) :=
      (Endpoint.index_some hcount).mpr ⟨hshort, hwhole, by omega, by omega⟩
    have hserves := Endpoint.answer_served hcount true keepAlive hget hpath' hindex svc.bookmarkCopy
    have hapi : apiHandleRequest svc true req keepAlive = _ := hserves
    rw [answer, hapi]
    rfl
  · rw [if_neg hpos] at hpath
    obtain rfl : index = 0 := Nat.eq_zero_of_not_pos hpos
    unfold answer apiHandleRequest
    rw [firstBookmark_route hget hpath]
    rfl

/-! ### The exchange -/

/-- The page asks for a database on a connection of its own. -/
structure Exchange.AsksDatabase (x : Exchange) (s : BookmarkCache.State) (env : CallEnv)
    (index : ℕ) : Prop extends x.Open where
  get : x.request.head = false
  path : x.request.path.bytes = bookmarksPath index
  known : index = 0 ∨ index < (x.env 0).svc.dbMetaCount
  count : (x.env 0).svc.dbMetaCount < 2 ^ 31
  files : x.cfg.firstDb = true
  served : ServesCache (x.env 0).svc s env

theorem Exchange.AsksDatabase.answered {x : Exchange} {s : BookmarkCache.State} {env : CallEnv}
    {index : ℕ} (hx : x.AsksDatabase s env index) {text : Bytes}
    (htext : (getCachedBookmarkJsonCopy s.cache s.disk index env).1.sent = some text) :
    ∃ r, x.response = some r ∧ r.status = 200 ∧ r.body = text := by
  obtain ⟨keepAlive, r, hr, hresponse⟩ := hx.toOpen.answered
  have hget : x.request.parsed.method = .get := by
    rw [x.request.parsed_method, hx.get]
    rfl
  have hpath : x.request.parsed.path.bytes = 47 :: bookmarksPath index := by
    rw [x.request.parsed_path, hx.path]
  obtain ⟨j, hj, hbytes⟩ := Option.map_eq_some_iff.mp ((hx.served index).trans htext)
  rw [hx.files, bookmarksPath_answer keepAlive hget hpath hx.known hx.count, hj] at hr
  obtain ⟨hstatus, hbody⟩ := jsonOrError_sent hr
  refine ⟨_, hresponse, hstatus, ?_⟩
  rw [Response.received, hx.get, hbody, ← hbytes]
  rfl

/-- A file that create has left, the cache after startup, and the request for the first database. -/
def createdFile : Bytes := Marks2json.fileOf Marks2json.createdDatabase

theorem createdFile_lt : createdFile.length < 2 ^ 64 := by decide +kernel

def createdState : BookmarkCache.State :=
  ⟨bookmarkCacheAddDb [] (some startPath), fun _ => ⟨createdFile, 7, .readable⟩, fun _ => [7],
    fun _ => none⟩

theorem createdState_reached :
    Reach BookmarkCache.Start (StepOf BookmarkCache.exec) createdState := by
  refine .start ⟨⟨[some startPath], rfl⟩, fun p m hm => ?_⟩
  cases hm
  exact List.mem_singleton.mpr rfl

def createdEnv : CallEnv := ⟨true, true, createdFile.length, true⟩

theorem createdEnv_works (mtime : ℤ) : createdEnv.Works ⟨createdFile, mtime, .readable⟩ :=
  ⟨rfl, rfl, le_rfl, rfl⟩

def blobOf (b : Bytes) : Option Blob := if h : b.length < 2 ^ 64 then some ⟨b, h⟩ else none

def createdRound : Round where
  mallocOk := true
  svc := { hiRound.svc with
    bookmarkCopy := fun index => (getCachedBookmarkJsonCopy createdState.cache createdState.disk
      index createdEnv).1.sent.bind blobOf }
  shutdown := false

theorem bookmarksName_nul_free : 0 ∉ ascii "bookmarks.json" := by decide

theorem firstDatabase_encodes :
    PercentEncodes (47 :: ascii "bookmarks.json") (ascii "/bookmarks.json") :=
  PercentEncodes.itself (all_bytes rfl)

def firstDatabase : PathRequest where
  head := false
  path := ⟨ascii "bookmarks.json", bookmarksName_nul_free⟩
  target := ascii "/bookmarks.json"
  query := none
  headers := []
  encodes := firstDatabase_encodes
  target_ok := all_bytes rfl
  query_ok := no_query
  fits := by decide
  no_dots := by decide

theorem firstDatabase_short : firstDatabase.block.length ≤ 4096 := by decide +kernel

def createdExchange : Exchange :=
  freeExchange { bareServer with firstDb := true } (fun _ => createdRound) firstDatabase
    (onePiece firstDatabase_short)

theorem createdExchange_asks : createdExchange.AsksDatabase createdState createdEnv 0 where
  user := rfl
  pass := rfl
  memory := rfl
  date := by
    show (13 : Byte) ∉ createdRound.svc.date.bytes
    decide +kernel
  short := firstDatabase_short.trans (by decide)
  taken := freeExchange_taken _ _ _ _
  get := rfl
  path := rfl
  known := Or.inl rfl
  count := by decide
  files := rfl
  served := by
    intro index
    show ((getCachedBookmarkJsonCopy createdState.cache createdState.disk index
      createdEnv).1.sent.bind blobOf).map Blob.bytes = _
    cases he : entryAt createdState.cache index with
    | none =>
      rw [getCachedBookmarkJsonCopy, he]
      rfl
    | some e =>
      rw [(BookmarkCache.reach_ok createdState_reached).sent he rfl (createdEnv_works 7),
        Option.bind_some]
      show (blobOf createdFile).map Blob.bytes = some createdFile
      rw [blobOf, dif_pos createdFile_lt]
      rfl

end LocalMarks.Server

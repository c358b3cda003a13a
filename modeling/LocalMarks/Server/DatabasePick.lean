import LocalMarks.BookmarkCache.Paths
import LocalMarks.Databases.Agreement
import LocalMarks.Databases.Telling
import LocalMarks.FrontEnd.DatabaseSelector
import LocalMarks.Server.DatabaseFetch

/-!
# Picking a database

The page gets a list from one endpoint and a database from another. They are filled from the same
arguments, so what a card of the list names is what it opens.
-/

namespace LocalMarks.Server
open LocalMarks.Lib
open LocalMarks.Http
open LocalMarks.BookmarkCache
open LocalMarks.Databases
open LocalMarks.FrontEnd.Selector

/-! ### The metadata of the arguments -/

/-- The paths of the command line, as the configuration has them. -/
def filesOf (args : BookmarkPaths) : BookmarkFiles where
  files := args.paths.map some
  count_le := by
    rw [List.length_map]
    exact args.count_le

theorem populateDbMetaAll_length (args : BookmarkFiles) (env : ℕ → FileEnv) :
    (populateDbMetaAll args env).length ≤ maxBookmarkFiles := by
  have hargs := congrArg List.length (populateDbMetaAll_args args env)
  have hcount := args.count_le
  have hpositions : (argPositions args).length ≤ args.files.length := by
    unfold argPositions
    rw [List.length_map, ← List.length_zipIdx (l := args.files) (i := 0)]
    exact List.length_filter_le ..
  have hfilter := List.length_filter_le (fun n => (env n).stat.isSome) (argPositions args)
  rw [List.length_map] at hargs
  omega

/-- `g_db_meta` after startup. -/
def metaTable (args : BookmarkPaths) (env : ℕ → FileEnv) : DbMetaTable where
  entries := (populateDbMetaAll (filesOf args) env).map Slot.value
  count_le := by
    rw [List.length_map]
    exact populateDbMetaAll_length (filesOf args) env

/-- No file that `stat` fails on comes before one that it knows. -/
def StatsInOrder (env : ℕ → FileEnv) : Prop :=
  ∀ a b, a < b → (env b).stat ≠ none → (env a).stat ≠ none

theorem argPositions_filesOf (args : BookmarkPaths) :
    argPositions (filesOf args) = List.range args.paths.length := by
  have hall : (args.paths.map some).zipIdx.filter (fun f => f.1.isSome) =
      (args.paths.map some).zipIdx := by
    rw [List.filter_eq_self]
    rintro ⟨f, n⟩ hf
    obtain ⟨p, -, rfl⟩ := List.mem_map.mp
      (List.mem_of_getElem? (List.mem_zipIdx_iff_getElem?.mp hf))
    rfl
  rw [argPositions]
  show ((args.paths.map some).zipIdx.filter fun f => f.1.isSome).map Prod.snd = _
  rw [hall, List.zipIdx_map_snd, List.length_map, List.range_eq_range']

theorem metaTable_entry {args : BookmarkPaths} {env : ℕ → FileEnv} (hstat : StatsInOrder env)
    {i : ℕ} {m : JsonDbMetaData} (h : (metaTable args env).entries[i]? = some m) :
    ∃ path st, args.paths[i]? = some path ∧ m = metaOf path (env i) st := by
  have hentry : ((populateDbMetaAll (filesOf args) env).map Slot.value)[i]? = some m := h
  rw [List.getElem?_map] at hentry
  obtain ⟨slot, hslot, rfl⟩ := Option.map_eq_some_iff.mp hentry
  have hargs := populateDbMetaAll_args (filesOf args) env
  rw [argPositions_filesOf] at hargs
  -- the places are those of a first part of the arguments
  have hprefix : (List.range args.paths.length).filter (fun n => (env n).stat.isSome) <+:
      List.range args.paths.length := by
    rw [filter_prefix_iff]
    refine List.pairwise_lt_range.imp fun {a b} hab hb => ?_
    rw [Option.isSome_iff_ne_none] at hb ⊢
    exact hstat a b hab hb
  have hplace : ((populateDbMetaAll (filesOf args) env).map Slot.arg)[i]? = some slot.arg := by
    rw [List.getElem?_map, hslot, Option.map_some]
  rw [hargs] at hplace
  obtain ⟨hlt, hget⟩ := List.getElem?_eq_some_iff.mp hplace
  have hin : i < args.paths.length := by
    have hle := hprefix.length_le
    rw [List.length_range] at hle
    omega
  have hsame := List.prefix_iff_getElem?.mp hprefix i hlt
  rw [hget, List.getElem?_range hin] at hsame
  obtain rfl := Option.some.inj hsame
  obtain ⟨path, st, hpath, -, hvalue⟩ := populate_slot (List.mem_of_getElem? hslot)
  have hpath' : (args.paths.map some)[slot.arg]? = some (some path) := hpath
  rw [List.getElem?_map] at hpath'
  obtain ⟨p, hp, hsome⟩ := Option.map_eq_some_iff.mp hpath'
  obtain rfl := Option.some.inj hsome
  exact ⟨p, st, hp, hvalue⟩

/-! ### The list -/

def ofMeta (m : JsonDbMetaData) : ListedDb := ⟨m.fileName.bytes, m.absolutePath.bytes⟩

theorem bytesOr_string {ms : List (Bytes × Json)} {key : String} {s : Bytes}
    (h : Marks2json.dictGet ms (ascii key) = some (.string s)) : bytesOr ms key = some s := by
  unfold bytesOr FrontEnd.Browse.memberOr
  rw [h]
  cases s with
  | nil => rfl
  | cons c cs => rfl

theorem ofJson_metaJson (m : JsonDbMetaData) : ListedDb.ofJson (metaJson m) = some (ofMeta m) := by
  obtain ⟨ms, hms, hname, hpath⟩ : ∃ ms, metaJson m = .object ms ∧
      bytesOr ms "file_name" = some m.fileName.bytes ∧
      bytesOr ms "absolute_path" = some m.absolutePath.bytes :=
    ⟨_, rfl, bytesOr_string rfl, bytesOr_string rfl⟩
  rw [hms, ListedDb.ofJson, hname, Option.bind_some, hpath]
  rfl

theorem fetchedDatabases_tells {t : DbMetaTable} {b : Bytes}
    (h : parseJson b = some (tableJson t)) :
    fetchedDatabases b = some (t.entries.map ofMeta) := by
  have hlist := Marks2json.mapM_of_view ofJson_metaJson t.entries
  rw [fetchedDatabases, h, Option.bind_some]
  exact hlist

/-! ### The exchanges -/

/-- The page asks for the list on a connection of its own. -/
structure Exchange.AsksList (x : Exchange) (t : DbMetaTable) : Prop extends x.Open where
  get : x.request.head = false
  path : x.request.path.bytes = ascii "api/databases"
  served : ∃ bufs, ∀ b, buildDatabasesJson t bufs true = .text b →
    (x.env 0).svc.databasesJson.map Blob.bytes = some b

theorem databases_answer {svc : Services} {req : HttpRequest} (firstDb keepAlive : Bool)
    (hget : req.method = .get) (hpath : req.path.bytes = ascii "/api/databases") :
    answer svc firstDb req keepAlive =
      jsonOrError svc svc.databasesJson (ascii "Out of memory") keepAlive := by
  have hindex : bookmarkIndex (ascii "/api/databases") = none := by decide
  have hother : (ascii "/api/databases" == ascii "/bookmarks.json") = false := by decide
  have hroute : routeOf firstDb req = .databases := by
    unfold routeOf
    rw [if_neg (not_not.mpr hget), hpath, hindex, hother, Bool.and_false]
    rfl
  rw [answer, apiHandleRequest, hroute]

theorem Exchange.AsksList.answered {x : Exchange} {t : DbMetaTable} (hx : x.AsksList t)
    (hfit : ∀ m ∈ t.entries, EscapesFit m) :
    ∃ r, x.response = some r ∧ r.status = 200 ∧ parseJson r.body = some (tableJson t) := by
  obtain ⟨keepAlive, r, hr, hresponse⟩ := hx.toOpen.answered
  have hget : x.request.parsed.method = .get := by
    rw [x.request.parsed_method, hx.get]
    rfl
  have hpath : x.request.parsed.path.bytes = ascii "/api/databases" := by
    rw [x.request.parsed_path, hx.path]
    rfl
  obtain ⟨bufs, hserved⟩ := hx.served
  obtain ⟨b, htext, hparse⟩ := tells_of_escapesFit bufs hfit
  obtain ⟨j, hj, hbytes⟩ := Option.map_eq_some_iff.mp (hserved b htext)
  rw [databases_answer x.cfg.firstDb keepAlive hget hpath, hj] at hr
  obtain ⟨hstatus, hbody⟩ := jsonOrError_sent hr
  refine ⟨_, hresponse, hstatus, ?_⟩
  rw [Response.received, hx.get, hbody, hbytes]
  exact hparse

theorem argument_sent {args : BookmarkPaths} {s : BookmarkCache.State}
    (hs : Reach (StartOn args) (StepOf BookmarkCache.exec) s) {i : ℕ} {path : CString}
    (hpath : args.paths[i]? = some path) {env : CallEnv}
    (hread : (s.disk (path.cut pathFieldSize)).access = .readable)
    (henv : env.Works (s.disk (path.cut pathFieldSize))) :
    (getCachedBookmarkJsonCopy s.cache s.disk i env).1.sent =
      some (s.disk (path.cut pathFieldSize)).content := by
  have hreach : Reach BookmarkCache.Start (StepOf BookmarkCache.exec) s := by
    refine hs.simulated id (fun s hstart => ⟨⟨_, hstart.cache⟩, hstart.used⟩) ?_
    exact fun s e s' _ hst => Or.inr ⟨e, hst⟩
  have hentry : (s.cache.map BookmarkCacheEntry.path)[i]? = some (path.cut pathFieldSize) := by
    rw [reach_paths hs, List.getElem?_map, hpath, Option.map_some]
  rw [List.getElem?_map] at hentry
  obtain ⟨e, he, hcut⟩ := Option.map_eq_some_iff.mp hentry
  have hat : entryAt s.cache i = some e := by
    unfold entryAt
    rw [if_neg (by omega)]
    exact he
  rw [← hcut] at hread henv ⊢
  exact (BookmarkCache.reach_ok hreach).sent hat hread henv

theorem startPath_count : [startPath].length ≤ maxBookmarkFiles := by decide

def listedArgs : BookmarkPaths := ⟨[startPath], startPath_count⟩

def listedFile (_ : ℕ) : FileEnv := ⟨some ⟨420, 46, 0, 0, 7, 7, 0⟩, none, none, none⟩

theorem listed_escapesFit : ∀ m ∈ (metaTable listedArgs listedFile).entries, EscapesFit m := by
  intro m hm
  obtain rfl := List.mem_singleton.mp hm
  exact ⟨by decide, by decide, by decide, by decide⟩

def listedText : Option Bytes :=
  match buildDatabasesJson (metaTable listedArgs listedFile) zeroBuffers true with
  | .text b => some b
  | _ => none

theorem listedText_lt : ∀ b ∈ listedText, b.length < 2 ^ 64 := by
  have hshort : (listedText.getD []).length < 2 ^ 64 := by decide +kernel
  intro b hb
  rwa [Option.mem_def.mp hb] at hshort

def listedRound : Round where
  mallocOk := true
  svc := { hiRound.svc with databasesJson := listedText.bind blobOf }
  shutdown := false

theorem databasesName_nul_free : 0 ∉ ascii "api/databases" := by decide

theorem listRequest_encodes :
    PercentEncodes (47 :: ascii "api/databases") (ascii "/api/databases") :=
  PercentEncodes.itself (all_bytes rfl)

def listRequest : PathRequest where
  head := false
  path := ⟨ascii "api/databases", databasesName_nul_free⟩
  target := ascii "/api/databases"
  query := none
  headers := []
  encodes := listRequest_encodes
  target_ok := all_bytes rfl
  query_ok := no_query
  fits := by decide
  no_dots := by decide

theorem listRequest_short : listRequest.block.length ≤ 4096 := by decide +kernel

def listExchange : Exchange :=
  freeExchange { bareServer with firstDb := true } (fun _ => listedRound) listRequest
    (onePiece listRequest_short)

theorem listExchange_asks : listExchange.AsksList (metaTable listedArgs listedFile) where
  user := rfl
  pass := rfl
  memory := rfl
  date := by
    show (13 : Byte) ∉ listedRound.svc.date.bytes
    decide +kernel
  short := listRequest_short.trans (by decide)
  taken := freeExchange_taken _ _ _ _
  get := rfl
  path := rfl
  served := by
    refine ⟨zeroBuffers, fun b hb => ?_⟩
    have htext : listedText = some b := by
      unfold listedText
      rw [hb]
    have hblob : blobOf b = some ⟨b, listedText_lt b htext⟩ := dif_pos _
    have hserved : listedRound.svc.databasesJson = listedText.bind blobOf := by
      simp only [listedRound]
    show listedRound.svc.databasesJson.map Blob.bytes = some b
    rw [hserved, htext, Option.bind_some, hblob, Option.map_some]

end LocalMarks.Server

import LocalMarks.Lib.Numeral
import LocalMarks.BookmarkCache.Entry

/-!
# Database metadata (databases_meta.c)

At startup the server fills the metadata table from the bookmark files of the command line
and registers the same files with the bookmark cache. Both tables are addressed by one index
afterwards.
-/

namespace LocalMarks.Databases
open LocalMarks.Lib
open LocalMarks.BookmarkCache

def pathMax : ℕ := 4096
def nameFieldSize : ℕ := 256

theorem pathMax_pos : 0 < pathMax := by decide

theorem nameFieldSize_pos : 0 < nameFieldSize := by decide

/-- `JSON_DB_meta_data`. -/
structure JsonDbMetaData where
  mode : UInt32
  absolutePath : FieldString pathMax
  fileName : FieldString nameFieldSize
  fileSize : UInt64
  cTime : Int64
  bTime : Int64
  user : FieldString nameFieldSize
  group : FieldString nameFieldSize
  mTimeSec : Int64
  mTimeNsec : Int64

/-- The positional arguments: `bookmark_files[0 .. bookmark_file_count)`. -/
structure BookmarkFiles where
  files : List (Option CString)
  count_le : files.length ≤ maxBookmarkFiles

structure StatResult where
  stMode : UInt32
  stSize : Int64
  stUid : UInt32
  stGid : UInt32
  stCtime : Int64
  stMtime : Int64
  mtimNsec : Int64

/-- What the system answers about one file: `none` is a failed call. -/
structure FileEnv where
  stat : Option StatResult
  realpath : Option CString
  getpwuid : Option CString
  getgrgid : Option CString

/-- get_user_name and get_group_name: the name, or the number of the id. -/
def idName (name : Option CString) (id : UInt32) : FieldString nameFieldSize :=
  match name with
  | some s => s.toField nameFieldSize nameFieldSize_pos
  | none =>
    (⟨numeral 10 id.toNat, numeral_nul_free id.toNat (by decide) (by decide)⟩ : CString).toField
      nameFieldSize nameFieldSize_pos

def getUserName (env : FileEnv) (uid : UInt32) : FieldString nameFieldSize :=
  idName env.getpwuid uid

def getGroupName (env : FileEnv) (gid : UInt32) : FieldString nameFieldSize :=
  idName env.getgrgid gid

def baseName (path : CString) : CString :=
  ⟨(path.bytes.reverse.takeWhile (· != 47)).reverse, fun h =>
    path.nul_free (List.mem_reverse.mp
      ((List.takeWhile_sublist _).subset (List.mem_reverse.mp h)))⟩

/-- The entry that the loop body fills for a file that `stat` knows. There is no birth time
outside macOS. -/
def metaOf (path : CString) (env : FileEnv) (st : StatResult) : JsonDbMetaData where
  mode := st.stMode &&& 511
  absolutePath := (env.realpath.getD path).toField pathMax pathMax_pos
  fileName := (baseName path).toField nameFieldSize nameFieldSize_pos
  fileSize := st.stSize.toUInt64
  cTime := st.stCtime
  bTime := 0
  user := getUserName env st.stUid
  group := getGroupName env st.stGid
  mTimeSec := st.stMtime
  mTimeNsec := st.mtimNsec

/-- A slot of a table, with the position of the command-line argument it was filled for. -/
structure Slot (α : Type) where
  arg : ℕ
  value : α

/-- One round of the loop of `populate_db_meta_all`. -/
def populateStep (env : ℕ → FileEnv) (table : List (Slot JsonDbMetaData))
    (file : Option CString × ℕ) : List (Slot JsonDbMetaData) :=
  match file.1 with
  | none => table
  | some path =>
    match (env file.2).stat with
    | none => table
    | some st => table ++ [⟨file.2, metaOf path (env file.2) st⟩]

/-- `populate_db_meta_all`: the table `g_db_meta[0 .. g_db_meta_count)`. -/
def populateDbMetaAll (args : BookmarkFiles) (env : ℕ → FileEnv) : List (Slot JsonDbMetaData) :=
  args.files.zipIdx.foldl (populateStep env) []

/-- One round of the registration loop of `server_run`. -/
def registerStep (table : List (Slot BookmarkCacheEntry)) (file : Option CString × ℕ) :
    List (Slot BookmarkCacheEntry) :=
  match file.1 with
  | none => table
  | some p =>
    if table.length < maxBookmarkFiles then
      table ++ [⟨file.2, ⟨none, 0, 0, p.cut pathFieldSize⟩⟩]
    else table

/-- The cache after startup. -/
def registerAll (args : BookmarkFiles) : List (Slot BookmarkCacheEntry) :=
  args.files.zipIdx.foldl registerStep []

/-- Without the argument positions this is `bookmark_cache_add_db` called for each file. -/
theorem registerAll_cache (args : BookmarkFiles) :
    (registerAll args).map Slot.value = args.files.foldl bookmarkCacheAddDb [] := by
  have hstep : ∀ (files : List (Option CString)) (n : ℕ) (table : List (Slot BookmarkCacheEntry)),
      ((files.zipIdx n).foldl registerStep table).map Slot.value =
        files.foldl bookmarkCacheAddDb (table.map Slot.value) := by
    intro files
    induction files with
    | nil => exact fun _ _ => rfl
    | cons f fs ih =>
      intro n table
      rw [List.zipIdx_cons, List.foldl_cons, List.foldl_cons, ih]
      congr 1
      cases f with
      | none => rfl
      | some p =>
        simp only [registerStep, bookmarkCacheAddDb, List.length_map]
        split
        · simp only [List.map_append, List.map_cons, List.map_nil]
        · rfl
  exact hstep args.files 0 []

theorem populate_slot {args : BookmarkFiles} {env : ℕ → FileEnv} {m : Slot JsonDbMetaData}
    (h : m ∈ populateDbMetaAll args env) :
    ∃ path st, args.files[m.arg]? = some (some path) ∧ (env m.arg).stat = some st ∧
      m.value = metaOf path (env m.arg) st := by
  have hfold : ∀ (files : List (Option CString × ℕ)) (table : List (Slot JsonDbMetaData)),
      m ∈ files.foldl (populateStep env) table → m ∈ table ∨ ∃ path st n,
        (some path, n) ∈ files ∧ (env n).stat = some st ∧ m = ⟨n, metaOf path (env n) st⟩ := by
    intro files
    induction files with
    | nil => exact fun _ hm => Or.inl hm
    | cons f fs ih =>
      intro table hm
      rw [List.foldl_cons] at hm
      rcases ih _ hm with hm | ⟨path, st, n, hmem, hst, hm⟩
      · obtain ⟨f, n⟩ := f
        unfold populateStep at hm
        split at hm
        · exact Or.inl hm
        · rename_i path hf
          split at hm
          · exact Or.inl hm
          · rename_i st hst
            rcases List.mem_append.mp hm with hm | hm
            · exact Or.inl hm
            · refine Or.inr ⟨path, st, n, ?_, hst, List.mem_singleton.mp hm⟩
              rw [← hf]
              exact List.mem_cons_self ..
      · exact Or.inr ⟨path, st, n, List.mem_cons_of_mem _ hmem, hst, hm⟩
  rcases hfold _ _ h with hm | ⟨path, st, n, hmem, hst, rfl⟩
  · cases hm
  · exact ⟨path, st, List.mem_zipIdx_iff_getElem?.mp hmem, hst, rfl⟩

end LocalMarks.Databases

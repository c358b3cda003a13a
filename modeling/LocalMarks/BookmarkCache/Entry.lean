import LocalMarks.Lib.CString
import Mathlib.Algebra.Order.Ring.Int

/-!
# The bookmark cache (bookmark_cache.c)

Each database has a cache entry with the text of its file and the `st_mtime` the text was
stamped with. A call first tries to answer under the read lock and falls back on the write
lock, where the entry is loaded or reloaded.
-/

namespace LocalMarks.BookmarkCache
open LocalMarks.Lib

def maxBookmarkFiles : ℕ := 10
def pathFieldSize : ℕ := 256

/-! ### Files -/

/-- How the path of a file answers: `stat` and `fopen` both fail, only `fopen` fails, or
both succeed. -/
inductive Access where
  | missing
  | unreadable
  | readable
  deriving DecidableEq

structure BookmarkFile where
  content : Bytes
  mtime : ℤ
  access : Access
  deriving DecidableEq

def BookmarkFile.statMtime (f : BookmarkFile) : Option ℤ :=
  if f.access = .missing then none else some f.mtime

def BookmarkFile.canOpen (f : BookmarkFile) : Bool := f.access == .readable

theorem statMtime_some {f : BookmarkFile} {m : ℤ} (h : f.statMtime = some m) : m = f.mtime := by
  unfold BookmarkFile.statMtime at h
  split at h
  · cases h
  · exact (Option.some.inj h).symm

theorem statMtime_readable {f : BookmarkFile} (h : f.access = .readable) :
    f.statMtime = some f.mtime := by
  simp [BookmarkFile.statMtime, h]

abbrev Disk := CString → BookmarkFile

/-! ### Entries -/

/-- `bookmark_cache_entry_t`; the buffer `json` includes its terminating NUL. -/
structure BookmarkCacheEntry where
  json : Option Bytes
  jsonLen : ℕ
  mtime : ℤ
  path : CString
  deriving DecidableEq

/-- What the C library does to one call: the results of `ftell` and of the two `malloc`s, and
how many bytes `fread` delivers at most. -/
structure CallEnv where
  ftellOk : Bool
  loadMallocOk : Bool
  freadLen : ℕ
  copyMallocOk : Bool

def BookmarkCacheEntry.freeJson (entry : BookmarkCacheEntry) : BookmarkCacheEntry :=
  { entry with json := none, jsonLen := 0 }

/-- The buffer filled with `read` bytes and terminated. -/
def BookmarkCacheEntry.storeJson (entry : BookmarkCacheEntry) (read : Bytes) :
    BookmarkCacheEntry :=
  { entry with json := some (read ++ [0]), jsonLen := read.length }

def BookmarkCacheEntry.stamp (entry : BookmarkCacheEntry) (mtime : ℤ) : BookmarkCacheEntry :=
  { entry with mtime := mtime }

/-- The end of `load_bookmark_json` once `fread` has delivered `read` of `size` bytes. -/
def finishRead (entry : BookmarkCacheEntry) (size : ℕ) (read : Bytes) :
    ℤ × BookmarkCacheEntry :=
  if read.length ≠ size then (-1, entry.freeJson) else (0, entry.storeJson read)

/-- `load_bookmark_json`. The path of an entry is never NULL. -/
def loadBookmarkJson (f : BookmarkFile) (env : CallEnv) (entry : BookmarkCacheEntry) :
    ℤ × BookmarkCacheEntry :=
  if !f.canOpen then (-1, entry)
  else if !env.ftellOk then (-1, entry)
  else if !env.loadMallocOk then (-1, entry.freeJson)
  else finishRead entry.freeJson f.content.length (f.content.take env.freadLen)

theorem finishRead_cases (entry : BookmarkCacheEntry) (content : Bytes) (n : ℕ) :
    finishRead entry content.length (content.take n) = (0, entry.storeJson content) ∨
      finishRead entry content.length (content.take n) = (-1, entry.freeJson) := by
  unfold finishRead
  by_cases h : (content.take n).length = content.length
  · left
    have hle : content.length ≤ n := by
      rw [List.length_take] at h
      omega
    rw [if_neg (not_not_intro h), List.take_of_length_le hle]
  · right
    rw [if_pos h]

/-- A load stores the whole file or stores nothing; a failed load either leaves the entry
alone or drops its text. -/
theorem loadBookmarkJson_cases (f : BookmarkFile) (env : CallEnv) (entry : BookmarkCacheEntry) :
    (f.access = .readable ∧ loadBookmarkJson f env entry = (0, entry.storeJson f.content)) ∨
      loadBookmarkJson f env entry = (-1, entry) ∨
      loadBookmarkJson f env entry = (-1, entry.freeJson) := by
  unfold loadBookmarkJson
  by_cases ho : f.canOpen
  · rw [if_neg (by simp [ho])]
    split
    · exact Or.inr (Or.inl rfl)
    · split
      · exact Or.inr (Or.inr rfl)
      · rcases finishRead_cases entry.freeJson f.content env.freadLen with h | h
        · exact Or.inl ⟨by simpa [BookmarkFile.canOpen] using ho, h⟩
        · exact Or.inr (Or.inr h)
  · rw [if_pos (by simpa using ho)]
    exact Or.inr (Or.inl rfl)

/-- `ensure_loaded`: whether the entry is returned, and the entry afterwards. The first load
takes `st_mtime` after the read, a reload takes it before. -/
def ensureLoaded (f : BookmarkFile) (env : CallEnv) (entry : BookmarkCacheEntry) :
    Bool × BookmarkCacheEntry :=
  match entry.json with
  | none =>
    match loadBookmarkJson f env entry with
    | (0, e) =>
      match f.statMtime with
      | some m => (true, e.stamp m)
      | none => (true, e)
    | (_, e) => (false, e)
  | some _ =>
    match f.statMtime with
    | none => (true, entry)
    | some m =>
      if m ≠ entry.mtime then
        match loadBookmarkJson f env entry with
        | (0, e) => (true, e.stamp m)
        | (_, e) => (false, e)
      else (true, entry)

/-! ### The cache -/

/-- The used part of `g_db_cache`; its length is `g_db_cache_count`. -/
abbrev DbCache := List BookmarkCacheEntry

/-- bookmark_cache_add_db; a NULL path adds nothing. -/
def bookmarkCacheAddDb (cache : DbCache) (path : Option CString) : DbCache :=
  match path with
  | none => cache
  | some p =>
    if cache.length < maxBookmarkFiles then cache ++ [⟨none, 0, 0, p.cut pathFieldSize⟩]
    else cache

theorem addDb_empty (paths : List (Option CString)) (cache : DbCache)
    (h : ∀ e ∈ cache, e.json = none) :
    ∀ e ∈ paths.foldl bookmarkCacheAddDb cache, e.json = none := by
  induction paths generalizing cache with
  | nil => exact h
  | cons p ps ih =>
    apply ih
    unfold bookmarkCacheAddDb
    split
    · exact h
    · split
      · intro e he
        rcases List.mem_append.mp he with he | he
        · exact h e he
        · rw [List.mem_singleton.mp he]
      · exact h

/-- The index check that both phases of a call make. -/
def entryAt (cache : DbCache) (index : ℤ) : Option BookmarkCacheEntry :=
  if index < 0 then none else cache[index.toNat]?

theorem entryAt_some {cache : DbCache} {index : ℤ} {e : BookmarkCacheEntry}
    (h : entryAt cache index = some e) : 0 ≤ index ∧ cache[index.toNat]? = some e := by
  unfold entryAt at h
  split at h
  · cases h
  · exact ⟨by omega, h⟩

theorem entryAt_set {cache : DbCache} {index : ℤ} {e : BookmarkCacheEntry}
    (e' : BookmarkCacheEntry) (h : entryAt cache index = some e) :
    entryAt (cache.set index.toNat e') index = some e' := by
  unfold entryAt at h ⊢
  split at h
  · cases h
  · rename_i hneg
    rw [if_neg hneg, List.getElem?_set_self (List.getElem?_eq_some_iff.mp h).1]

theorem set_entryAt {cache : DbCache} {index : ℤ} {e : BookmarkCacheEntry}
    (h : entryAt cache index = some e) : cache.set index.toNat e = cache := by
  unfold entryAt at h
  split at h
  · cases h
  · obtain ⟨hlt, rfl⟩ := List.getElem?_eq_some_iff.mp h
    exact List.set_getElem_self hlt

/-- The returned pointer and what `*out_len` was set to. -/
structure CopyResult where
  copy : Option Bytes
  outLen : Option ℕ
  deriving DecidableEq

def noCopy : CopyResult := ⟨none, none⟩

/-- malloc and memcpy of `json_len + 1` bytes of the buffer. -/
def jsonCopy (entry : BookmarkCacheEntry) (env : CallEnv) : CopyResult where
  copy := if env.copyMallocOk then entry.json.map (List.take (entry.jsonLen + 1)) else none
  outLen := some entry.jsonLen

def fastFresh (f : BookmarkFile) (entry : BookmarkCacheEntry) : Bool :=
  entry.json.isSome && decide (0 < entry.jsonLen) && f.statMtime == some entry.mtime

/-- Phase 2: what a call returns under the write lock, and the entry it leaves. -/
def writePath (f : BookmarkFile) (env : CallEnv) (entry : BookmarkCacheEntry) :
    CopyResult × BookmarkCacheEntry :=
  match ensureLoaded f env entry with
  | (true, e) => (jsonCopy e env, e)
  | (false, e) => (noCopy, e)

/-- `get_cached_bookmark_json_copy` with no other thread and no change of the file between
its steps. -/
def getCachedBookmarkJsonCopy (cache : DbCache) (disk : Disk) (index : ℤ) (env : CallEnv) :
    CopyResult × DbCache :=
  match entryAt cache index with
  | none => (noCopy, cache)
  | some entry =>
    let f := disk entry.path
    if fastFresh f entry then (jsonCopy entry env, cache)
    else
      let r := writePath f env entry
      (r.1, cache.set index.toNat r.2)

end LocalMarks.BookmarkCache

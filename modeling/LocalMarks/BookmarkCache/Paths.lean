import LocalMarks.BookmarkCache.History

/-!
# The path of an entry

`bookmark_cache_add_db` copies each path of the command line into a field of 256 bytes. Nothing
changes the field afterwards, so a path that was cut there stays cut.
-/

namespace LocalMarks.BookmarkCache
open LocalMarks.Lib

/-- The bookmark files that `parse_opt` accepts. -/
structure BookmarkPaths where
  paths : List CString
  count_le : paths.length ≤ maxBookmarkFiles

/-- The cache after `bookmark_cache_add_db` was called for each of them. -/
def startCache (args : BookmarkPaths) : DbCache :=
  (args.paths.map some).foldl bookmarkCacheAddDb []

/-- The path that a call gives to fopen, if it loads the entry. -/
def openedPath (s : State) (index : ℤ) : Option CString :=
  match entryAt s.cache index with
  | none => none
  | some entry =>
    let f := s.disk entry.path
    if fastFresh f entry then none
    else if needsLoad f entry then some entry.path
    else none

structure StartOn (args : BookmarkPaths) (s : State) : Prop where
  cache : s.cache = startCache args
  readable : ∀ p ∈ args.paths, (s.disk p).access = .readable
  used : ∀ p m, (s.disk p).statMtime = some m → m ∈ s.used p

/-- What a call returns and leaves that loads the entry from the file `f`. -/
def loadFrom (cache : DbCache) (index : ℤ) (entry : BookmarkCacheEntry) (f : BookmarkFile)
    (env : CallEnv) : CopyResult × DbCache :=
  match loadBookmarkJson f env entry with
  | (0, e) => (jsonCopy (e.stamp f.mtime) env, cache.set index.toNat (e.stamp f.mtime))
  | (_, e) => (noCopy, cache.set index.toNat e)

/-- The call is one that loads the entry, from the file at `path`. -/
def LoadsAt (s : State) (index : ℤ) (env : CallEnv) (path : CString) : Prop :=
  ∃ entry, entryAt s.cache index = some entry ∧
    getCachedBookmarkJsonCopy s.cache s.disk index env =
      loadFrom s.cache index entry (s.disk path) env

/-- What a call returns and leaves that loads nothing. -/
def fromCache (cache : DbCache) (index : ℤ) (env : CallEnv) : CopyResult × DbCache :=
  ((entryAt cache index).elim noCopy fun entry => jsonCopy entry env, cache)

/-- Whatever happens after startup, a call for entry `i` that opens a file opens the one with the
`i`-th given path and is a load of it, and any other call hands out what the cache has. -/
def LoadsGivenPath (args : BookmarkPaths) (i : Fin args.paths.length) : Prop :=
  ∀ s, Reach (StartOn args) (StepOf exec) s → ∀ env,
    (∀ p, openedPath s i.val = some p → p = args.paths[i] ∧ LoadsAt s i.val env args.paths[i]) ∧
    (openedPath s i.val = none →
      getCachedBookmarkJsonCopy s.cache s.disk i.val env = fromCache s.cache i.val env)

/-! ### The file that is opened -/

theorem ensureLoaded_load {f : BookmarkFile} {entry : BookmarkCacheEntry}
    (h : needsLoad f entry = true) (env : CallEnv) : ensureLoaded f env entry =
      match loadBookmarkJson f env entry with
      | (0, e) => (true, e.stamp f.mtime)
      | (_, e) => (false, e) := by
  unfold ensureLoaded
  cases hjson : entry.json with
  | none =>
    rcases loadBookmarkJson_cases f env entry with ⟨hread, hload⟩ | hload | hload
    · simp only [hload, statMtime_readable hread]
    · rw [hload]
      rfl
    · rw [hload]
      rfl
  | some b =>
    unfold needsLoad at h
    rw [hjson] at h
    cases hstat : f.statMtime with
    | none =>
      rw [hstat] at h
      cases h
    | some m =>
      rw [hstat] at h
      obtain rfl := statMtime_some hstat
      exact if_pos (bne_iff_ne.mp h)

theorem ensureLoaded_kept {f : BookmarkFile} {entry : BookmarkCacheEntry}
    (h : needsLoad f entry = false) (env : CallEnv) : ensureLoaded f env entry = (true, entry) := by
  unfold needsLoad at h
  unfold ensureLoaded
  cases hjson : entry.json with
  | none =>
    rw [hjson] at h
    cases h
  | some b =>
    rw [hjson] at h
    cases hstat : f.statMtime with
    | none => rfl
    | some m =>
      rw [hstat] at h
      dsimp only
      rw [if_neg (not_not.mpr (bne_eq_false_iff_eq.mp h))]

theorem openedPath_some {s : State} {index : ℤ} {p : CString} (h : openedPath s index = some p) :
    ∃ entry, entryAt s.cache index = some entry ∧ entry.path = p ∧
      ¬ fastFresh (s.disk entry.path) entry ∧ needsLoad (s.disk entry.path) entry = true := by
  unfold openedPath at h
  cases hat : entryAt s.cache index with
  | none =>
    rw [hat] at h
    cases h
  | some entry =>
    rw [hat] at h
    dsimp only at h
    split at h
    · cases h
    next hstale =>
      split at h
      next hload => exact ⟨entry, rfl, Option.some.inj h, hstale, hload⟩
      · cases h

theorem openedPath_loads {s : State} {index : ℤ} {p : CString} (h : openedPath s index = some p)
    (env : CallEnv) : LoadsAt s index env p := by
  obtain ⟨entry, hat, rfl, hstale, hload⟩ := openedPath_some h
  refine ⟨entry, hat, ?_⟩
  unfold getCachedBookmarkJsonCopy loadFrom
  rw [hat]
  dsimp only
  rw [if_neg hstale, writePath, ensureLoaded_load hload]
  rcases loadBookmarkJson_cases (s.disk entry.path) env entry with ⟨-, hl⟩ | hl | hl
  · rw [hl]
    rfl
  · rw [hl]
    rfl
  · rw [hl]
    rfl

/-- A call that opens none hands out what the cache has. -/
theorem openedPath_none {s : State} {index : ℤ} (h : openedPath s index = none) (env : CallEnv) :
    getCachedBookmarkJsonCopy s.cache s.disk index env = fromCache s.cache index env := by
  unfold openedPath at h
  unfold getCachedBookmarkJsonCopy fromCache
  cases hat : entryAt s.cache index with
  | none => rfl
  | some entry =>
    rw [hat] at h
    dsimp only at h ⊢
    split at h
    next hfresh =>
      rw [if_pos hfresh]
      rfl
    next hstale =>
      split at h
      · cases h
      next hkept =>
        rw [if_neg hstale, writePath, ensureLoaded_kept (Bool.eq_false_iff.mpr hkept)]
        exact Prod.ext rfl (set_entryAt hat)

/-! ### Its path -/

theorem addDb_paths (ps : List CString) (cache : DbCache)
    (h : cache.length + ps.length ≤ maxBookmarkFiles) :
    ((ps.map some).foldl bookmarkCacheAddDb cache).map BookmarkCacheEntry.path =
      cache.map BookmarkCacheEntry.path ++ ps.map fun p => p.cut pathFieldSize := by
  induction ps generalizing cache with
  | nil => exact (List.append_nil _).symm
  | cons p ps ih =>
    rw [List.length_cons] at h
    have hroom : cache.length < maxBookmarkFiles := by omega
    have hadd : bookmarkCacheAddDb cache (some p) = cache ++ [⟨none, 0, 0, p.cut pathFieldSize⟩] :=
      if_pos hroom
    rw [List.map_cons, List.foldl_cons, hadd, ih]
    · rw [List.map_append, List.append_assoc]
      rfl
    · rw [List.length_append, List.length_singleton]
      omega

theorem startCache_paths (args : BookmarkPaths) :
    (startCache args).map BookmarkCacheEntry.path =
      args.paths.map fun p => p.cut pathFieldSize := by
  have hcount := args.count_le
  exact addDb_paths args.paths [] (by rw [List.length_nil]; omega)

theorem getCached_paths (cache : DbCache) (disk : Disk) (index : ℤ) (env : CallEnv) :
    (getCachedBookmarkJsonCopy cache disk index env).2.map BookmarkCacheEntry.path =
      cache.map BookmarkCacheEntry.path := by
  unfold getCachedBookmarkJsonCopy
  cases hat : entryAt cache index with
  | none => rfl
  | some entry =>
    dsimp only
    split
    · rfl
    · rw [List.map_set, writePath_snd, ensureLoaded_path]
      have hpath : (cache.map BookmarkCacheEntry.path)[index.toNat]? = some entry.path := by
        rw [List.getElem?_map, (entryAt_some hat).2, Option.map_some]
      obtain ⟨hlt, hget⟩ := List.getElem?_eq_some_iff.mp hpath
      rw [← hget]
      exact List.set_getElem_self hlt

theorem exec_paths {s s' : State} {ev : Event} (h : exec s ev = some s') :
    s'.cache.map BookmarkCacheEntry.path = s.cache.map BookmarkCacheEntry.path := by
  cases ev with
  | replace path content mtime readable =>
    simp only [exec] at h
    split at h
    · cases h
    · obtain rfl := Option.some.inj h
      rfl
  | delete path =>
    cases h
    rfl
  | chmod path readable =>
    simp only [exec] at h
    split at h
    · cases h
    · obtain rfl := Option.some.inj h
      rfl
  | call index env =>
    cases h
    exact getCached_paths s.cache s.disk index env

theorem reach_paths {args : BookmarkPaths} {s : State} (h : Reach (StartOn args) (StepOf exec) s) :
    s.cache.map BookmarkCacheEntry.path = args.paths.map fun p => p.cut pathFieldSize := by
  induction h with
  | start hs => rw [hs.cache, startCache_paths]
  | next ev _ hst ih => exact (exec_paths hst).trans ih

theorem openedPath_cut {args : BookmarkPaths} {s : State}
    (h : Reach (StartOn args) (StepOf exec) s) (i : Fin args.paths.length) {p : CString}
    (hp : openedPath s i.val = some p) : p = args.paths[i].cut pathFieldSize := by
  obtain ⟨entry, hat, rfl, -, -⟩ := openedPath_some hp
  have hpaths := congrArg (fun ps : List CString => ps[i.val]?) (reach_paths h)
  have hget : s.cache[i.val]? = some entry := (entryAt_some hat).2
  rw [List.getElem?_map, List.getElem?_map, hget, List.getElem?_eq_getElem i.isLt] at hpaths
  exact Option.some.inj hpaths

theorem cut_eq_self_iff {p : CString} {n : ℕ} (hn : 0 < n) : p.cut n = p ↔ p.bytes.length < n := by
  constructor
  · intro h
    have hlen := congrArg (fun q : CString => q.bytes.length) h
    dsimp only [CString.cut] at hlen
    rw [List.length_take] at hlen
    omega
  · intro h
    exact CString.ext (List.take_of_length_le (by omega))

def startOf (args : BookmarkPaths) : State where
  cache := startCache args
  disk := fun _ => ⟨[], 0, .readable⟩
  used := fun _ => [0]
  lastLoad := fun _ => none

theorem startOf_start (args : BookmarkPaths) : StartOn args (startOf args) := by
  refine ⟨rfl, fun p _ => rfl, ?_⟩
  intro p m hm
  cases hm
  exact List.mem_singleton.mpr rfl

theorem startOf_opens (args : BookmarkPaths) (i : Fin args.paths.length) :
    openedPath (startOf args) i.val = some (args.paths[i].cut pathFieldSize) := by
  have hpaths := congrArg (fun ps : List CString => ps[i.val]?) (startCache_paths args)
  rw [List.getElem?_map, List.getElem?_map, List.getElem?_eq_getElem i.isLt] at hpaths
  obtain ⟨entry, hentry, hpath⟩ := Option.map_eq_some_iff.mp hpaths
  have hjson : entry.json = none :=
    addDb_empty (args.paths.map some) [] (fun e he => absurd he List.not_mem_nil) entry
      (List.mem_of_getElem? hentry)
  have hat : entryAt (startOf args).cache i.val = some entry := by
    unfold entryAt
    rw [if_neg (by omega)]
    exact hentry
  unfold openedPath
  rw [hat]
  simp only [fastFresh, needsLoad, hjson, Option.isSome_none, Option.isNone_none, Bool.false_and,
    Bool.true_or, if_true, Bool.false_eq_true, if_false, hpath]
  rfl

/-- A call in which nothing fails, for files of up to 4096 bytes. -/
def plainCall : CallEnv := ⟨true, true, 4096, true⟩

/-- A path reaches the cache unaltered exactly if it has less than 256 bytes. -/
theorem loadsGivenPath_iff (args : BookmarkPaths) (i : Fin args.paths.length) :
    LoadsGivenPath args i ↔ args.paths[i].bytes.length < 256 := by
  rw [← cut_eq_self_iff (Nat.succ_pos 255)]
  constructor
  · intro h
    exact ((h _ (.start (startOf_start args)) plainCall).1 _ (startOf_opens args i)).1
  · intro hcut s hs env
    refine ⟨fun p hp => ?_, fun hp => openedPath_none hp env⟩
    have hpath : p = args.paths[i] := (openedPath_cut hs i hp).trans hcut
    rw [← hpath]
    exact ⟨rfl, openedPath_loads hp env⟩

/-- A path of 300 letters, and its first 255 letters, which name another file. -/
def longArg : CString := ⟨List.replicate 300 97, by decide +kernel⟩
def cutArgs : BookmarkPaths := ⟨[longArg], by decide⟩

def twoFilesDisk : Disk := fun p =>
  if p = longArg then ⟨ascii "[1]", 7, .readable⟩ else ⟨ascii "[2]", 8, .readable⟩

theorem longArg_altered : ¬ LoadsGivenPath cutArgs ⟨0, Nat.one_pos⟩ ∧
    (twoFilesDisk longArg).content = ascii "[1]" ∧
    (getCachedBookmarkJsonCopy (startCache cutArgs) twoFilesDisk 0 plainCall).1.copy =
      some (ascii "[2]" ++ [0]) := by
  refine ⟨?_, by decide +kernel, by decide +kernel⟩
  intro h
  have hopened := ((h _ (.start (startOf_start cutArgs)) plainCall).1 _
    (startOf_opens cutArgs ⟨0, Nat.one_pos⟩)).1
  have hlen := (cut_eq_self_iff (Nat.succ_pos 255)).mp hopened
  have h300 : longArg.bytes.length = 300 := List.length_replicate
  have hlt : longArg.bytes.length < 256 := hlen
  omega

end LocalMarks.BookmarkCache

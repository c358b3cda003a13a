import LocalMarks.Lib.Reach
import LocalMarks.BookmarkCache.Entry

/-!
# Histories of a cached file

Files are replaced, deleted and made unreadable between calls; each call may fail at any of
its library calls. A copy handed out is the current content of the file whenever `stat`
works, and the text of the last successful load otherwise.
-/

namespace LocalMarks.BookmarkCache
open LocalMarks.Lib

/-! ### What a call loads -/

/-- The write path loads the file: there is no text yet, or `stat` shows another mtime. -/
def needsLoad (f : BookmarkFile) (entry : BookmarkCacheEntry) : Bool :=
  entry.json.isNone || match f.statMtime with
    | some m => m != entry.mtime
    | none => false

/-- The text that the write path loads, when its load succeeds. -/
def loadedText (f : BookmarkFile) (env : CallEnv) (entry : BookmarkCacheEntry) : Option Bytes :=
  if needsLoad f entry ∧ (loadBookmarkJson f env entry).1 = 0 then some f.content else none

/-! ### The invariant of an entry -/

/-- How the three fields of an entry relate to its file `f`, the mtimes the file has had and
the text of the last successful load. -/
structure EntryOk (f : BookmarkFile) (used : List ℤ) (last : Option Bytes)
    (e : BookmarkCacheEntry) : Prop where
  text : ∀ b, e.json = some b →
    ∃ c, last = some c ∧ b = c ++ [0] ∧ e.jsonLen = c.length ∧ e.mtime ∈ used
  current : e.json ≠ none → f.statMtime = some e.mtime → last = some f.content

theorem entryOk_empty {f : BookmarkFile} {used : List ℤ} {last : Option Bytes}
    {e : BookmarkCacheEntry} (h : e.json = none) : EntryOk f used last e := by
  constructor
  · intro b hb
    rw [h] at hb
    cases hb
  · intro hne
    exact absurd h hne

theorem entryOk_stored {f : BookmarkFile} {used : List ℤ} {e : BookmarkCacheEntry}
    (hu : f.mtime ∈ used) :
    EntryOk f used (some f.content) ((e.storeJson f.content).stamp f.mtime) := by
  constructor
  · intro b hb
    cases hb
    exact ⟨f.content, rfl, rfl, rfl, hu⟩
  · intro _ _
    rfl

/-- What `ensure_loaded` can do, with the text it loads. -/
inductive EnsureStep (f : BookmarkFile) (e : BookmarkCacheEntry) :
    Bool × BookmarkCacheEntry → Option Bytes → Prop where
  | kept : e.json ≠ none → (∀ m, f.statMtime = some m → m = e.mtime) → EnsureStep f e (true, e) none
  | stored : f.access = .readable →
      EnsureStep f e (true, (e.storeJson f.content).stamp f.mtime) (some f.content)
  | refused : EnsureStep f e (false, e) none
  | dropped : EnsureStep f e (false, e.freeJson) none

theorem ensureLoaded_step (f : BookmarkFile) (env : CallEnv) (e : BookmarkCacheEntry) :
    EnsureStep f e (ensureLoaded f env e) (loadedText f env e) := by
  unfold loadedText ensureLoaded needsLoad
  cases hj : e.json with
  | none =>
    rcases loadBookmarkJson_cases f env e with ⟨hr, hl⟩ | hl | hl
    · simpa [hl, statMtime_readable hr] using EnsureStep.stored hr
    · simpa [hl] using EnsureStep.refused
    · simpa [hl] using EnsureStep.dropped
  | some b =>
    have hsome : e.json ≠ none := hj ▸ Option.some_ne_none b
    cases hm : f.statMtime with
    | none => simpa using EnsureStep.kept hsome (by simp [hm])
    | some m =>
      by_cases hne : m = e.mtime
      · simpa [hne] using EnsureStep.kept hsome (by simp [hm, hne])
      · rcases loadBookmarkJson_cases f env e with ⟨hr, hl⟩ | hl | hl
        · obtain rfl := statMtime_some hm
          simpa [hl, hne] using EnsureStep.stored hr
        · simpa [hl, hne] using EnsureStep.refused
        · simpa [hl, hne] using EnsureStep.dropped

/-- The write path keeps the invariant, and an entry it returns has a text that is stamped
with what `stat` shows. -/
theorem ensureLoaded_ok {f : BookmarkFile} {used : List ℤ} {last : Option Bytes}
    {e : BookmarkCacheEntry} (env : CallEnv) (h : EntryOk f used last e)
    (hused : ∀ m, f.statMtime = some m → m ∈ used) :
    EntryOk f used ((loadedText f env e).or last) (ensureLoaded f env e).2 ∧
      ((ensureLoaded f env e).1 = true → (ensureLoaded f env e).2.json ≠ none ∧
        ∀ m, f.statMtime = some m → m = (ensureLoaded f env e).2.mtime) := by
  have hstep := ensureLoaded_step f env e
  generalize ensureLoaded f env e = r at hstep ⊢
  generalize loadedText f env e = l at hstep ⊢
  cases hstep with
  | kept hj hm => exact ⟨h, fun _ => ⟨hj, hm⟩⟩
  | stored hr =>
    have hu := hused _ (statMtime_readable hr)
    exact ⟨entryOk_stored hu, fun _ => ⟨Option.some_ne_none _, fun m hm => statMtime_some hm⟩⟩
  | refused => exact ⟨h, nofun⟩
  | dropped => exact ⟨entryOk_empty rfl, nofun⟩

/-- The fast path answers only where the write path would find nothing to do. -/
theorem writePath_of_fresh {f : BookmarkFile} {entry : BookmarkCacheEntry} (env : CallEnv)
    (h : fastFresh f entry = true) : writePath f env entry = (jsonCopy entry env, entry) := by
  unfold fastFresh at h
  simp only [Bool.and_eq_true, decide_eq_true_eq, beq_iff_eq, Option.isSome_iff_exists] at h
  obtain ⟨⟨⟨b, hj⟩, _⟩, hm⟩ := h
  simp [writePath, ensureLoaded, hj, hm]

theorem loadedText_missing {f : BookmarkFile} (env : CallEnv) (e : BookmarkCacheEntry)
    (h : f.statMtime = none) : loadedText f env e = none := by
  unfold loadedText
  rcases loadBookmarkJson_cases f env e with ⟨hr, _⟩ | hl | hl
  · rw [statMtime_readable hr] at h
    cases h
  · simp [hl]
  · simp [hl]

theorem jsonCopy_current {f : BookmarkFile} {used : List ℤ} {last : Option Bytes}
    {e : BookmarkCacheEntry} {env : CallEnv} {b : Bytes} (h : EntryOk f used last e)
    (hm : ∀ m, f.statMtime = some m → m = e.mtime) (hb : (jsonCopy e env).copy = some b) :
    ∃ c, b = c ++ [0] ∧ (jsonCopy e env).outLen = some c.length ∧
      ((f.statMtime ≠ none ∧ c = f.content) ∨ (f.statMtime = none ∧ last = some c)) := by
  unfold jsonCopy at hb
  dsimp only at hb
  split at hb
  · obtain ⟨x, hx, hxb⟩ := Option.map_eq_some_iff.mp hb
    obtain ⟨c, hc, hxc, hlen, _⟩ := h.text x hx
    refine ⟨c, ?_, congrArg some hlen, ?_⟩
    · rw [← hxb, hxc, hlen, List.take_of_length_le (by simp)]
    · cases hstat : f.statMtime with
      | none => exact Or.inr ⟨rfl, hc⟩
      | some m =>
        have hcur := h.current (hx ▸ Option.some_ne_none x) (hm m hstat ▸ hstat)
        exact Or.inl ⟨Option.some_ne_none m, Option.some.inj (hc.symm.trans hcur)⟩
  · cases hb

theorem writePath_current {f : BookmarkFile} {used : List ℤ} {last : Option Bytes}
    {e : BookmarkCacheEntry} {env : CallEnv} {b : Bytes} (h : EntryOk f used last e)
    (hused : ∀ m, f.statMtime = some m → m ∈ used) (hb : (writePath f env e).1.copy = some b) :
    ∃ c, b = c ++ [0] ∧ (writePath f env e).1.outLen = some c.length ∧
      ((f.statMtime ≠ none ∧ c = f.content) ∨ (f.statMtime = none ∧ last = some c)) := by
  obtain ⟨hok, hret⟩ := ensureLoaded_ok env h hused
  unfold writePath at hb ⊢
  generalize ensureLoaded f env e = r at hok hret hb ⊢
  obtain ⟨ok, e'⟩ := r
  cases ok with
  | false => cases hb
  | true =>
    obtain ⟨c, hbc, hlen, hc⟩ := jsonCopy_current hok (hret rfl).2 hb
    refine ⟨c, hbc, hlen, hc.imp_right fun ⟨hstat, hl⟩ => ⟨hstat, ?_⟩⟩
    rwa [loadedText_missing env e hstat, Option.none_or] at hl

/-! ### Runs -/

structure State where
  cache : DbCache
  disk : Disk
  /-- The mtimes the file of each path has had. -/
  used : CString → List ℤ
  /-- The content that the last successful load of each entry read. -/
  lastLoad : ℕ → Option Bytes

inductive Event where
  | replace (path : CString) (content : Bytes) (mtime : ℤ) (readable : Bool)
  | delete (path : CString)
  | chmod (path : CString) (readable : Bool)
  | call (index : ℤ) (env : CallEnv)

def readableAs (readable : Bool) : Access := if readable then .readable else .unreadable

/-- The text that the call loads, if it loads any. -/
def callLoad (s : State) (index : ℤ) (env : CallEnv) : Option Bytes :=
  match entryAt s.cache index with
  | none => none
  | some entry =>
    let f := s.disk entry.path
    if fastFresh f entry then none else loadedText f env entry

/-- A replaced file gets an mtime it never had; a deleted file comes back by a replacement. -/
def exec (s : State) : Event → Option State
  | .replace path content mtime readable =>
    if mtime ∈ s.used path then none
    else some { s with
      disk := Function.update s.disk path ⟨content, mtime, readableAs readable⟩
      used := Function.update s.used path (mtime :: s.used path) }
  | .delete path =>
    some { s with disk := Function.update s.disk path { s.disk path with access := .missing } }
  | .chmod path readable =>
    if (s.disk path).access = .missing then none
    else some { s with
      disk := Function.update s.disk path { s.disk path with access := readableAs readable } }
  | .call index env =>
    some { s with
      cache := (getCachedBookmarkJsonCopy s.cache s.disk index env).2
      lastLoad := Function.update s.lastLoad index.toNat
        ((callLoad s index env).or (s.lastLoad index.toNat)) }

/-- The cache after startup, over files of which some may be missing. -/
structure Start (s : State) : Prop where
  cache : ∃ paths : List (Option CString), s.cache = paths.foldl bookmarkCacheAddDb []
  used : ∀ p m, (s.disk p).statMtime = some m → m ∈ s.used p

/-- The invariant of a run. -/
structure CacheOk (s : State) : Prop where
  used : ∀ p m, (s.disk p).statMtime = some m → m ∈ s.used p
  entry : ∀ (i : ℕ) (e : BookmarkCacheEntry), s.cache[i]? = some e →
    EntryOk (s.disk e.path) (s.used e.path) (s.lastLoad i) e

theorem start_ok {s : State} (h : Start s) : CacheOk s := by
  obtain ⟨paths, hp⟩ := h.cache
  refine ⟨h.used, fun i e he => entryOk_empty ?_⟩
  exact addDb_empty paths [] (by simp) e (hp ▸ List.mem_of_getElem? he)

/-- A file event keeps the relation of every entry: an entry never holds a later mtime, and
content changes only together with the mtime. -/
theorem EntryOk.file {f f' : BookmarkFile} {used used' : List ℤ} {last : Option Bytes}
    {e : BookmarkCacheEntry} (h : EntryOk f used last e) (hu : used ⊆ used')
    (hf : e.mtime ∈ used → f'.statMtime = some e.mtime →
      f.statMtime = some e.mtime ∧ f.content = f'.content) : EntryOk f' used' last e := by
  constructor
  · intro b hb
    obtain ⟨c, hc, hbc, hl, hm⟩ := h.text b hb
    exact ⟨c, hc, hbc, hl, hu hm⟩
  · intro hj hm
    obtain ⟨b, hb⟩ := Option.ne_none_iff_exists'.mp hj
    obtain ⟨_, _, _, _, hmem⟩ := h.text b hb
    obtain ⟨hold, hc⟩ := hf hmem hm
    rw [← hc]
    exact h.current hj hold

theorem CacheOk.file {s : State} (h : CacheOk s) {path : CString} {f' : BookmarkFile}
    {used' : List ℤ} (hu : s.used path ⊆ used') (hstat : ∀ m, f'.statMtime = some m → m ∈ used')
    (hf : ∀ m ∈ s.used path, f'.statMtime = some m →
      (s.disk path).statMtime = some m ∧ (s.disk path).content = f'.content) :
    CacheOk { s with
      disk := Function.update s.disk path f', used := Function.update s.used path used' } := by
  constructor
  · intro p m hm
    dsimp only at hm ⊢
    by_cases hp : p = path
    · subst hp
      rw [Function.update_self] at hm ⊢
      exact hstat m hm
    · rw [Function.update_of_ne hp] at hm ⊢
      exact h.used p m hm
  · intro i e he
    dsimp only at he ⊢
    by_cases hp : e.path = path
    · subst hp
      rw [Function.update_self, Function.update_self]
      exact (h.entry i e he).file hu (hf e.mtime)
    · rw [Function.update_of_ne hp, Function.update_of_ne hp]
      exact h.entry i e he

theorem statMtime_readableAs (content : Bytes) (mtime : ℤ) (r : Bool) :
    (⟨content, mtime, readableAs r⟩ : BookmarkFile).statMtime = some mtime := by
  cases r <;> rfl

theorem ensureLoaded_path (f : BookmarkFile) (env : CallEnv) (e : BookmarkCacheEntry) :
    (ensureLoaded f env e).2.path = e.path := by
  have hstep := ensureLoaded_step f env e
  generalize ensureLoaded f env e = r at hstep ⊢
  generalize loadedText f env e = l at hstep
  cases hstep <;> rfl

theorem writePath_snd (f : BookmarkFile) (env : CallEnv) (e : BookmarkCacheEntry) :
    (writePath f env e).2 = (ensureLoaded f env e).2 := by
  unfold writePath
  split
  · rename_i h
    rw [h]
  · rename_i h
    rw [h]

theorem CacheOk.call {s : State} (h : CacheOk s) (index : ℤ) (env : CallEnv) :
    CacheOk { s with
      cache := (getCachedBookmarkJsonCopy s.cache s.disk index env).2
      lastLoad := Function.update s.lastLoad index.toNat
        ((callLoad s index env).or (s.lastLoad index.toNat)) } := by
  refine ⟨h.used, ?_⟩
  unfold callLoad getCachedBookmarkJsonCopy
  intro i e he
  dsimp only at he ⊢
  cases hat : entryAt s.cache index with
  | none =>
    simp only [hat, Option.none_or, Function.update_eq_self] at he ⊢
    exact h.entry i e he
  | some entry =>
    simp only [hat] at he ⊢
    obtain ⟨_, hget⟩ := entryAt_some hat
    split at he
    · rename_i hfast
      simp only [hfast, if_true, Option.none_or, Function.update_eq_self]
      exact h.entry i e he
    · rename_i hfast
      simp only [hfast]
      rw [writePath_snd] at he
      have hok := (ensureLoaded_ok env (h.entry _ entry hget) (h.used entry.path)).1
      by_cases hi : i = index.toNat
      · subst hi
        rw [List.getElem?_set_self (List.getElem?_eq_some_iff.mp hget).1] at he
        obtain rfl := Option.some.inj he
        rw [Function.update_self, ensureLoaded_path]
        exact hok
      · rw [List.getElem?_set_ne (Ne.symm hi)] at he
        rw [Function.update_of_ne hi]
        exact h.entry i e he

theorem exec_ok {s s' : State} {ev : Event} (h : CacheOk s) (hst : exec s ev = some s') :
    CacheOk s' := by
  cases ev with
  | replace path content mtime readable =>
    simp only [exec] at hst
    split at hst
    · cases hst
    · rename_i hnew
      obtain rfl := Option.some.inj hst
      refine h.file (List.subset_cons_self _ _) ?_ ?_
      · intro m hm
        rw [statMtime_readableAs, Option.some.injEq] at hm
        exact hm ▸ List.mem_cons_self ..
      · intro m hmem hm
        rw [statMtime_readableAs, Option.some.injEq] at hm
        exact absurd (hm ▸ hmem) hnew
  | delete path =>
    obtain rfl := Option.some.inj hst
    have hgone := h.file (List.Subset.refl (s.used path)) (nofun :
      ∀ m, ({ s.disk path with access := .missing } : BookmarkFile).statMtime = some m → _) nofun
    rwa [Function.update_eq_self] at hgone
  | chmod path readable =>
    simp only [exec] at hst
    split at hst
    · cases hst
    · rename_i hvis
      obtain rfl := Option.some.inj hst
      have hstat : (s.disk path).statMtime = some (s.disk path).mtime := by
        simp [BookmarkFile.statMtime, hvis]
      have hmode : ({ s.disk path with access := readableAs readable } : BookmarkFile).statMtime =
          (s.disk path).statMtime := by
        rw [hstat, statMtime_readableAs]
      have hfile := h.file (List.Subset.refl (s.used path))
        (fun m hm => h.used path m (hmode ▸ hm)) (fun m _ hm => ⟨hmode ▸ hm, rfl⟩)
      rwa [Function.update_eq_self] at hfile
  | call index env =>
    obtain rfl := Option.some.inj hst
    exact h.call index env

theorem reach_ok {s : State} (h : Reach Start (StepOf exec) s) : CacheOk s :=
  h.invariant (fun _ => start_ok) fun _ _ _ _ hi hst => exec_ok hi hst

/-- Whatever happened before, a copy that a call returns is the file's current content when
`stat` works and the text of the last successful load otherwise; and where the read lock
answers, the write lock would have given the same answer and left the entry as it is. -/
theorem cached_copy_current (s : State) (h : Reach Start (StepOf exec) s) (index : ℤ)
    (env : CallEnv) :
    (∀ b, (getCachedBookmarkJsonCopy s.cache s.disk index env).1.copy = some b →
      ∃ entry c, entryAt s.cache index = some entry ∧ b = c ++ [0] ∧
        (getCachedBookmarkJsonCopy s.cache s.disk index env).1.outLen = some c.length ∧
        (((s.disk entry.path).statMtime ≠ none ∧ c = (s.disk entry.path).content) ∨
          ((s.disk entry.path).statMtime = none ∧ s.lastLoad index.toNat = some c))) ∧
    (∀ entry, entryAt s.cache index = some entry → fastFresh (s.disk entry.path) entry = true →
      getCachedBookmarkJsonCopy s.cache s.disk index env = (jsonCopy entry env, s.cache) ∧
        writePath (s.disk entry.path) env entry = (jsonCopy entry env, entry)) := by
  have hok := reach_ok h
  constructor
  · intro b hb
    cases hat : entryAt s.cache index with
    | none =>
      simp only [getCachedBookmarkJsonCopy, hat] at hb
      cases hb
    | some entry =>
      have he := hok.entry _ entry (entryAt_some hat).2
      simp only [getCachedBookmarkJsonCopy, hat] at hb ⊢
      split at hb
      · rename_i hfast
        rw [if_pos hfast]
        have hstat : (s.disk entry.path).statMtime = some entry.mtime := by
          simp only [fastFresh, Bool.and_eq_true, beq_iff_eq] at hfast
          exact hfast.2
        have hm : ∀ m, (s.disk entry.path).statMtime = some m → m = entry.mtime := by
          intro m hm
          exact Option.some.inj (hm.symm.trans hstat)
        obtain ⟨c, h1, h2, h3⟩ := jsonCopy_current he hm hb
        exact ⟨entry, c, rfl, h1, h2, h3⟩
      · rename_i hfast
        rw [if_neg hfast]
        obtain ⟨c, h1, h2, h3⟩ := writePath_current he (hok.used entry.path) hb
        exact ⟨entry, c, rfl, h1, h2, h3⟩
  · intro entry hat hfast
    refine ⟨?_, writePath_of_fresh env hfast⟩
    simp only [getCachedBookmarkJsonCopy, hat, hfast, if_true]

/-- One database, its file present, and a call at which nothing fails. -/
def startPath : CString := ⟨ascii "bookmarks.json", by decide⟩
def startState : State :=
  ⟨bookmarkCacheAddDb [] (some startPath), fun _ => ⟨ascii "{}", 7, .readable⟩, fun _ => [7],
    fun _ => none⟩
def callOk : CallEnv := ⟨true, true, 4096, true⟩

theorem startState_start : Start startState := by
  refine ⟨⟨[some startPath], rfl⟩, ?_⟩
  intro p m hm
  cases hm
  exact List.mem_singleton.mpr rfl

theorem cached_copy_current_second :
    ∃ s, exec startState (.call 0 callOk) = some s ∧
      ∃ entry c, entryAt s.cache 0 = some entry ∧ ascii "{}" ++ [0] = c ++ [0] ∧
        (getCachedBookmarkJsonCopy s.cache s.disk 0 callOk).1.outLen = some c.length ∧
        (((s.disk entry.path).statMtime ≠ none ∧ c = (s.disk entry.path).content) ∨
          ((s.disk entry.path).statMtime = none ∧ s.lastLoad 0 = some c)) := by
  refine ⟨_, rfl, (cached_copy_current _
    (.next (.call 0 callOk) (.start startState_start) rfl) 0 callOk).1 _ ?_⟩
  decide

end LocalMarks.BookmarkCache

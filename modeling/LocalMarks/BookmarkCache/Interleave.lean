import LocalMarks.Lib.Reach
import LocalMarks.BookmarkCache.Entry
import Mathlib.Logic.Relation

/-!
# Calls step by step

Any number of threads run `get_cached_bookmark_json_copy` under the read-write lock, one
library call a step, while a writer replaces the files. A thread that runs alone computes
`getCachedBookmarkJsonCopy`.
-/

namespace LocalMarks.BookmarkCache.Interleave
open LocalMarks.Lib
open LocalMarks.BookmarkCache

/-- Where a thread stands in its call. In a load, `stamp` is the mtime a reload has taken
before it opens the file; the first load has none. -/
inductive Pc where
  | idle
  | calling (index : ℤ)
  | rdLocked (index : ℤ)
  | rdStat (index : ℤ)
  | rdCopy (index : ℤ)
  | upgrading (index : ℤ)
  | wrLocked (index : ℤ)
  | wrStat (index : ℤ)
  | opening (index : ℤ) (stamp : Option ℤ)
  | opened (index : ℤ) (stamp : Option ℤ) (stream : Bytes)
  | sized (index : ℤ) (stamp : Option ℤ) (stream : Bytes) (size : ℕ)
  | filling (index : ℤ) (stamp : Option ℤ) (stream : Bytes) (size : ℕ)
  | loaded (index : ℤ) (stamp : Option ℤ)
  | wrCopy (index : ℤ)
  deriving DecidableEq

/-- The threads, the lock and the files. -/
structure Sys where
  cache : DbCache
  disk : Disk
  readers : ℕ
  writer : Bool
  pc : ℕ → Pc
  result : ℕ → CopyResult

inductive Act where
  | call (t : ℕ) (index : ℤ)
  | step (t : ℕ) (env : CallEnv)
  | replace (path : CString) (content : Bytes) (mtime : ℤ)

namespace Sys

def goto (s : Sys) (t : ℕ) (p : Pc) : Sys := { s with pc := Function.update s.pc t p }

def finish (s : Sys) (t : ℕ) (r : CopyResult) : Sys :=
  { s with pc := Function.update s.pc t .idle, result := Function.update s.result t r }

def rdUnlock (s : Sys) : Sys := { s with readers := s.readers - 1 }
def wrUnlock (s : Sys) : Sys := { s with writer := false }

def setEntry (s : Sys) (index : ℤ) (e : BookmarkCacheEntry) : Sys :=
  { s with cache := s.cache.set index.toNat e }

end Sys

/-- What an open stream delivers: the file as it is now when replacements write into the
opened file, the file as it was opened when they rename a new one over it. -/
def streamContent (inPlace : Bool) (f : BookmarkFile) (stream : Bytes) : Bytes :=
  if inPlace then f.content else stream

/-- One step of a thread. The tests of Phase 1 up to `stat` touch only what the read lock
protects and are one step; so are those of Phase 2. -/
def threadStep (inPlace : Bool) (s : Sys) (t : ℕ) (env : CallEnv) : Option Sys :=
  match s.pc t with
  | .idle => none
  | .calling index =>
    if s.writer then none else some ({ s with readers := s.readers + 1 }.goto t (.rdLocked index))
  | .rdLocked index =>
    match entryAt s.cache index with
    | none => some (s.rdUnlock.finish t noCopy)
    | some e =>
      if e.json.isSome && decide (0 < e.jsonLen) then some (s.goto t (.rdStat index))
      else some (s.rdUnlock.goto t (.upgrading index))
  | .rdStat index => (entryAt s.cache index).map fun e =>
      if (s.disk e.path).statMtime = some e.mtime then s.goto t (.rdCopy index)
      else s.rdUnlock.goto t (.upgrading index)
  | .rdCopy index => (entryAt s.cache index).map fun e => s.rdUnlock.finish t (jsonCopy e env)
  | .upgrading index =>
    if s.writer || decide (0 < s.readers) then none
    else some ({ s with writer := true }.goto t (.wrLocked index))
  | .wrLocked index =>
    match entryAt s.cache index with
    | none => some (s.wrUnlock.finish t noCopy)
    | some e => some (s.goto t (if e.json.isNone then .opening index none else .wrStat index))
  | .wrStat index => (entryAt s.cache index).map fun e =>
      match (s.disk e.path).statMtime with
      | some m => s.goto t (if m ≠ e.mtime then .opening index (some m) else .wrCopy index)
      | none => s.goto t (.wrCopy index)
  | .opening index stamp => (entryAt s.cache index).map fun e =>
      let f := s.disk e.path
      if f.canOpen then s.goto t (.opened index stamp f.content)
      else s.wrUnlock.finish t noCopy
  | .opened index stamp stream => (entryAt s.cache index).map fun e =>
      let src := streamContent inPlace (s.disk e.path) stream
      if env.ftellOk then s.goto t (.sized index stamp stream src.length)
      else s.wrUnlock.finish t noCopy
  | .sized index stamp stream size => (entryAt s.cache index).map fun e =>
      let s' := s.setEntry index e.freeJson
      if env.loadMallocOk then s'.goto t (.filling index stamp stream size)
      else s'.wrUnlock.finish t noCopy
  | .filling index stamp stream size => (entryAt s.cache index).map fun e =>
      let src := streamContent inPlace (s.disk e.path) stream
      match finishRead e size ((src.take size).take env.freadLen) with
      | (0, e') => (s.setEntry index e').goto t (.loaded index stamp)
      | (_, e') => (s.setEntry index e').wrUnlock.finish t noCopy
  | .loaded index (some m) => (entryAt s.cache index).map fun e =>
      (s.setEntry index (e.stamp m)).goto t (.wrCopy index)
  | .loaded index none => (entryAt s.cache index).map fun e =>
      match (s.disk e.path).statMtime with
      | some m => (s.setEntry index (e.stamp m)).goto t (.wrCopy index)
      | none => s.goto t (.wrCopy index)
  | .wrCopy index => (entryAt s.cache index).map fun e => s.wrUnlock.finish t (jsonCopy e env)

/-- A replacement swaps the whole content at once and strictly increases the mtime. -/
def exec (inPlace : Bool) (s : Sys) : Act → Option Sys
  | .call t index => if s.pc t = .idle then some (s.goto t (.calling index)) else none
  | .step t env => threadStep inPlace s t env
  | .replace path content mtime =>
    if (s.disk path).mtime < mtime then
      some { s with disk := Function.update s.disk path ⟨content, mtime, .readable⟩ }
    else none

/-- Nothing is loaded, no call is under way and the lock is free. -/
structure Start (s : Sys) : Prop where
  cache : ∃ paths : List (Option CString), s.cache = paths.foldl bookmarkCacheAddDb []
  free : s.readers = 0 ∧ s.writer = false
  idle : ∀ t, s.pc t = .idle

def Act.thread : Act → Option ℕ
  | .call t _ | .step t _ => some t
  | .replace .. => none

theorem threadStep_pc {inPlace : Bool} {s s' : Sys} {t : ℕ} {env : CallEnv}
    (hst : threadStep inPlace s t env = some s') : ∃ p, s'.pc = Function.update s.pc t p := by
  have hsome : ∀ {x : Sys} {p : Pc}, x.pc = Function.update s.pc t p → some x = some s' →
      ∃ p, s'.pc = Function.update s.pc t p := by
    intro x p hx h
    cases h
    exact ⟨p, hx⟩
  unfold threadStep at hst
  split at hst
  case h_1 => cases hst
  case h_2 | h_6 =>
    split at hst
    · cases hst
    · exact hsome rfl hst
  case h_3 =>
    split at hst
    · exact hsome rfl hst
    · split at hst <;> exact hsome rfl hst
  case h_7 => split at hst <;> exact hsome rfl hst
  all_goals obtain ⟨e, _, rfl⟩ := Option.map_eq_some_iff.mp hst
  case h_4 | h_8 | h_14 => split <;> exact ⟨_, rfl⟩
  case h_9 | h_10 | h_11 | h_12 =>
    dsimp only
    split <;> exact ⟨_, rfl⟩
  all_goals exact ⟨_, rfl⟩

theorem runList_other {inPlace : Bool} {s s' : Sys} {acts : List Act} {t u : ℕ} (hu : u ≠ t)
    (hacts : ∀ act ∈ acts, act.thread = none ∨ act.thread = some t)
    (hrun : runList (exec inPlace) s acts = some s') : s'.pc u = s.pc u := by
  induction acts generalizing s with
  | nil =>
    cases hrun
    rfl
  | cons act acts ih =>
    obtain ⟨s1, h1, hrest⟩ := Option.bind_eq_some_iff.mp hrun
    rw [ih (fun a ha => hacts a (List.mem_cons_of_mem _ ha)) hrest]
    have hact := hacts act (List.mem_cons_self ..)
    cases act with
    | call v index =>
      obtain rfl : v = t := by simpa [Act.thread] using hact
      simp only [exec] at h1
      split at h1
      · cases h1
        exact Function.update_of_ne hu _ _
      · cases h1
    | step v env =>
      obtain rfl : v = t := by simpa [Act.thread] using hact
      obtain ⟨p, hp⟩ := threadStep_pc h1
      rw [hp, Function.update_of_ne hu]
    | replace path content mtime =>
      simp only [exec] at h1
      split at h1 <;> cases h1
      rfl

/-! ### A thread alone -/

/-- The thread `t` gets from one state to the other without anyone else stepping. -/
def Alone (inPlace : Bool) (t : ℕ) (env : CallEnv) : Sys → Sys → Prop :=
  Relation.ReflTransGen fun s s' => threadStep inPlace s t env = some s'

/-- The thread holds the write lock and has not changed anything but the cache. -/
structure WriteAt (t : ℕ) (disk : Disk) (s : Sys) (cache : DbCache) (p : Pc) : Prop where
  pc : s.pc t = p
  cache : s.cache = cache
  disk : s.disk = disk
  lock : s.readers = 0

/-- The thread has returned `r` and the lock is free again. -/
structure Returned (t : ℕ) (disk : Disk) (s : Sys) (cache : DbCache) (r : CopyResult) :
    Prop where
  pc : s.pc t = .idle
  result : s.result t = r
  cache : s.cache = cache
  disk : s.disk = disk
  lock : s.readers = 0 ∧ s.writer = false

section Alone
variable (inPlace : Bool) {t : ℕ} (env : CallEnv) {disk : Disk} {cache : DbCache} {index : ℤ}
  {e : BookmarkCacheEntry} {s : Sys} {p : Pc}

namespace WriteAt

theorem goto (h : WriteAt t disk s cache p) (p' : Pc) :
    WriteAt t disk (s.goto t p') cache p' :=
  ⟨Function.update_self .., h.cache, h.disk, h.lock⟩

theorem setEntry (h : WriteAt t disk s cache p) (index : ℤ) (e' : BookmarkCacheEntry) :
    WriteAt t disk (s.setEntry index e') (cache.set index.toNat e') p :=
  ⟨h.pc, by rw [Sys.setEntry, h.cache], h.disk, h.lock⟩

theorem finish (h : WriteAt t disk s cache p) (r : CopyResult) :
    Returned t disk (s.wrUnlock.finish t r) cache r :=
  ⟨Function.update_self .., Function.update_self .., h.cache, h.disk, h.lock, rfl⟩

end WriteAt

theorem streamContent_unchanged (f : BookmarkFile) :
    streamContent inPlace f f.content = f.content := by
  unfold streamContent
  split <;> rfl

/-- The same under the read lock, which the thread holds alone. -/
structure ReadAt (t : ℕ) (disk : Disk) (s : Sys) (cache : DbCache) (p : Pc) : Prop where
  pc : s.pc t = p
  cache : s.cache = cache
  disk : s.disk = disk
  lock : s.readers = 1 ∧ s.writer = false

namespace ReadAt

theorem goto (h : ReadAt t disk s cache p) (p' : Pc) : ReadAt t disk (s.goto t p') cache p' :=
  ⟨Function.update_self .., h.cache, h.disk, h.lock⟩

theorem finish (h : ReadAt t disk s cache p) (r : CopyResult) :
    Returned t disk (s.rdUnlock.finish t r) cache r :=
  ⟨Function.update_self .., Function.update_self .., h.cache, h.disk,
    by rw [Sys.finish, Sys.rdUnlock, h.lock.1], h.lock.2⟩

theorem upgrade (h : ReadAt t disk s cache p) (index : ℤ) :
    ∃ s', Alone inPlace t env (s.rdUnlock.goto t (.upgrading index)) s' ∧
      WriteAt t disk s' cache (.wrLocked index) := by
  refine ⟨_, .single (b := { s.rdUnlock.goto t (.upgrading index) with
    writer := true }.goto t (.wrLocked index)) ?_, Function.update_self .., h.cache, h.disk, ?_⟩
  · simp [threadStep, Sys.goto, Sys.rdUnlock, h.lock.1, h.lock.2]
  · change s.readers - 1 = 0
    rw [h.lock.1]

end ReadAt

theorem open_alone {stamp : Option ℤ} (he : entryAt cache index = some e)
    (h : WriteAt t disk s cache (.opening index stamp)) :
    let f := disk e.path
    if f.canOpen ∧ env.ftellOk then
      ∃ s', Alone inPlace t env s s' ∧
        WriteAt t disk s' cache (.sized index stamp f.content f.content.length)
    else ∃ s', Alone inPlace t env s s' ∧ Returned t disk s' cache noCopy := by
  intro f
  by_cases ho : f.canOpen
  · have h1 : threadStep inPlace s t env = some (s.goto t (.opened index stamp f.content)) := by
      simp only [threadStep, h.pc, h.cache, h.disk, he, Option.map_some]
      rw [if_pos ho]
    have w1 := h.goto (.opened index stamp f.content)
    generalize s.goto t (.opened index stamp f.content) = s1 at h1 w1
    by_cases hf : env.ftellOk
    · rw [if_pos ⟨ho, hf⟩]
      refine ⟨_, .tail (.single h1) ?_, w1.goto (.sized index stamp f.content f.content.length)⟩
      simp only [threadStep, w1.pc, w1.cache, w1.disk, he, Option.map_some, hf, if_true]
      rw [streamContent_unchanged]
    · rw [if_neg (fun hh => hf hh.2)]
      refine ⟨_, .tail (.single h1) ?_, w1.finish noCopy⟩
      simp only [threadStep, w1.pc, w1.cache, he, Option.map_some, hf]
      rfl
  · rw [if_neg (fun hh => ho hh.1)]
    refine ⟨_, .single ?_, h.finish noCopy⟩
    simp only [threadStep, h.pc, h.cache, h.disk, he, Option.map_some]
    rw [if_neg ho]

theorem fill_alone {stamp : Option ℤ} {f : BookmarkFile} (he : entryAt cache index = some e)
    (hf : disk e.path = f) (hm : env.loadMallocOk = true)
    (h : WriteAt t disk s cache (.sized index stamp f.content f.content.length)) :
    ∃ s', Alone inPlace t env s s' ∧
      match finishRead e.freeJson f.content.length (f.content.take env.freadLen) with
      | (0, e') => WriteAt t disk s' (cache.set index.toNat e') (.loaded index stamp)
      | (_, e') => Returned t disk s' (cache.set index.toNat e') noCopy := by
  have h1 : threadStep inPlace s t env = some ((s.setEntry index e.freeJson).goto t
      (.filling index stamp f.content f.content.length)) := by
    simp only [threadStep, h.pc, h.cache, he, Option.map_some, hm, if_true]
  have w1 := (h.setEntry index e.freeJson).goto (.filling index stamp f.content f.content.length)
  generalize (s.setEntry index e.freeJson).goto t _ = s1 at h1 w1
  have h2 : threadStep inPlace s1 t env = some (match finishRead e.freeJson f.content.length
      (f.content.take env.freadLen) with
      | (0, e') => (s1.setEntry index e').goto t (.loaded index stamp)
      | (_, e') => (s1.setEntry index e').wrUnlock.finish t noCopy) := by
    have hp : disk e.freeJson.path = f := hf
    simp only [threadStep, w1.pc, w1.cache, w1.disk, entryAt_set _ he, Option.map_some, hp]
    rw [streamContent_unchanged, List.take_length]
  rcases finishRead_cases e.freeJson f.content env.freadLen with hr | hr
  · rw [hr] at h2 ⊢
    have w2 := (w1.setEntry index (e.freeJson.storeJson f.content)).goto (.loaded index stamp)
    rw [List.set_set] at w2
    exact ⟨_, .tail (.single h1) h2, w2⟩
  · rw [hr] at h2 ⊢
    have w2 := (w1.setEntry index e.freeJson.freeJson).finish noCopy
    rw [List.set_set] at w2
    exact ⟨_, .tail (.single h1) h2, w2⟩

theorem load_alone {stamp : Option ℤ} (he : entryAt cache index = some e)
    (h : WriteAt t disk s cache (.opening index stamp)) :
    ∃ s', Alone inPlace t env s s' ∧
      match loadBookmarkJson (disk e.path) env e with
      | (0, e') => WriteAt t disk s' (cache.set index.toNat e') (.loaded index stamp)
      | (_, e') => Returned t disk s' (cache.set index.toNat e') noCopy := by
  have hopen := open_alone inPlace env he h
  generalize hf : disk e.path = f at hopen
  unfold loadBookmarkJson
  by_cases ho : f.canOpen ∧ env.ftellOk
  · obtain ⟨s1, a1, w1⟩ := (if_pos ho ▸ hopen :)
    simp only [ho.1, ho.2, Bool.not_true, Bool.false_eq_true, if_false]
    by_cases hm : env.loadMallocOk
    · obtain ⟨s2, a2, w2⟩ := fill_alone inPlace env he hf hm w1
      simp only [hm, Bool.not_true, Bool.false_eq_true, if_false]
      exact ⟨s2, a1.trans a2, w2⟩
    · have h2 : threadStep inPlace s1 t env =
          some ((s1.setEntry index e.freeJson).wrUnlock.finish t noCopy) := by
        simp only [threadStep, w1.pc, w1.cache, he, Option.map_some, hm]
        rfl
      simp only [hm, Bool.not_false, if_true]
      exact ⟨_, a1.tail h2, (w1.setEntry index e.freeJson).finish noCopy⟩
  · obtain ⟨s1, a1, w1⟩ := (if_neg ho ▸ hopen :)
    have hcopy : loadBookmarkJson f env e = (-1, e) := by
      unfold loadBookmarkJson
      by_cases hc : f.canOpen
      · have hft : ¬ env.ftellOk := fun hh => ho ⟨hc, hh⟩
        simp [hc, hft]
      · simp [hc]
    rw [← loadBookmarkJson, hcopy]
    refine ⟨s1, a1, ?_⟩
    change Returned t disk s1 (cache.set index.toNat e) noCopy
    rwa [set_entryAt he]

theorem stamp_alone {stamp : Option ℤ} {m : ℤ} (he : entryAt cache index = some e)
    (hm : stamp.or (disk e.path).statMtime = some m)
    (h : WriteAt t disk s cache (.loaded index stamp)) :
    ∃ s', Alone inPlace t env s s' ∧
      Returned t disk s' (cache.set index.toNat (e.stamp m)) (jsonCopy (e.stamp m) env) := by
  have h1 : threadStep inPlace s t env =
      some ((s.setEntry index (e.stamp m)).goto t (.wrCopy index)) := by
    cases stamp with
    | none =>
      rw [Option.none_or] at hm
      simp only [threadStep, h.pc, h.cache, h.disk, he, Option.map_some, hm]
    | some m' =>
      obtain rfl := Option.some.inj hm
      simp only [threadStep, h.pc, h.cache, he, Option.map_some]
  have w1 := (h.setEntry index (e.stamp m)).goto (.wrCopy index)
  generalize (s.setEntry index (e.stamp m)).goto t _ = s1 at h1 w1
  refine ⟨_, .tail (.single h1) ?_, w1.finish (jsonCopy (e.stamp m) env)⟩
  simp only [threadStep, w1.pc, w1.cache, entryAt_set _ he, Option.map_some]

theorem reload_alone {stamp : Option ℤ} (he : entryAt cache index = some e)
    (hm : ∀ m, (disk e.path).statMtime = some m → stamp.or (some m) = some m)
    (h : WriteAt t disk s cache (.opening index stamp)) :
    ∃ s', Alone inPlace t env s s' ∧
      match loadBookmarkJson (disk e.path) env e with
      | (0, e') => Returned t disk s'
          (cache.set index.toNat (e'.stamp (disk e.path).mtime))
          (jsonCopy (e'.stamp (disk e.path).mtime) env)
      | (_, e') => Returned t disk s' (cache.set index.toNat e') noCopy := by
  obtain ⟨s1, a1, w1⟩ := load_alone inPlace env he h
  rcases loadBookmarkJson_cases (disk e.path) env e with ⟨hr, hl⟩ | hl | hl
  · rw [hl] at w1 ⊢
    replace w1 : WriteAt t disk s1 (cache.set index.toNat (e.storeJson (disk e.path).content))
        (.loaded index stamp) := w1
    have hstat : stamp.or (disk e.path).statMtime = some (disk e.path).mtime := by
      rw [statMtime_readable hr]
      exact hm _ (statMtime_readable hr)
    obtain ⟨s2, a2, w2⟩ := stamp_alone inPlace env
      (entryAt_set (e.storeJson (disk e.path).content) he) hstat w1
    rw [List.set_set] at w2
    exact ⟨s2, a1.trans a2, w2⟩
  · rw [hl] at w1 ⊢
    exact ⟨s1, a1, w1⟩
  · rw [hl] at w1 ⊢
    exact ⟨s1, a1, w1⟩

theorem write_first_alone (he : entryAt cache index = some e) (hj : e.json = none)
    (h : WriteAt t disk s cache (.opening index none)) :
    ∃ s', Alone inPlace t env s s' ∧ Returned t disk s'
      (cache.set index.toNat (writePath (disk e.path) env e).2)
      (writePath (disk e.path) env e).1 := by
  obtain ⟨s1, a1, w1⟩ := reload_alone inPlace env he (fun _ _ => rfl) h
  refine ⟨s1, a1, ?_⟩
  rcases loadBookmarkJson_cases (disk e.path) env e with ⟨hr, hl⟩ | hl | hl
  · rw [hl] at w1
    simpa only [writePath, ensureLoaded, hj, hl, statMtime_readable hr] using w1
  · rw [hl] at w1
    simpa only [writePath, ensureLoaded, hj, hl] using w1
  · rw [hl] at w1
    simpa only [writePath, ensureLoaded, hj, hl] using w1

/-- Phase 2 of an entry with the mtime of its file, or of a file that `stat` does not find,
copies the text it has. -/
theorem write_kept_alone {b : Bytes} (he : entryAt cache index = some e) (hj : e.json = some b)
    (hsame : ∀ m, (disk e.path).statMtime = some m → m = e.mtime)
    (h : WriteAt t disk s cache (.wrStat index)) :
    ∃ s', Alone inPlace t env s s' ∧ Returned t disk s'
      (cache.set index.toNat (writePath (disk e.path) env e).2)
      (writePath (disk e.path) env e).1 := by
  have h1 : threadStep inPlace s t env = some (s.goto t (.wrCopy index)) := by
    simp only [threadStep, h.pc, h.cache, h.disk, he, Option.map_some]
    cases hm : (disk e.path).statMtime with
    | none => rfl
    | some m => simp [hsame m hm]
  have w1 := h.goto (.wrCopy index)
  generalize s.goto t _ = s1 at h1 w1
  have hw : writePath (disk e.path) env e = (jsonCopy e env, e) := by
    cases hm : (disk e.path).statMtime with
    | none => simp [writePath, ensureLoaded, hj, hm]
    | some m => simp [writePath, ensureLoaded, hj, hm, hsame m hm]
  rw [hw, set_entryAt he]
  refine ⟨_, .tail (.single h1) ?_, w1.finish (jsonCopy e env)⟩
  simp only [threadStep, w1.pc, w1.cache, he, Option.map_some]

theorem write_stale_alone {b : Bytes} {m : ℤ} (he : entryAt cache index = some e)
    (hj : e.json = some b) (hm : (disk e.path).statMtime = some m) (hne : m ≠ e.mtime)
    (h : WriteAt t disk s cache (.wrStat index)) :
    ∃ s', Alone inPlace t env s s' ∧ Returned t disk s'
      (cache.set index.toNat (writePath (disk e.path) env e).2)
      (writePath (disk e.path) env e).1 := by
  have h1 : threadStep inPlace s t env = some (s.goto t (.opening index (some m))) := by
    simp only [threadStep, h.pc, h.cache, h.disk, he, Option.map_some, hm, ne_eq, hne,
      not_false_eq_true, if_true]
  have w1 := h.goto (.opening index (some m))
  generalize s.goto t _ = s1 at h1 w1
  have hstamp : ∀ m', (disk e.path).statMtime = some m' → (some m).or (some m') = some m' := by
    intro m' hm'
    rw [← hm, hm', Option.some_or]
  obtain ⟨s2, a2, w2⟩ := reload_alone inPlace env he hstamp w1
  refine ⟨s2, .head h1 a2, ?_⟩
  rcases loadBookmarkJson_cases (disk e.path) env e with ⟨hr, hl⟩ | hl | hl
  · rw [hl] at w2
    obtain rfl := statMtime_some hm
    simpa [writePath, ensureLoaded, hj, hm, hne, hl] using w2
  · rw [hl] at w2
    simpa [writePath, ensureLoaded, hj, hm, hne, hl] using w2
  · rw [hl] at w2
    simpa [writePath, ensureLoaded, hj, hm, hne, hl] using w2

theorem write_alone (he : entryAt cache index = some e)
    (h : WriteAt t disk s cache (.wrLocked index)) :
    ∃ s', Alone inPlace t env s s' ∧ Returned t disk s'
      (cache.set index.toNat (writePath (disk e.path) env e).2)
      (writePath (disk e.path) env e).1 := by
  have h1 : threadStep inPlace s t env =
      some (s.goto t (if e.json.isNone then .opening index none else .wrStat index)) := by
    simp only [threadStep, h.pc, h.cache, he]
  have w1 := h.goto (if e.json.isNone then .opening index none else .wrStat index)
  generalize s.goto t _ = s1 at h1 w1
  cases hj : e.json with
  | none =>
    simp only [hj, Option.isNone_none, if_true] at w1
    obtain ⟨s2, a2, w2⟩ := write_first_alone inPlace env he hj w1
    exact ⟨s2, .head h1 a2, w2⟩
  | some b =>
    simp only [hj, Option.isNone_some, Bool.false_eq_true, if_false] at w1
    by_cases hsame : ∀ m, (disk e.path).statMtime = some m → m = e.mtime
    · obtain ⟨s2, a2, w2⟩ := write_kept_alone inPlace env he hj hsame w1
      exact ⟨s2, .head h1 a2, w2⟩
    · push Not at hsame
      obtain ⟨m, hm, hne⟩ := hsame
      obtain ⟨s2, a2, w2⟩ := write_stale_alone inPlace env he hj hm hne w1
      exact ⟨s2, .head h1 a2, w2⟩

/-- A call that no other thread interrupts returns what `getCachedBookmarkJsonCopy` computes
and leaves the cache it computes, with the lock free again. -/
theorem call_alone (hpc : s.pc t = .calling index) (hr : s.readers = 0) (hw : s.writer = false) :
    let r := getCachedBookmarkJsonCopy s.cache s.disk index env
    ∃ s', Alone inPlace t env s s' ∧ Returned t s.disk s' r.2 r.1 := by
  have h1 : threadStep inPlace s t env =
      some ({ s with readers := s.readers + 1 }.goto t (.rdLocked index)) := by
    simp only [threadStep, hpc, hw, Bool.false_eq_true, if_false]
  have w1 : ReadAt t s.disk ({ s with readers := s.readers + 1 }.goto t (.rdLocked index))
      s.cache (.rdLocked index) :=
    ⟨Function.update_self .., rfl, rfl, congrArg (· + 1) hr, hw⟩
  generalize Sys.goto { s with readers := s.readers + 1 } t (.rdLocked index) = s1 at h1 w1
  unfold getCachedBookmarkJsonCopy
  cases he : entryAt s.cache index with
  | none =>
    refine ⟨_, .head h1 (.single ?_), w1.finish noCopy⟩
    simp only [threadStep, w1.pc, w1.cache, he]
  | some e =>
    dsimp only
    have hslow : ∀ s2 p, ReadAt t s.disk s2 s.cache p → Alone inPlace t env s s2 →
        threadStep inPlace s2 t env = some (s2.rdUnlock.goto t (.upgrading index)) →
        ∃ s', Alone inPlace t env s s' ∧ Returned t s.disk s'
          (s.cache.set index.toNat (writePath (s.disk e.path) env e).2)
          (writePath (s.disk e.path) env e).1 := by
      intro s2 p w2 a2 h2
      obtain ⟨s3, a3, w3⟩ := w2.upgrade inPlace env index
      obtain ⟨s4, a4, w4⟩ := write_alone inPlace env he w3
      exact ⟨s4, (a2.tail h2).trans (a3.trans a4), w4⟩
    by_cases htext : e.json.isSome && decide (0 < e.jsonLen)
    · have h2 : threadStep inPlace s1 t env = some (s1.goto t (.rdStat index)) := by
        simp only [threadStep, w1.pc, w1.cache, he, htext, if_true]
      have w2 := w1.goto (.rdStat index)
      generalize s1.goto t _ = s2 at h2 w2
      by_cases hstat : (s.disk e.path).statMtime = some e.mtime
      · have h3 : threadStep inPlace s2 t env = some (s2.goto t (.rdCopy index)) := by
          simp only [threadStep, w2.pc, w2.cache, w2.disk, he, Option.map_some, hstat, if_true]
        have w3 := w2.goto (.rdCopy index)
        generalize s2.goto t _ = s3 at h3 w3
        rw [if_pos (by simp [fastFresh, htext, hstat])]
        refine ⟨_, .tail (.head h1 (.head h2 (.single h3))) ?_, w3.finish (jsonCopy e env)⟩
        simp only [threadStep, w3.pc, w3.cache, he, Option.map_some]
      · rw [if_neg (by simp [fastFresh, hstat])]
        refine hslow s2 _ w2 (.head h1 (.single h2)) ?_
        simp only [threadStep, w2.pc, w2.cache, w2.disk, he, Option.map_some, hstat, if_false]
    · rw [if_neg (by rw [fastFresh, Bool.and_eq_true]; exact fun hh => htext hh.1)]
      refine hslow s1 _ w1 (.single h1) ?_
      simp only [threadStep, w1.pc, w1.cache, he, htext]
      rfl

end Alone

end LocalMarks.BookmarkCache.Interleave

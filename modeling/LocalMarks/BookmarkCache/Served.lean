import LocalMarks.BookmarkCache.History

/-!
# The text that is served

What `api_handle_request` sends of a copy. In a call in which nothing fails it is the whole file.
-/

namespace LocalMarks.BookmarkCache
open LocalMarks.Lib

/-- The first `out_len` bytes of the copy. -/
def CopyResult.sent (r : CopyResult) : Option Bytes :=
  r.copy.bind fun b => r.outLen.map fun n => b.take n

/-- Nothing fails in a call that loads the file. -/
structure CallEnv.Works (env : CallEnv) (f : BookmarkFile) : Prop where
  ftell : env.ftellOk = true
  loadMalloc : env.loadMallocOk = true
  fread : f.content.length ≤ env.freadLen
  copyMalloc : env.copyMallocOk = true

section Works
variable {f : BookmarkFile} {env : CallEnv}

theorem loadBookmarkJson_works (hread : f.access = .readable) (henv : env.Works f)
    (e : BookmarkCacheEntry) : loadBookmarkJson f env e = (0, e.storeJson f.content) := by
  have hopen : f.canOpen = true := by
    rw [BookmarkFile.canOpen, hread]
    rfl
  unfold loadBookmarkJson finishRead
  rw [hopen, henv.ftell, henv.loadMalloc, List.take_of_length_le henv.fread]
  simp only [Bool.not_true, Bool.false_eq_true, if_false, ne_eq, not_true_eq_false]
  rfl

theorem jsonCopy_sent {e : BookmarkCacheEntry} {content : Bytes} (hcopy : env.copyMallocOk = true)
    (hjson : e.json = some (content ++ [0])) (hlen : e.jsonLen = content.length) :
    (jsonCopy e env).sent = some content := by
  have htake : ((content ++ [0]).take (content.length + 1)).take content.length = content := by
    rw [List.take_take, Nat.min_eq_left (Nat.le_succ _), List.take_left]
  rw [CopyResult.sent, jsonCopy, hcopy, hjson, hlen]
  exact congrArg some htake

theorem writePath_works {used : List ℤ} {last : Option Bytes} {e : BookmarkCacheEntry}
    (hread : f.access = .readable) (henv : env.Works f) (h : EntryOk f used last e) :
    (writePath f env e).1.sent = some f.content := by
  have hstored : ∀ m, (jsonCopy ((e.storeJson f.content).stamp m) env).sent = some f.content :=
    fun m => jsonCopy_sent henv.copyMalloc rfl rfl
  unfold writePath ensureLoaded
  rw [loadBookmarkJson_works hread henv, statMtime_readable hread]
  cases hjson : e.json with
  | none => exact hstored _
  | some b =>
    dsimp only
    by_cases hm : f.mtime ≠ e.mtime
    · rw [if_pos hm]
      exact hstored _
    · rw [if_neg hm]
      obtain ⟨c, hlast, rfl, hlen, -⟩ := h.text b hjson
      have hcurrent := h.current (by rw [hjson]; exact Option.some_ne_none _)
        (by rw [statMtime_readable hread, not_not.mp hm])
      obtain rfl := Option.some.inj (hlast.symm.trans hcurrent)
      exact jsonCopy_sent henv.copyMalloc hjson hlen

end Works

theorem CacheOk.sent {s : State} (h : CacheOk s) {index : ℤ} {e : BookmarkCacheEntry}
    {env : CallEnv} (he : entryAt s.cache index = some e)
    (hread : (s.disk e.path).access = .readable) (henv : env.Works (s.disk e.path)) :
    (getCachedBookmarkJsonCopy s.cache s.disk index env).1.sent =
      some (s.disk e.path).content := by
  have hwrite := writePath_works hread henv (h.entry _ e (entryAt_some he).2)
  unfold getCachedBookmarkJsonCopy
  rw [he]
  dsimp only
  split
  · rename_i hfresh
    rwa [writePath_of_fresh env hfresh] at hwrite
  · exact hwrite

end LocalMarks.BookmarkCache

import LocalMarks.BookmarkCache.Masking
import LocalMarks.Lib.ReadWriteLock
import LocalMarks.Lib.TimedReads

/-!
# Which version of a file a call returns

Files are replaced by renaming new ones over them while any number of threads call
`get_cached_bookmark_json_copy`. Every copy is a whole version of the file, and no call returns
an older one than a call of the same index that has returned before. When no file is replaced
in the middle of its first load, a call returns what the file held at a moment of the call.
-/

namespace LocalMarks.BookmarkCache.Interleave
open LocalMarks.Lib
open LocalMarks.BookmarkCache

/-- A run of calls and of replacements by renaming. -/
abbrev CacheRun := Run Start (StepOf (exec false))

namespace CacheRun

def path (run : CacheRun) (index : ℤ) : CString :=
  ((entryAt (run.state 0).cache index).map (·.path)).getD ⟨[], List.not_mem_nil⟩

/-- The text that a copy of the file has at a time, its NUL included. -/
def text (run : CacheRun) (index : ℤ) (n : ℕ) : Bytes :=
  ((run.state n).disk (run.path index)).content ++ [0]

/-- The calls of an index that returned a copy. -/
def Copies (run : CacheRun) (index : ℤ) (r : TimedRead Bytes) : Prop :=
  ∃ t, run.label r.began = .call t index ∧ r.began < r.ended ∧ r.ended < run.length ∧
    (∀ k, r.began < k → k ≤ r.ended → (run.state k).pc t ≠ .idle) ∧
    (run.state (r.ended + 1)).pc t = .idle ∧
    ((run.state (r.ended + 1)).result t).copy = some r.value

/-- No file is replaced in the middle of its first load. -/
def Quiet (run : CacheRun) : Prop := ∀ n < run.length, NoTornLoad (run.state n) (run.label n)

end CacheRun

/-! ### When a text was read -/

/-- The call a thread is in, the time of its `fopen`, and a time at which the file of an entry
held the text of the entry. -/
structure Ghost where
  called : ℕ → ℕ × ℤ
  opened : ℕ → ℕ
  read : ℤ → ℕ

def current (s : Sys) (index : ℤ) : Bool :=
  (entryAt s.cache index).any fun e => e.json = some ((s.disk e.path).content ++ [0])

def Ghost.step (s : Sys) (n : ℕ) (g : Ghost) : Act → Ghost
  | .call t index => { g with called := Function.update g.called t (n, index) }
  | .replace .. => g
  | .step t _ =>
    match s.pc t with
    | .opening .. => { g with opened := Function.update g.opened t n }
    | .filling index .. => { g with read := Function.update g.read index (g.opened t) }
    | .rdStat index | .wrStat index =>
      if current s index then { g with read := Function.update g.read index n } else g
    | _ => g

def CacheRun.ghost (run : CacheRun) : ℕ → Ghost
  | 0 => ⟨fun _ => (0, 0), fun _ => 0, fun _ => 0⟩
  | n + 1 => (ghost run n).step (run.state n) n (run.label n)

def Pc.reads : Pc → Bool
  | .rdLocked _ | .rdStat _ | .rdCopy _ => true
  | _ => false

def Pc.index : Pc → Option ℤ
  | .idle => none
  | .calling index | .rdLocked index | .rdStat index | .rdCopy index | .upgrading index
  | .wrLocked index | .wrStat index | .opening index _ | .opened index .. | .sized index ..
  | .filling index .. | .loaded index _ | .wrCopy index => some index

section Kept
variable {path : ℤ → CString} {content : ℤ → ℕ → Bytes} {quiet : Prop} {n : ℕ} {s s' : Sys}
  {g g' : Ghost}

/-- An entry holds nothing, or the content that its file had at `k`. -/
def HoldsAt (s : Sys) (content : ℕ → Bytes) (k : ℕ) (e : BookmarkCacheEntry) : Prop :=
  e.json = none ∨ e.json = some (content k ++ [0]) ∧ e.jsonLen = (content k).length ∧
    (s.disk e.path).access = .readable

structure LoadAt (path : ℤ → CString) (content : ℤ → ℕ → Bytes) (s : Sys) (g : Ghost) (t : ℕ)
    (index : ℤ) (stream : Bytes) : Prop where
  stream : stream = content index (g.opened t)
  readable : (s.disk (path index)).access = .readable
  forward : g.read index ≤ g.opened t
  since : (g.called t).1 ≤ g.opened t

/-- What is known of a thread at its program point. -/
def Place (path : ℤ → CString) (content : ℤ → ℕ → Bytes) (quiet : Prop) (s : Sys) (g : Ghost)
    (t : ℕ) : Pc → Prop
  | .rdStat index | .wrStat index => ∃ e, entryAt s.cache index = some e ∧ e.json.isSome
  | .opened index _ stream => LoadAt path content s g t index stream
  | .sized index _ stream size | .filling index _ stream size =>
    LoadAt path content s g t index stream ∧ size = stream.length
  | .rdCopy index | .loaded index _ | .wrCopy index => quiet → (g.called t).1 ≤ g.read index
  | _ => True

/-- The invariant: every text is that of a time, and a thread that is about to copy one has
called before that time. -/
structure Kept (path : ℤ → CString) (content : ℤ → ℕ → Bytes) (quiet : Prop) (n : ℕ) (s : Sys)
    (g : Ghost) : Prop where
  lock : RwOwned s.readers s.writer (fun t => (s.pc t).reads) fun t => (s.pc t).writes
  called : ∀ t index, (s.pc t).index = some index → (g.called t).2 = index ∧ (g.called t).1 ≤ n
  past : (∀ index, g.read index ≤ n) ∧ ∀ t, g.opened t ≤ n
  paths : ∀ index e, entryAt s.cache index = some e → e.path = path index
  text : ∀ index e, entryAt s.cache index = some e → HoldsAt s (content index) (g.read index) e
  place : ∀ t, Place path content quiet s g t (s.pc t)

theorem place_unlocked {t : ℕ} {p : Pc} (hr : p.reads = false) (hw : p.writes = false) :
    Place path content quiet s g t p := by
  cases p <;> trivial

theorem Place.other {t : ℕ} {p : Pc} (h : Place path content quiet s g t p)
    (hcache : s'.cache = s.cache) (hdisk : s'.disk = s.disk) (hcalled : g'.called t = g.called t)
    (hopened : g'.opened t = g.opened t) (hread : ∀ index, g.read index ≤ g'.read index)
    (hload : p.writes = true → g'.read = g.read) : Place path content quiet s' g' t p := by
  have hloadAt : ∀ {index stream}, p.writes = true → LoadAt path content s g t index stream →
      LoadAt path content s' g' t index stream := by
    intro index stream hw hl
    exact ⟨hopened ▸ hl.stream, hdisk ▸ hl.readable, by rw [hload hw, hopened]; exact hl.forward,
      by rw [hcalled, hopened]; exact hl.since⟩
  cases p with
  | rdStat index | wrStat index =>
    obtain ⟨e, he, hj⟩ := h
    exact ⟨e, hcache ▸ he, hj⟩
  | opened => exact hloadAt rfl h
  | sized | filling => exact ⟨hloadAt rfl h.1, h.2⟩
  | rdCopy index | loaded index | wrCopy index =>
    intro hq
    rw [hcalled]
    exact (h hq).trans (hread index)
  | _ => trivial

/-- A step of the thread `t`. The others keep what they know, either because nothing they know
of is changed or because they do not have the lock. -/
theorem Kept.moved (h : Kept path content quiet n s g) {t : ℕ} {p : Pc}
    (hpc : s'.pc = Function.update s.pc t p) (hdisk : s'.disk = s.disk)
    (hlock : RwOwned s'.readers s'.writer (Function.update (fun t => (s.pc t).reads) t p.reads)
      (Function.update (fun t => (s.pc t).writes) t p.writes))
    (hindex : p.index = none ∨ p.index = (s.pc t).index)
    (hcalled : g'.called = g.called) (hopened : ∀ u, u ≠ t → g'.opened u = g.opened u)
    (hopened' : g'.opened t ≤ n + 1) (hpast : ∀ index, g'.read index ≤ n + 1)
    (hforward : ∀ index, g.read index ≤ g'.read index)
    (hpaths : ∀ index e, entryAt s'.cache index = some e → e.path = path index)
    (htext : ∀ index e, entryAt s'.cache index = some e →
      HoldsAt s' (content index) (g'.read index) e)
    (hself : Place path content quiet s' g' t p)
    (hothers : s'.cache = s.cache ∧ (g'.read = g.read ∨ (s.pc t).reads = true) ∨
      (s.pc t).writes = true) : Kept path content quiet (n + 1) s' g' := by
  have hpcs : ∀ {β : Type} (f : Pc → β),
      (fun u => f (s'.pc u)) = Function.update (fun u => f (s.pc u)) t (f p) := by
    intro β f
    funext u
    rw [hpc]
    by_cases hu : u = t
    · rw [hu, Function.update_self, Function.update_self]
    · rw [Function.update_of_ne hu, Function.update_of_ne hu]
  refine ⟨?_, fun u index hu => ?_, ⟨hpast, fun u => ?_⟩, hpaths, htext, fun u => ?_⟩
  · rw [hpcs Pc.reads, hpcs Pc.writes]
    exact hlock
  · rw [hcalled]
    have hold : (s.pc u).index = some index := by
      by_cases hut : u = t
      · rw [hpc, hut, Function.update_self] at hu
        rcases hindex with hnone | hsame
        · rw [hnone] at hu
          cases hu
        · rw [hut, ← hsame, hu]
      · rw [hpc, Function.update_of_ne hut] at hu
        exact hu
    exact ⟨(h.called u index hold).1, Nat.le_succ_of_le (h.called u index hold).2⟩
  · by_cases hut : u = t
    · rw [hut]
      exact hopened'
    · rw [hopened u hut]
      exact Nat.le_succ_of_le (h.past.2 u)
  · by_cases hut : u = t
    · rw [hut, hpc, Function.update_self]
      exact hself
    · rw [hpc, Function.update_of_ne hut]
      rcases hothers with ⟨hcache, hread⟩ | hwrites
      · refine (h.place u).other hcache hdisk (congrFun hcalled u) (hopened u hut) hforward ?_
        intro hw
        rcases hread with hread | hreads
        · exact hread
        · exact absurd ((h.lock.not_writes hreads u).symm.trans hw) Bool.false_ne_true
      · have halone := h.lock.alone hwrites hut
        exact place_unlocked halone.1 halone.2

theorem HoldsAt.disk {content : ℕ → Bytes} {k : ℕ} {e : BookmarkCacheEntry}
    (h : HoldsAt s content k e) (hdisk : s'.disk = s.disk) : HoldsAt s' content k e := by
  unfold HoldsAt
  rw [hdisk]
  exact h

theorem LoadAt.disk {t : ℕ} {index : ℤ} {stream : Bytes}
    (h : LoadAt path content s g t index stream) (hdisk : s'.disk = s.disk) :
    LoadAt path content s' g t index stream :=
  ⟨h.stream, hdisk ▸ h.readable, h.forward, h.since⟩

theorem Kept.goto (h : Kept path content quiet n s g) {t : ℕ} {p : Pc}
    (hpc : s'.pc = Function.update s.pc t p) (hdisk : s'.disk = s.disk)
    (hcache : s'.cache = s.cache)
    (hlock : RwOwned s'.readers s'.writer (Function.update (fun t => (s.pc t).reads) t p.reads)
      (Function.update (fun t => (s.pc t).writes) t p.writes))
    (hindex : p.index = none ∨ p.index = (s.pc t).index)
    (hself : Place path content quiet s' g t p) : Kept path content quiet (n + 1) s' g := by
  refine h.moved hpc hdisk hlock hindex rfl (fun _ _ => rfl) (Nat.le_succ_of_le (h.past.2 t))
    (fun index => Nat.le_succ_of_le (h.past.1 index)) (fun _ => le_rfl) ?_ ?_ hself
    (Or.inl ⟨hcache, Or.inl rfl⟩)
  · rw [hcache]
    exact h.paths
  · rw [hcache]
    exact fun index e he => (h.text index e he).disk hdisk

theorem Kept.rewrote (h : Kept path content quiet n s g) (s' : Sys) {t : ℕ} {p : Pc}
    {index : ℤ} {e : BookmarkCacheEntry} (e' : BookmarkCacheEntry)
    (hwrites : (s.pc t).writes = true) (he : entryAt s.cache index = some e)
    (hcache : s'.cache = s.cache.set index.toNat e') (hpath : e'.path = e.path)
    (hpc : s'.pc = Function.update s.pc t p) (hdisk : s'.disk = s.disk)
    (hlock : RwOwned s'.readers s'.writer (Function.update (fun t => (s.pc t).reads) t p.reads)
      (Function.update (fun t => (s.pc t).writes) t p.writes))
    (hindex : p.index = none ∨ p.index = (s.pc t).index)
    {k : ℕ} (hforward : g.read index ≤ k) (hk : k ≤ n)
    (htext : HoldsAt s (content index) k e')
    (hself : Place path content quiet s' { g with read := Function.update g.read index k } t p) :
    Kept path content quiet (n + 1) s' { g with read := Function.update g.read index k } := by
  have hread : ∀ i, i ≠ index → Function.update g.read index k i = g.read i :=
    fun i hi => Function.update_of_ne hi _ _
  refine h.moved hpc hdisk hlock hindex rfl (fun _ _ => rfl) (Nat.le_succ_of_le (h.past.2 t))
    (fun i => ?_) (fun i => ?_) (fun i x hx => ?_) (fun i x hx => ?_) hself (Or.inr hwrites)
  · show Function.update g.read index k i ≤ n + 1
    by_cases hi : i = index
    · rw [hi, Function.update_self]
      exact Nat.le_succ_of_le hk
    · rw [hread i hi]
      exact Nat.le_succ_of_le (h.past.1 i)
  · show g.read i ≤ Function.update g.read index k i
    by_cases hi : i = index
    · rw [hi, Function.update_self]
      exact hforward
    · rw [hread i hi]
  · rw [hcache] at hx
    by_cases hi : i = index
    · subst hi
      rw [entryAt_set e' he, Option.some.injEq] at hx
      rw [← hx, hpath]
      exact h.paths i e he
    · rw [entryAt_set_ne e' hi he] at hx
      exact h.paths i x hx
  · show HoldsAt s' (content i) (Function.update g.read index k i) x
    rw [hcache] at hx
    by_cases hi : i = index
    · subst hi
      rw [entryAt_set e' he, Option.some.injEq] at hx
      rw [← hx, Function.update_self]
      exact htext.disk hdisk
    · rw [entryAt_set_ne e' hi he] at hx
      rw [hread i hi]
      exact (h.text i x hx).disk hdisk

theorem Kept.checked (h : Kept path content quiet n s g) {t : ℕ} {p : Pc} {index : ℤ}
    (hnow : ∀ index, content index n = (s.disk (path index)).content)
    (hlocked : (s.pc t).reads = true ∨ (s.pc t).writes = true)
    (hpc : s'.pc = Function.update s.pc t p) (hdisk : s'.disk = s.disk)
    (hcache : s'.cache = s.cache)
    (hlock : RwOwned s'.readers s'.writer (Function.update (fun t => (s.pc t).reads) t p.reads)
      (Function.update (fun t => (s.pc t).writes) t p.writes))
    (hindex : p.index = none ∨ p.index = (s.pc t).index)
    (hself : ∀ g' : Ghost, g'.called = g.called → (current s index = true → g'.read index = n) →
      Place path content quiet s' g' t p) :
    Kept path content quiet (n + 1) s'
      (if current s index then { g with read := Function.update g.read index n } else g) := by
  by_cases hcurrent : current s index = true
  · rw [if_pos hcurrent]
    have hread : ∀ i, i ≠ index → Function.update g.read index n i = g.read i :=
      fun i hi => Function.update_of_ne hi _ _
    refine h.moved hpc hdisk hlock hindex rfl (fun _ _ => rfl)
      (Nat.le_succ_of_le (h.past.2 t)) (fun i => ?_) (fun i => ?_) (by rw [hcache]; exact h.paths)
      (fun i x hx => ?_) (hself _ rfl fun _ => Function.update_self ..)
      (hlocked.imp (fun hr => ⟨hcache, Or.inr hr⟩) id)
    · show Function.update g.read index n i ≤ n + 1
      by_cases hi : i = index
      · rw [hi, Function.update_self]
        exact Nat.le_succ n
      · rw [hread i hi]
        exact Nat.le_succ_of_le (h.past.1 i)
    · show g.read i ≤ Function.update g.read index n i
      by_cases hi : i = index
      · rw [hi, Function.update_self]
        exact h.past.1 index
      · rw [hread i hi]
    · show HoldsAt s' (content i) (Function.update g.read index n i) x
      rw [hcache] at hx
      by_cases hi : i = index
      · subst hi
        rw [Function.update_self]
        have hjson : x.json = some (content i n ++ [0]) := by
          unfold current at hcurrent
          rw [hx, Option.any_some, decide_eq_true_eq, h.paths i x hx] at hcurrent
          rw [hcurrent, hnow]
        rcases h.text i x hx with hnone | ⟨hold, hlen, hread⟩
        · rw [hnone] at hjson
          cases hjson
        · have hsame : content i (g.read i) = content i n :=
            List.append_cancel_right (Option.some.inj (hold.symm.trans hjson))
          exact Or.inr ⟨hjson, by rw [hlen, hsame], by rw [hdisk]; exact hread⟩
      · rw [hread i hi]
        exact (h.text i x hx).disk hdisk
  · rw [if_neg hcurrent]
    exact h.goto hpc hdisk hcache hlock hindex (hself g rfl fun hc => absurd hc hcurrent)

/-! ### The steps of a call -/

theorem Ghost.step_plain {t : ℕ} {env : CallEnv} {p : Pc} (hpc : s.pc t = p)
    (hopen : ∀ index stamp, p ≠ .opening index stamp)
    (hfill : ∀ index stamp stream size, p ≠ .filling index stamp stream size)
    (hrd : ∀ index, p ≠ .rdStat index) (hwr : ∀ index, p ≠ .wrStat index) :
    g.step s n (.step t env) = g := by
  simp only [Ghost.step, hpc]

theorem Kept.reading (h : Kept path content quiet n s g) {t : ℕ} {env : CallEnv} {index : ℤ}
    (hpc : s.pc t = .calling index ∨ s.pc t = .rdLocked index ∨ s.pc t = .rdCopy index)
    (hst : threadStep false s t env = some s') : Kept path content quiet (n + 1) s' g := by
  rcases hpc with hpc | hpc | hpc
  · simp only [threadStep, hpc] at hst
    split at hst
    · cases hst
    · rename_i hfree
      cases hst
      rw [Bool.not_eq_true] at hfree
      have hlock := h.lock
      rw [hfree] at hlock
      refine h.goto rfl rfl rfl ?_ (Or.inr (by rw [hpc]; rfl)) trivial
      show RwOwned (s.readers + 1) s.writer _ _
      rw [hfree]
      exact hlock.acquireRead (by rw [hpc]; rfl)
  · have hreads : (s.pc t).reads = true := by rw [hpc]; rfl
    simp only [threadStep, hpc] at hst
    split at hst
    · cases hst
      exact h.goto rfl rfl rfl (h.lock.releaseRead hreads) (Or.inl rfl) trivial
    · rename_i e he
      split at hst
      · rename_i htext
        cases hst
        rw [Bool.and_eq_true] at htext
        exact h.goto rfl rfl rfl (h.lock.keep (by rw [hpc]; rfl) (by rw [hpc]; rfl))
          (Or.inr (by rw [hpc]; rfl)) ⟨e, he, htext.1⟩
      · cases hst
        exact h.goto rfl rfl rfl (h.lock.releaseRead hreads) (Or.inr (by rw [hpc]; rfl)) trivial
  · have hreads : (s.pc t).reads = true := by rw [hpc]; rfl
    simp only [threadStep, hpc] at hst
    obtain ⟨e, he, rfl⟩ := Option.map_eq_some_iff.mp hst
    exact h.goto rfl rfl rfl (h.lock.releaseRead hreads) (Or.inl rfl) trivial

theorem current_of_mtime (hinv : Inv s) {index : ℤ} {e : BookmarkCacheEntry} {m : ℤ}
    (he : entryAt s.cache index = some e) (hj : e.json.isSome)
    (hload : ∀ t stamp, s.pc t ≠ .loaded index stamp)
    (hm : (s.disk e.path).statMtime = some m) (hsame : m = e.mtime) :
    current s index = true := by
  obtain ⟨b, hb⟩ := Option.isSome_iff_exists.mp hj
  have htext := (hinv.fresh index e he hload b hb).2 (by rw [← hsame]; exact statMtime_some hm)
  rw [current, he, Option.any_some, decide_eq_true_eq, hb, htext]

theorem Kept.rdStat (h : Kept path content quiet n s g)
    (hnow : ∀ index, content index n = (s.disk (path index)).content) (hquiet : quiet → Inv s)
    {t : ℕ} {env : CallEnv} {index : ℤ} (hpc : s.pc t = .rdStat index)
    (hst : threadStep false s t env = some s') :
    Kept path content quiet (n + 1) s' (g.step s n (.step t env)) := by
  have hreads : (s.pc t).reads = true := by rw [hpc]; rfl
  have hplace := h.place t
  have hcalled := (h.called t index (by rw [hpc]; rfl)).2
  rw [hpc] at hplace
  obtain ⟨e', he', hj⟩ := hplace
  simp only [threadStep, hpc] at hst
  obtain ⟨e, he, rfl⟩ := Option.map_eq_some_iff.mp hst
  obtain rfl := Option.some.inj (he.symm.trans he')
  simp only [Ghost.step, hpc]
  split
  · rename_i hstat
    refine h.checked hnow (Or.inl hreads) rfl rfl rfl
      (h.lock.keep (by rw [hpc]; rfl) (by rw [hpc]; rfl)) (Or.inr (by rw [hpc]; rfl)) ?_
    intro g' hg' hread hq
    have hnoload : ∀ u stamp, s.pc u ≠ .loaded index stamp := by
      intro u stamp hu
      have hfree := h.lock.not_writes hreads u
      rw [hu] at hfree
      cases hfree
    rw [hg', hread (current_of_mtime (hquiet hq) he hj hnoload hstat rfl)]
    exact hcalled
  · exact h.checked hnow (Or.inl hreads) rfl rfl rfl (h.lock.releaseRead hreads)
      (Or.inr (by rw [hpc]; rfl)) fun _ _ _ => trivial

theorem Kept.upgrading (h : Kept path content quiet n s g) {t : ℕ} {env : CallEnv} {index : ℤ}
    (hpc : s.pc t = .upgrading index ∨ s.pc t = .wrLocked index)
    (hst : threadStep false s t env = some s') : Kept path content quiet (n + 1) s' g := by
  rcases hpc with hpc | hpc
  · simp only [threadStep, hpc] at hst
    split at hst
    · cases hst
    · rename_i hfree
      cases hst
      rw [Bool.or_eq_true, decide_eq_true_eq, not_or, Bool.not_eq_true, Nat.not_lt_eq,
        Nat.le_zero] at hfree
      have hlock := h.lock
      rw [hfree.1, hfree.2] at hlock
      refine h.goto rfl rfl rfl ?_ (Or.inr (by rw [hpc]; rfl)) trivial
      show RwOwned s.readers true _ _
      rw [hfree.2]
      exact hlock.acquireWrite
  · have hwrites : (s.pc t).writes = true := by rw [hpc]; rfl
    simp only [threadStep, hpc] at hst
    split at hst
    · cases hst
      exact h.goto rfl rfl rfl (h.lock.releaseWrite hwrites) (Or.inl rfl) trivial
    · rename_i e he
      cases hst
      cases hj : e.json with
      | none =>
        exact h.goto rfl rfl rfl (h.lock.keep (by rw [hpc]; rfl) (by rw [hpc]; rfl))
          (Or.inr (by rw [hpc]; rfl)) trivial
      | some b =>
        exact h.goto rfl rfl rfl (h.lock.keep (by rw [hpc]; rfl) (by rw [hpc]; rfl))
          (Or.inr (by rw [hpc]; rfl)) ⟨e, he, by rw [hj]; rfl⟩

theorem Kept.wrStat (h : Kept path content quiet n s g)
    (hnow : ∀ index, content index n = (s.disk (path index)).content) (hquiet : quiet → Inv s)
    {t : ℕ} {env : CallEnv} {index : ℤ} (hpc : s.pc t = .wrStat index)
    (hst : threadStep false s t env = some s') :
    Kept path content quiet (n + 1) s' (g.step s n (.step t env)) := by
  have hwrites : (s.pc t).writes = true := by rw [hpc]; rfl
  have hplace := h.place t
  have hcalled := (h.called t index (by rw [hpc]; rfl)).2
  rw [hpc] at hplace
  obtain ⟨e', he', hj⟩ := hplace
  simp only [threadStep, hpc] at hst
  obtain ⟨e, he, rfl⟩ := Option.map_eq_some_iff.mp hst
  obtain rfl := Option.some.inj (he.symm.trans he')
  have hfound : (s.disk e.path).statMtime = some (s.disk e.path).mtime := by
    rcases h.text index e he with hnone | ⟨-, -, hread⟩
    · rw [hnone] at hj
      cases hj
    · exact statMtime_readable hread
  simp only [Ghost.step, hpc, hfound]
  split
  · exact h.checked hnow (Or.inr hwrites) rfl rfl rfl
      (h.lock.keep (by rw [hpc]; rfl) (by rw [hpc]; rfl)) (Or.inr (by rw [hpc]; rfl))
      fun _ _ _ => trivial
  · rename_i hsame
    refine h.checked hnow (Or.inr hwrites) rfl rfl rfl
      (h.lock.keep (by rw [hpc]; rfl) (by rw [hpc]; rfl)) (Or.inr (by rw [hpc]; rfl)) ?_
    intro g' hg' hread hq
    have hnoload : ∀ u stamp, s.pc u ≠ .loaded index stamp := by
      intro u stamp hu
      obtain rfl := h.lock.sole u t (by rw [hu]; rfl) hwrites
      rw [hpc] at hu
      cases hu
    rw [hg', hread (current_of_mtime (hquiet hq) he hj hnoload hfound (not_not.mp hsame))]
    exact hcalled

theorem Kept.opening (h : Kept path content quiet n s g)
    (hnow : ∀ index, content index n = (s.disk (path index)).content)
    {t : ℕ} {env : CallEnv} {index : ℤ} {stamp : Option ℤ} (hpc : s.pc t = .opening index stamp)
    (hst : threadStep false s t env = some s') :
    Kept path content quiet (n + 1) s' (g.step s n (.step t env)) := by
  have hwrites : (s.pc t).writes = true := by rw [hpc]; rfl
  simp only [threadStep, hpc] at hst
  obtain ⟨e, he, rfl⟩ := Option.map_eq_some_iff.mp hst
  have hpath := h.paths index e he
  simp only [Ghost.step, hpc]
  have hmoved : ∀ {p : Pc} {s' : Sys}, s'.pc = Function.update s.pc t p → s'.disk = s.disk →
      s'.cache = s.cache → RwOwned s'.readers s'.writer
        (Function.update (fun t => (s.pc t).reads) t p.reads)
        (Function.update (fun t => (s.pc t).writes) t p.writes) →
      (p.index = none ∨ p.index = (s.pc t).index) →
      Place path content quiet s' { g with opened := Function.update g.opened t n } t p →
      Kept path content quiet (n + 1) s' { g with opened := Function.update g.opened t n } := by
    intro p s' hpc' hdisk hcache hlock hindex hself
    refine h.moved hpc' hdisk hlock hindex rfl (fun u hu => Function.update_of_ne hu _ _) ?_
      (fun i => Nat.le_succ_of_le (h.past.1 i)) (fun _ => le_rfl) (by rw [hcache]; exact h.paths)
      (by rw [hcache]; exact fun i x hx => (h.text i x hx).disk hdisk) hself
      (Or.inl ⟨hcache, Or.inl rfl⟩)
    show Function.update g.opened t n t ≤ n + 1
    rw [Function.update_self]
    exact Nat.le_succ n
  split
  · rename_i hopen
    refine hmoved rfl rfl rfl (h.lock.keep (by rw [hpc]; rfl) (by rw [hpc]; rfl))
      (Or.inr (by rw [hpc]; rfl)) ⟨?_, ?_, ?_, ?_⟩
    · show (s.disk e.path).content = content index (Function.update g.opened t n t)
      rw [Function.update_self, hnow, hpath]
    · show (s.disk (path index)).access = .readable
      rw [← hpath]
      simpa [BookmarkFile.canOpen] using hopen
    · show g.read index ≤ Function.update g.opened t n t
      rw [Function.update_self]
      exact h.past.1 index
    · show (g.called t).1 ≤ Function.update g.opened t n t
      rw [Function.update_self]
      exact (h.called t index (by rw [hpc]; rfl)).2
  · exact hmoved rfl rfl rfl (h.lock.releaseWrite hwrites) (Or.inl rfl) trivial

theorem Kept.opened (h : Kept path content quiet n s g) {t : ℕ} {env : CallEnv} {index : ℤ}
    {stamp : Option ℤ} {stream : Bytes} (hpc : s.pc t = .opened index stamp stream)
    (hst : threadStep false s t env = some s') : Kept path content quiet (n + 1) s' g := by
  have hwrites : (s.pc t).writes = true := by rw [hpc]; rfl
  have hload := h.place t
  rw [hpc] at hload
  replace hload : LoadAt path content s g t index stream := hload
  simp only [threadStep, hpc] at hst
  obtain ⟨e, he, rfl⟩ := Option.map_eq_some_iff.mp hst
  split
  · exact h.goto rfl rfl rfl (h.lock.keep (by rw [hpc]; rfl) (by rw [hpc]; rfl))
      (Or.inr (by rw [hpc]; rfl)) ⟨hload.disk rfl, rfl⟩
  · exact h.goto rfl rfl rfl (h.lock.releaseWrite hwrites) (Or.inl rfl) trivial

theorem Kept.stored (h : Kept path content quiet n s g) {t : ℕ} {p : Pc} {index : ℤ}
    {e : BookmarkCacheEntry} (e' : BookmarkCacheEntry) (hwrites : (s.pc t).writes = true)
    (he : entryAt s.cache index = some e) (hcache : s'.cache = s.cache.set index.toNat e')
    (hpath : e'.path = e.path) (hpc : s'.pc = Function.update s.pc t p)
    (hdisk : s'.disk = s.disk)
    (hlock : RwOwned s'.readers s'.writer (Function.update (fun t => (s.pc t).reads) t p.reads)
      (Function.update (fun t => (s.pc t).writes) t p.writes))
    (hindex : p.index = none ∨ p.index = (s.pc t).index)
    (htext : HoldsAt s (content index) (g.read index) e')
    (hself : Place path content quiet s' g t p) : Kept path content quiet (n + 1) s' g := by
  have hsame : ({ g with read := Function.update g.read index (g.read index) } : Ghost) = g := by
    rw [Function.update_eq_self]
  have hkept := h.rewrote _ _ hwrites he hcache hpath hpc hdisk hlock hindex le_rfl
    (h.past.1 index) htext (by rw [hsame]; exact hself)
  rwa [hsame] at hkept

theorem Kept.sized (h : Kept path content quiet n s g) {t : ℕ} {env : CallEnv} {index : ℤ}
    {stamp : Option ℤ} {stream : Bytes} {size : ℕ}
    (hpc : s.pc t = .sized index stamp stream size) (hst : threadStep false s t env = some s') :
    Kept path content quiet (n + 1) s' g := by
  have hwrites : (s.pc t).writes = true := by rw [hpc]; rfl
  have hload := h.place t
  rw [hpc] at hload
  replace hload : LoadAt path content s g t index stream ∧ size = stream.length := hload
  simp only [threadStep, hpc] at hst
  obtain ⟨e, he, rfl⟩ := Option.map_eq_some_iff.mp hst
  split
  · exact h.stored e.freeJson hwrites he rfl rfl rfl rfl
      (h.lock.keep (by rw [hpc]; rfl) (by rw [hpc]; rfl)) (Or.inr (by rw [hpc]; rfl)) (Or.inl rfl)
      ⟨hload.1.disk rfl, hload.2⟩
  · exact h.stored e.freeJson hwrites he rfl rfl rfl rfl (h.lock.releaseWrite hwrites)
      (Or.inl rfl) (Or.inl rfl) trivial

theorem Kept.filling (h : Kept path content quiet n s g) {t : ℕ} {env : CallEnv} {index : ℤ}
    {stamp : Option ℤ} {stream : Bytes} {size : ℕ}
    (hpc : s.pc t = .filling index stamp stream size)
    (hst : threadStep false s t env = some s') :
    Kept path content quiet (n + 1) s' (g.step s n (.step t env)) := by
  have hwrites : (s.pc t).writes = true := by rw [hpc]; rfl
  have hload := h.place t
  rw [hpc] at hload
  replace hload : LoadAt path content s g t index stream ∧ size = stream.length := hload
  obtain ⟨hload, rfl⟩ := hload
  simp only [threadStep, hpc] at hst
  obtain ⟨e, he, hs'⟩ := Option.map_eq_some_iff.mp hst
  rw [show streamContent false (s.disk e.path) stream = stream from rfl, List.take_length] at hs'
  simp only [Ghost.step, hpc]
  rcases finishRead_cases e stream env.freadLen with hfin | hfin
  · rw [hfin] at hs'
    replace hs' : (s.setEntry index (e.storeJson stream)).goto t (.loaded index stamp) = s' := hs'
    subst hs'
    refine h.rewrote ((s.setEntry index (e.storeJson stream)).goto t (.loaded index stamp))
      (e.storeJson stream) hwrites he rfl rfl rfl rfl
      (h.lock.keep (by rw [hpc]; rfl) (by rw [hpc]; rfl)) (Or.inr (by rw [hpc]; rfl)) hload.forward
      (h.past.2 t) (Or.inr ⟨?_, ?_, ?_⟩) ?_
    · rw [← hload.stream]
      rfl
    · rw [← hload.stream]
      rfl
    · show (s.disk e.path).access = .readable
      rw [h.paths index e he]
      exact hload.readable
    · intro _
      show (g.called t).1 ≤ Function.update g.read index (g.opened t) index
      rw [Function.update_self]
      exact hload.since
  · rw [hfin] at hs'
    replace hs' : (s.setEntry index e.freeJson).wrUnlock.finish t noCopy = s' := hs'
    subst hs'
    exact h.rewrote ((s.setEntry index e.freeJson).wrUnlock.finish t noCopy) e.freeJson hwrites
      he rfl rfl rfl rfl (h.lock.releaseWrite hwrites) (Or.inl rfl) hload.forward (h.past.2 t)
      (Or.inl rfl) trivial

theorem Kept.loaded (h : Kept path content quiet n s g) {t : ℕ} {env : CallEnv} {index : ℤ}
    {stamp : Option ℤ} (hpc : s.pc t = .loaded index stamp)
    (hst : threadStep false s t env = some s') : Kept path content quiet (n + 1) s' g := by
  have hwrites : (s.pc t).writes = true := by rw [hpc]; rfl
  have hsince := h.place t
  rw [hpc] at hsince
  have hlock := h.lock.keep (t := t) (r := false) (w := true) (by rw [hpc]; rfl) (by rw [hpc]; rfl)
  have hstamped : ∀ {e : BookmarkCacheEntry} (m : ℤ), entryAt s.cache index = some e →
      Kept path content quiet (n + 1) ((s.setEntry index (e.stamp m)).goto t (.wrCopy index)) g :=
    fun {e} m he => h.stored (e.stamp m) hwrites he rfl rfl rfl rfl hlock
      (Or.inr (by rw [hpc]; rfl)) (h.text index e he) hsince
  cases stamp with
  | some m =>
    simp only [threadStep, hpc] at hst
    obtain ⟨e, he, rfl⟩ := Option.map_eq_some_iff.mp hst
    exact hstamped m he
  | none =>
    simp only [threadStep, hpc] at hst
    obtain ⟨e, he, rfl⟩ := Option.map_eq_some_iff.mp hst
    split
    · rename_i m hm
      exact hstamped m he
    · exact h.goto rfl rfl rfl hlock (Or.inr (by rw [hpc]; rfl)) hsince

theorem Kept.thread (h : Kept path content quiet n s g)
    (hnow : ∀ index, content index n = (s.disk (path index)).content) (hquiet : quiet → Inv s)
    {t : ℕ} {env : CallEnv} (hst : threadStep false s t env = some s') :
    Kept path content quiet (n + 1) s' (g.step s n (.step t env)) := by
  cases hpc : s.pc t with
  | idle =>
    simp only [threadStep, hpc] at hst
    cases hst
  | calling index =>
    rw [Ghost.step_plain hpc (by simp) (by simp) (by simp) (by simp)]
    exact h.reading (Or.inl hpc) hst
  | rdLocked index =>
    rw [Ghost.step_plain hpc (by simp) (by simp) (by simp) (by simp)]
    exact h.reading (Or.inr (Or.inl hpc)) hst
  | rdStat index => exact h.rdStat hnow hquiet hpc hst
  | rdCopy index =>
    rw [Ghost.step_plain hpc (by simp) (by simp) (by simp) (by simp)]
    exact h.reading (Or.inr (Or.inr hpc)) hst
  | upgrading index =>
    rw [Ghost.step_plain hpc (by simp) (by simp) (by simp) (by simp)]
    exact h.upgrading (Or.inl hpc) hst
  | wrLocked index =>
    rw [Ghost.step_plain hpc (by simp) (by simp) (by simp) (by simp)]
    exact h.upgrading (Or.inr hpc) hst
  | wrStat index => exact h.wrStat hnow hquiet hpc hst
  | opening index stamp => exact h.opening hnow hpc hst
  | opened index stamp stream =>
    rw [Ghost.step_plain hpc (by simp) (by simp) (by simp) (by simp)]
    exact h.opened hpc hst
  | sized index stamp stream size =>
    rw [Ghost.step_plain hpc (by simp) (by simp) (by simp) (by simp)]
    exact h.sized hpc hst
  | filling index stamp stream size => exact h.filling hpc hst
  | loaded index stamp =>
    rw [Ghost.step_plain hpc (by simp) (by simp) (by simp) (by simp)]
    exact h.loaded hpc hst
  | wrCopy index =>
    rw [Ghost.step_plain hpc (by simp) (by simp) (by simp) (by simp)]
    have hwrites : (s.pc t).writes = true := by rw [hpc]; rfl
    simp only [threadStep, hpc] at hst
    obtain ⟨e, he, rfl⟩ := Option.map_eq_some_iff.mp hst
    exact h.goto rfl rfl rfl (h.lock.releaseWrite hwrites) (Or.inl rfl) trivial

theorem Kept.replace (h : Kept path content quiet n s g) (p : CString) (new : BookmarkFile)
    (hnew : new.access = .readable) :
    Kept path content quiet (n + 1) { s with disk := Function.update s.disk p new } g := by
  have hreadable : ∀ q, (s.disk q).access = .readable →
      (Function.update s.disk p new q).access = .readable := by
    intro q hq
    by_cases hqp : q = p
    · rw [hqp, Function.update_self]
      exact hnew
    · rwa [Function.update_of_ne hqp]
  have hload : ∀ {t : ℕ} {index : ℤ} {stream : Bytes}, LoadAt path content s g t index stream →
      LoadAt path content { s with disk := Function.update s.disk p new } g t index stream :=
    fun hl => ⟨hl.stream, hreadable _ hl.readable, hl.forward, hl.since⟩
  refine ⟨h.lock, fun t index ht => ⟨(h.called t index ht).1, ?_⟩,
    ⟨fun index => Nat.le_succ_of_le (h.past.1 index), fun t => Nat.le_succ_of_le (h.past.2 t)⟩,
    h.paths, fun index e he => ?_, fun t => ?_⟩
  · exact Nat.le_succ_of_le (h.called t index ht).2
  · exact (h.text index e he).imp id fun ht => ⟨ht.1, ht.2.1, hreadable _ ht.2.2⟩
  · have hplace := h.place t
    show Place path content quiet _ g t (s.pc t)
    cases hpc : s.pc t with
    | opened index stamp stream =>
      rw [hpc] at hplace
      exact hload hplace
    | sized index stamp stream size | filling index stamp stream size =>
      rw [hpc] at hplace
      exact ⟨hload hplace.1, hplace.2⟩
    | _ =>
      rw [hpc] at hplace
      exact hplace

theorem Kept.call (h : Kept path content quiet n s g) {t : ℕ} (hidle : s.pc t = .idle)
    (index : ℤ) : Kept path content quiet (n + 1) (s.goto t (.calling index))
      { g with called := Function.update g.called t (n, index) } := by
  have hcalled : ∀ u, u ≠ t → Function.update g.called t (n, index) u = g.called u :=
    fun u hu => Function.update_of_ne hu _ _
  have hpcs : ∀ {β : Type} (f : Pc → β), f (.calling index) = f .idle →
      (fun u => f ((s.goto t (.calling index)).pc u)) = fun u => f (s.pc u) := by
    intro β f hf
    funext u
    show f (Function.update s.pc t (.calling index) u) = f (s.pc u)
    by_cases hut : u = t
    · rw [hut, Function.update_self, hidle, hf]
    · rw [Function.update_of_ne hut]
  refine ⟨?_, fun u i hu => ?_,
    ⟨fun i => Nat.le_succ_of_le (h.past.1 i), fun u => Nat.le_succ_of_le (h.past.2 u)⟩,
    h.paths, h.text, fun u => ?_⟩
  · rw [hpcs Pc.reads rfl, hpcs Pc.writes rfl]
    exact h.lock
  · replace hu : (Function.update s.pc t (.calling index) u).index = some i := hu
    show (Function.update g.called t (n, index) u).2 = i ∧
      (Function.update g.called t (n, index) u).1 ≤ n + 1
    by_cases hut : u = t
    · rw [hut, Function.update_self] at hu
      rw [hut, Function.update_self]
      exact ⟨Option.some.inj hu, Nat.le_succ n⟩
    · rw [Function.update_of_ne hut] at hu
      rw [hcalled u hut]
      exact ⟨(h.called u i hu).1, Nat.le_succ_of_le (h.called u i hu).2⟩
  · show Place path content quiet _ _ u (Function.update s.pc t (.calling index) u)
    by_cases hut : u = t
    · rw [hut, Function.update_self]
      trivial
    · rw [Function.update_of_ne hut]
      exact (h.place u).other rfl rfl (hcalled u hut) rfl (fun _ => le_rfl) fun _ => rfl

theorem Kept.exec (h : Kept path content quiet n s g)
    (hnow : ∀ index, content index n = (s.disk (path index)).content) (hquiet : quiet → Inv s)
    {act : Act} (hst : exec false s act = some s') :
    Kept path content quiet (n + 1) s' (g.step s n act) := by
  cases act with
  | call t index =>
    simp only [Interleave.exec] at hst
    split at hst
    · rename_i hidle
      cases hst
      exact h.call hidle index
    · cases hst
  | step t env => exact h.thread hnow hquiet hst
  | replace p content mtime =>
    simp only [Interleave.exec] at hst
    split at hst
    · cases hst
      exact h.replace p _ rfl
    · cases hst

end Kept

/-! ### Whole runs -/

section Runs
variable (run : CacheRun)

theorem entryAt_paths {s : Sys} (h : Start s) {index : ℤ} {e : BookmarkCacheEntry}
    (he : entryAt s.cache index = some e) : e.json = none := by
  obtain ⟨paths, hpaths⟩ := h.cache
  refine addDb_empty paths [] (fun e he => absurd he List.not_mem_nil) e ?_
  rw [← hpaths]
  exact List.mem_of_getElem? (entryAt_some he).2

theorem CacheRun.kept_start (quiet : Prop) : Kept run.path
    (fun index k => ((run.state k).disk (run.path index)).content) quiet 0 (run.state 0)
    (run.ghost 0) := by
  have hidle := run.starts.idle
  refine ⟨?_, fun t index ht => ?_, ⟨fun _ => le_rfl, fun _ => le_rfl⟩, fun index e he => ?_,
    fun index e he => Or.inl (entryAt_paths run.starts he), fun t => ?_⟩
  · rw [run.starts.free.1, run.starts.free.2]
    exact RwOwned.of_free (fun t => by rw [hidle]; rfl) fun t => by rw [hidle]; rfl
  · rw [hidle] at ht
    cases ht
  · rw [CacheRun.path, he]
    rfl
  · rw [hidle]
    trivial

theorem CacheRun.kept (n : ℕ) (hn : n ≤ run.length) : Kept run.path
    (fun index k => ((run.state k).disk (run.path index)).content) run.Quiet n (run.state n)
    (run.ghost n) := by
  have hinv : run.Quiet → ∀ m ≤ run.length, Inv (run.state m) := fun hq =>
    run.holds (start_inv run.starts) fun m hm hi => exec_inv hi (hq m hm) (run.steps m hm)
  exact run.holds (P := fun m => Kept run.path
    (fun index k => ((run.state k).disk (run.path index)).content) run.Quiet m (run.state m)
    (run.ghost m)) (run.kept_start _) (fun m hm hk => hk.exec (fun _ => rfl)
    (fun hq => hinv hq m (Nat.le_of_lt hm)) (run.steps m hm)) n hn

theorem Kept.forward {path : ℤ → CString} {content : ℤ → ℕ → Bytes} {quiet : Prop} {n : ℕ}
    {s : Sys} {g : Ghost} (h : Kept path content quiet n s g) (act : Act) (index : ℤ) :
    g.read index ≤ (g.step s n act).read index := by
  have hset : ∀ i k, g.read i ≤ k → g.read index ≤ Function.update g.read i k index := by
    intro i k hk
    by_cases hi : index = i
    · rw [hi, Function.update_self]
      exact hk
    · rw [Function.update_of_ne hi]
  cases act with
  | call | replace => exact le_rfl
  | step t env =>
    have hplace := h.place t
    cases hpc : s.pc t with
    | filling i stamp stream size =>
      rw [hpc] at hplace
      simp only [Ghost.step, hpc]
      exact hset i _ hplace.1.forward
    | rdStat i | wrStat i =>
      simp only [Ghost.step, hpc]
      split
      · exact hset i n (h.past.1 i)
      · exact le_rfl
    | _ =>
      simp only [Ghost.step, hpc]
      exact le_rfl

theorem CacheRun.read_mono (index : ℤ) {m n : ℕ} (hmn : m ≤ n) (hn : n ≤ run.length) :
    (run.ghost m).read index ≤ (run.ghost n).read index := by
  induction n, hmn using Nat.le_induction with
  | base => exact le_rfl
  | succ n hmn ih =>
    have hn' : n ≤ run.length := Nat.le_of_lt hn
    exact (ih hn').trans ((run.kept n hn').forward (run.label n) index)

theorem threadStep_copy {s s' : Sys} {t : ℕ} {env : CallEnv} {b : Bytes}
    (hst : threadStep false s t env = some s') (hidle : s'.pc t = .idle)
    (hcopy : (s'.result t).copy = some b) : ∃ index e,
      (s.pc t = .rdCopy index ∨ s.pc t = .wrCopy index) ∧ entryAt s.cache index = some e ∧
        (jsonCopy e env).copy = some b := by
  have hgoto : ∀ (x : Sys) {p : Pc}, p ≠ .idle → (x.goto t p).pc t ≠ .idle := by
    intro x p hp h
    replace h : Function.update x.pc t p t = .idle := h
    rw [Function.update_self] at h
    exact hp h
  have hnone : ∀ x : Sys, ((x.finish t noCopy).result t).copy ≠ some b := by
    intro x h
    replace h : (Function.update x.result t noCopy t).copy = some b := h
    rw [Function.update_self] at h
    cases h
  have hfinish : ∀ (x : Sys) (r : CopyResult), ((x.finish t r).result t).copy = r.copy := by
    intro x r
    show (Function.update x.result t r t).copy = r.copy
    rw [Function.update_self]
  cases hpc : s.pc t with
  | idle =>
    simp only [threadStep, hpc] at hst
    cases hst
  | calling index | upgrading index =>
    simp only [threadStep, hpc] at hst
    split at hst
    · cases hst
    · cases hst
      exact absurd hidle (hgoto _ (by simp))
  | rdLocked index =>
    simp only [threadStep, hpc] at hst
    split at hst
    · cases hst
      exact absurd hcopy (hnone _)
    · split at hst
      · cases hst
        exact absurd hidle (hgoto _ (by simp))
      · cases hst
        exact absurd hidle (hgoto _ (by simp))
  | wrLocked index =>
    simp only [threadStep, hpc] at hst
    split at hst
    · cases hst
      exact absurd hcopy (hnone _)
    · cases hst
      refine absurd hidle (hgoto _ ?_)
      split <;> simp
  | rdCopy index =>
    simp only [threadStep, hpc] at hst
    obtain ⟨e, he, rfl⟩ := Option.map_eq_some_iff.mp hst
    rw [hfinish] at hcopy
    exact ⟨index, e, Or.inl rfl, he, hcopy⟩
  | wrCopy index =>
    simp only [threadStep, hpc] at hst
    obtain ⟨e, he, rfl⟩ := Option.map_eq_some_iff.mp hst
    rw [hfinish] at hcopy
    exact ⟨index, e, Or.inr rfl, he, hcopy⟩
  | rdStat index =>
    simp only [threadStep, hpc] at hst
    obtain ⟨e, he, rfl⟩ := Option.map_eq_some_iff.mp hst
    split at hidle <;> exact absurd hidle (hgoto _ (by simp))
  | wrStat index =>
    simp only [threadStep, hpc] at hst
    obtain ⟨e, he, rfl⟩ := Option.map_eq_some_iff.mp hst
    split at hidle
    · exact absurd hidle (hgoto _ (by split <;> simp))
    · exact absurd hidle (hgoto _ (by simp))
  | opening index stamp | opened index stamp stream | sized index stamp stream size =>
    simp only [threadStep, hpc] at hst
    obtain ⟨e, he, rfl⟩ := Option.map_eq_some_iff.mp hst
    split at hcopy
    · rename_i htest
      rw [if_pos htest] at hidle
      exact absurd hidle (hgoto _ (by simp))
    · exact absurd hcopy (hnone _)
  | filling index stamp stream size =>
    simp only [threadStep, hpc] at hst
    obtain ⟨e, he, hs'⟩ := Option.map_eq_some_iff.mp hst
    split at hs'
    · subst hs'
      exact absurd hidle (hgoto _ (by simp))
    · subst hs'
      exact absurd hcopy (hnone _)
  | loaded index stamp =>
    cases stamp with
    | some m =>
      simp only [threadStep, hpc] at hst
      obtain ⟨e, he, rfl⟩ := Option.map_eq_some_iff.mp hst
      exact absurd hidle (hgoto _ (by simp))
    | none =>
      simp only [threadStep, hpc] at hst
      obtain ⟨e, he, rfl⟩ := Option.map_eq_some_iff.mp hst
      split at hidle <;> exact absurd hidle (hgoto _ (by simp))

theorem own_step {s s' : Sys} {t : ℕ} {act : Act} (hst : exec false s act = some s')
    (hbusy : s.pc t ≠ .idle) (hidle : s'.pc t = .idle) :
    ∃ env, threadStep false s t env = some s' := by
  have hsame : ∀ {u : ℕ} {p : Pc}, u ≠ t → s'.pc ≠ Function.update s.pc u p := by
    intro u p hu hpc
    rw [hpc, Function.update_of_ne hu.symm] at hidle
    exact hbusy hidle
  cases act with
  | call u index =>
    simp only [exec] at hst
    split at hst
    · rename_i hcalls
      cases hst
      have hu : u ≠ t := by
        rintro rfl
        exact hbusy hcalls
      exact absurd rfl (hsame hu)
    · cases hst
  | replace =>
    simp only [exec] at hst
    split at hst
    · cases hst
      exact absurd hidle hbusy
    · cases hst
  | step u env =>
    by_cases hu : u = t
    · exact ⟨env, hu ▸ hst⟩
    · obtain ⟨p, hp⟩ := threadStep_pc (show threadStep false s u env = some s' from hst)
      exact absurd hp (hsame hu)

theorem CacheRun.called_since {index : ℤ} {t began ended : ℕ} (hended : ended < run.length)
    (hcall : run.label began = .call t index)
    (hbusy : ∀ k, began < k → k ≤ ended → (run.state k).pc t ≠ .idle) (k : ℕ)
    (hbegan : began < k) (hk : k ≤ ended) : (run.ghost k).called t = (began, index) := by
  induction k, hbegan using Nat.le_induction with
  | base =>
    show (Ghost.step _ _ _ _).called t = _
    rw [hcall]
    exact Function.update_self ..
  | succ k hbegan ih =>
    have hk' : k ≤ ended := Nat.le_of_lt hk
    rw [← ih hk']
    show (Ghost.step _ _ _ (run.label k)).called t = _
    have hstep := run.steps k (by omega)
    cases hlabel : run.label k with
    | call u i =>
      have hu : t ≠ u := by
        rintro rfl
        rw [hlabel, StepOf, Interleave.exec] at hstep
        split at hstep
        · rename_i hidle
          exact hbusy k hbegan hk' hidle
        · cases hstep
      exact Function.update_of_ne hu _ _
    | replace => rfl
    | step u env =>
      simp only [Ghost.step]
      split
      · rfl
      · rfl
      · split <;> rfl
      · split <;> rfl
      · rfl

/-- The copy that a call returns is what the file held at the time of the entry's text; if no
file was replaced in the middle of its first load, that time lies in the call. -/
theorem CacheRun.copied {index : ℤ} {r : TimedRead Bytes} (hr : run.Copies index r) :
    run.text index ((run.ghost r.ended).read index) = r.value ∧
      (run.Quiet → r.began ≤ (run.ghost r.ended).read index) := by
  obtain ⟨t, hcall, hlt, hended, hbusy, hidle, hcopy⟩ := hr
  have hkept := run.kept r.ended (Nat.le_of_lt hended)
  have hcalled := run.called_since hended hcall hbusy r.ended hlt le_rfl
  have hnow := hbusy r.ended hlt le_rfl
  obtain ⟨env, hthread⟩ := own_step (run.steps r.ended hended) hnow hidle
  obtain ⟨i, e, hpc, he, hcopied⟩ := threadStep_copy hthread hidle hcopy
  have hindex : ((run.state r.ended).pc t).index = some i := by
    rcases hpc with hpc | hpc <;> rw [hpc] <;> rfl
  have hi := (hkept.called t i hindex).1
  rw [hcalled] at hi
  obtain rfl : index = i := hi
  constructor
  · unfold jsonCopy at hcopied
    dsimp only at hcopied
    split at hcopied
    · rcases hkept.text index e he with hnone | ⟨htext, hlen, -⟩
      · rw [hnone] at hcopied
        cases hcopied
      · rw [htext, hlen, Option.map_some, Option.some.injEq] at hcopied
        rw [← hcopied, List.take_of_length_le (by simp)]
        rfl
    · cases hcopied
  · intro hq
    have hplace := hkept.place t
    rcases hpc with hpc | hpc
    · rw [hpc] at hplace
      have hsince := hplace hq
      rwa [hcalled] at hsince
    · rw [hpc] at hplace
      have hsince := hplace hq
      rwa [hcalled] at hsince

/-- The time of the text that a call has copied. -/
def CacheRun.readTime (index : ℤ) (r : TimedRead Bytes) : ℕ := (run.ghost r.ended).read index

theorem CacheRun.ordered (index : ℤ) :
    OrderedBy (run.text index) (run.Copies index) (run.readTime index) := by
  refine ⟨fun r hr => ?_, fun r hr => (run.copied hr).1, fun r r' _ hr' hle => ?_⟩
  · obtain ⟨t, -, -, hended, -⟩ := hr
    exact (run.kept r.ended (Nat.le_of_lt hended)).past.1 index
  · obtain ⟨t, -, -, hended, -⟩ := hr'
    exact run.read_mono index hle (Nat.le_of_lt hended)

/-- If no newer file is renamed onto a path in the middle of its first load, the calls are
linearizable: each returns what its file held at one moment between the call and the return. -/
theorem copies_linearizable (hquiet : run.Quiet) (index : ℤ) :
    Linearizable (run.text index) (run.Copies index) :=
  ⟨run.readTime index, run.ordered index, fun _ hr => (run.copied hr).2 hquiet⟩

end Runs

theorem loadActs_runs : (runList (exec false) oneDb loadActs).isSome := by decide

def loadRun : CacheRun :=
  Run.ofList oneDb_start loadActs (Option.some_get loadActs_runs).symm stepOk

theorem loadRun_quiet : loadRun.Quiet := by
  intro n hn
  have hlabel : ∀ act ∈ loadActs, ∀ s, NoTornLoad s act := by
    intro act hact s
    simp only [loadActs, List.mem_cons, List.mem_replicate] at hact
    rcases hact with rfl | ⟨_, rfl⟩ <;> trivial
  refine hlabel _ ?_ _
  show loadActs.getD n stepOk ∈ loadActs
  rw [List.getD, List.getElem?_eq_getElem hn, Option.getD_some]
  exact List.getElem_mem hn

theorem copies_linearizable_load : loadRun.Copies 0 ⟨0, 10, ascii "[1]" ++ [0]⟩ ∧
    Linearizable (loadRun.text 0) (loadRun.Copies 0) := by
  refine ⟨⟨0, rfl, by decide, by decide, ?_, by decide, by decide⟩,
    copies_linearizable loadRun loadRun_quiet 0⟩
  have hbusy : ∀ k ≤ 10, 0 < k → (loadRun.state k).pc 0 ≠ .idle := by decide
  exact fun k hpos hk => hbusy k hk hpos

end LocalMarks.BookmarkCache.Interleave

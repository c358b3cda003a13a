import LocalMarks.BookmarkCache.Interleave

/-!
# Edits that the cache masks

A reload stamps the entry with the mtime it took before it opened the file, so a replacement
that slips in leaves an mtime that no longer matches. The first load takes the mtime after
the read; a replacement between the two stamps the old text with the new mtime.
-/

namespace LocalMarks.BookmarkCache.Interleave
open LocalMarks.Lib
open LocalMarks.BookmarkCache

def Pc.writes : Pc → Bool
  | .wrLocked _ | .wrStat _ | .opening .. | .opened .. | .sized .. | .filling .. | .loaded ..
  | .wrCopy _ => true
  | _ => false

def Pc.target : Pc → Option ℤ
  | .opening index _ | .opened index .. | .sized index .. | .filling index ..
  | .loaded index _ => some index
  | _ => none

/-- A first load between `fopen` and the `stat` that stamps the entry. -/
def Pc.firstLoad : Pc → Option ℤ
  | .opened index none _ | .sized index none .. | .filling index none ..
  | .loaded index none => some index
  | _ => none

/-- Some thread is inside the first load of an entry for `path`. -/
def MidFirstLoad (s : Sys) (path : CString) : Prop :=
  ∃ t index e, (s.pc t).firstLoad = some index ∧ entryAt s.cache index = some e ∧ e.path = path

/-- The act does not replace a file in the middle of its first load. -/
def NoTornLoad (s : Sys) : Act → Prop
  | .replace path _ _ => ¬ MidFirstLoad s path
  | _ => True

/-! ### The invariant -/

/-- The entry's text is the content of the file unless the mtimes already differ. -/
def Fresh (f : BookmarkFile) (e : BookmarkCacheEntry) : Prop :=
  ∀ b, e.json = some b → e.mtime ≤ f.mtime ∧ (e.mtime = f.mtime → b = f.content ++ [0])

/-- `P` about the file's content holds, for a reload as long as the file is the one it took
the mtime of. -/
def Current (f : BookmarkFile) (stamp : Option ℤ) (P : Prop) : Prop :=
  match stamp with
  | none => f.access = .readable ∧ P
  | some m => m ≤ f.mtime ∧ (m = f.mtime → P)

theorem Current.imp {f : BookmarkFile} {stamp : Option ℤ} {P Q : Prop}
    (h : Current f stamp P) (hpq : P → Q) : Current f stamp Q := by
  cases stamp with
  | none => exact ⟨h.1, hpq h.2⟩
  | some m => exact ⟨h.1, fun hm => hpq (h.2 hm)⟩

/-- What a load has established at each of its steps. -/
def PcOk (f : BookmarkFile) (e : BookmarkCacheEntry) : Pc → Prop
  | .opening _ (some m) => m ≤ f.mtime
  | .opened _ stamp stream => Current f stamp (stream = f.content)
  | .sized _ stamp stream size | .filling _ stamp stream size =>
    Current f stamp (stream = f.content ∧ size = f.content.length)
  | .loaded _ stamp => Current f stamp (e.json = some (f.content ++ [0]))
  | _ => True

structure Inv (s : Sys) : Prop where
  lock : ∀ t, (s.pc t).writes = true → s.writer = true
  excl : ∀ t u, (s.pc t).writes = true → (s.pc u).writes = true → t = u
  fresh : ∀ index e, entryAt s.cache index = some e → (∀ t stamp, s.pc t ≠ .loaded index stamp) →
    Fresh (s.disk e.path) e
  pcs : ∀ t index e, (s.pc t).target = some index → entryAt s.cache index = some e →
    PcOk (s.disk e.path) e (s.pc t)

theorem writes_of_target {p : Pc} {index : ℤ} (h : p.target = some index) : p.writes = true := by
  cases p <;> first | rfl | cases h

theorem fresh_none {f : BookmarkFile} {e : BookmarkCacheEntry} (h : e.json = none) :
    Fresh f e := by
  intro b hb
  rw [h] at hb
  cases hb

theorem entryAt_set_ne {cache : DbCache} {index i : ℤ} {e : BookmarkCacheEntry}
    (e' : BookmarkCacheEntry) (hne : i ≠ index) (he : entryAt cache index = some e) :
    entryAt (cache.set index.toNat e') i = entryAt cache i := by
  have hpos := (entryAt_some he).1
  unfold entryAt
  split
  · rfl
  · rw [List.getElem?_set_ne (by omega)]

theorem start_inv {s : Sys} (h : Start s) : Inv s := by
  have hidle := h.idle
  refine ⟨?_, ?_, ?_, ?_⟩
  · intro t ht
    rw [hidle] at ht
    cases ht
  · intro t u ht _
    rw [hidle] at ht
    cases ht
  · intro index e he _
    obtain ⟨paths, hp⟩ := h.cache
    refine fresh_none (addDb_empty paths [] (by simp) e ?_)
    rw [← hp]
    exact List.mem_of_getElem? (entryAt_some he).2
  · intro t index e ht
    rw [hidle] at ht
    cases ht

/-! ### One step -/

theorem Inv.move {s s' : Sys} (h : Inv s) {t : ℕ} {p : Pc} (hc : s'.cache = s.cache)
    (hd : s'.disk = s.disk) (hpc : s'.pc = Function.update s.pc t p)
    (hw : s'.writer = s.writer ∨ (s.pc t).writes = true ∨ s.writer = false)
    (hp : p.writes = true → s'.writer = true ∧ ((s.pc t).writes = true ∨ s.writer = false))
    (hl : ∀ index stamp, s.pc t ≠ .loaded index stamp)
    (hok : ∀ index e, p.target = some index → entryAt s.cache index = some e →
      PcOk (s.disk e.path) e p) : Inv s' := by
  have hself : s'.pc t = p := by rw [hpc, Function.update_self]
  have hother : ∀ u, u ≠ t → s'.pc u = s.pc u := fun u hu => by rw [hpc, Function.update_of_ne hu]
  have hsole : ∀ u, u ≠ t → (s.pc u).writes = true →
      ¬ ((s.pc t).writes = true ∨ s.writer = false) := by
    rintro u hu hwu (hwt | hfree)
    · exact hu (h.excl u t hwu hwt)
    · rw [h.lock u hwu] at hfree
      cases hfree
  refine ⟨?_, ?_, ?_, ?_⟩
  · intro u hu
    by_cases hut : u = t
    · subst hut
      exact (hp (hself ▸ hu)).1
    · rw [hother u hut] at hu
      rcases hw with hw | hw
      · rw [hw]
        exact h.lock u hu
      · exact absurd hw (hsole u hut hu)
  · intro u v hu hv
    by_cases hut : u = t
    · by_cases hvt : v = t
      · rw [hut, hvt]
      · subst hut
        rw [hother v hvt] at hv
        exact absurd (hp (hself ▸ hu)).2 (hsole v hvt hv)
    · rw [hother u hut] at hu
      by_cases hvt : v = t
      · subst hvt
        exact absurd (hp (hself ▸ hv)).2 (hsole u hut hu)
      · rw [hother v hvt] at hv
        exact h.excl u v hu hv
  · intro index e he hno
    rw [hc] at he
    rw [hd]
    refine h.fresh index e he fun u stamp => ?_
    by_cases hut : u = t
    · rw [hut]
      exact hl index stamp
    · rw [← hother u hut]
      exact hno u stamp
  · intro u index e ht he
    rw [hc] at he
    rw [hd]
    by_cases hut : u = t
    · subst hut
      rw [hself] at ht ⊢
      exact hok index e ht he
    · rw [hother u hut] at ht ⊢
      exact h.pcs u index e ht he

theorem Inv.write {s s' : Sys} (h : Inv s) {t : ℕ} {p : Pc} {index : ℤ}
    {e e' : BookmarkCacheEntry} (ht : (s.pc t).target = some index)
    (he : entryAt s.cache index = some e) (hc : s'.cache = s.cache.set index.toNat e')
    (hpath : e'.path = e.path) (hd : s'.disk = s.disk)
    (hpc : s'.pc = Function.update s.pc t p) (hp : p.writes = true → s'.writer = true)
    (htar : p.target = none ∨ p.target = some index)
    (hf : (∀ stamp, p ≠ .loaded index stamp) → Fresh (s.disk e.path) e')
    (hok : PcOk (s.disk e.path) e' p) : Inv s' := by
  have hwt : (s.pc t).writes = true := writes_of_target ht
  have hself : s'.pc t = p := by rw [hpc, Function.update_self]
  have hother : ∀ u, u ≠ t → s'.pc u = s.pc u := fun u hu => by rw [hpc, Function.update_of_ne hu]
  have hsole : ∀ u, (s'.pc u).writes = true → u = t := by
    intro u hu
    by_contra hut
    rw [hother u hut] at hu
    exact hut (h.excl u t hu hwt)
  refine ⟨?_, ?_, ?_, ?_⟩
  · intro u hu
    obtain rfl := hsole u hu
    exact hp (hself ▸ hu)
  · intro u v hu hv
    rw [hsole u hu, hsole v hv]
  · intro i x hx hno
    rw [hc] at hx
    rw [hd]
    by_cases hi : i = index
    · subst hi
      rw [entryAt_set e' he, Option.some.injEq] at hx
      subst hx
      rw [hpath]
      exact hf fun stamp => hself ▸ hno t stamp
    · rw [entryAt_set_ne e' hi he] at hx
      refine h.fresh i x hx fun u stamp hu => ?_
      by_cases hut : u = t
      · subst hut
        rw [hu] at ht
        exact hi (Option.some.inj ht)
      · exact hno u stamp ((hother u hut).trans hu)
  · intro u i x htu hx
    obtain rfl := hsole u (writes_of_target htu)
    rw [hself] at htu ⊢
    rcases htar with htar | htar
    · rw [htar] at htu
      cases htu
    · obtain rfl : index = i := Option.some.inj (htar.symm.trans htu)
      rw [hc, entryAt_set e' he, Option.some.injEq] at hx
      subst hx
      rw [hd, hpath]
      exact hok

theorem Inv.finish {s s' : Sys} (h : Inv s) {t : ℕ} (hc : s'.cache = s.cache)
    (hd : s'.disk = s.disk) (hpc : s'.pc = Function.update s.pc t .idle)
    (hw : s'.writer = s.writer ∨ (s.pc t).writes = true)
    (hl : ∀ index stamp, s.pc t ≠ .loaded index stamp) : Inv s' :=
  h.move hc hd hpc (hw.imp_right Or.inl) nofun hl nofun

theorem Inv.goto {s : Sys} (h : Inv s) {t : ℕ} {p : Pc} (hw : (s.pc t).writes = true)
    (hl : ∀ index stamp, s.pc t ≠ .loaded index stamp)
    (hok : ∀ index e, p.target = some index → entryAt s.cache index = some e →
      PcOk (s.disk e.path) e p) : Inv (s.goto t p) :=
  h.move rfl rfl rfl (Or.inl rfl) (fun _ => ⟨h.lock t hw, Or.inl hw⟩) hl hok

theorem Inv.away {s s' : Sys} (h : Inv s) {t : ℕ} {p : Pc} (hc : s'.cache = s.cache)
    (hd : s'.disk = s.disk) (hpc : s'.pc = Function.update s.pc t p) (hw : s'.writer = s.writer)
    (hp : p.writes = false) (hl : ∀ index stamp, s.pc t ≠ .loaded index stamp) : Inv s' := by
  refine h.move hc hd hpc (Or.inl hw) (fun hh => ?_) hl (fun index e ht _ => ?_)
  · rw [hp] at hh
    cases hh
  · rw [writes_of_target ht] at hp
    cases hp

theorem Inv.gotoEntry {s : Sys} (h : Inv s) {t : ℕ} {p : Pc} {index : ℤ} {e : BookmarkCacheEntry}
    (hw : (s.pc t).writes = true) (hl : ∀ index stamp, s.pc t ≠ .loaded index stamp)
    (he : entryAt s.cache index = some e) (hp : p.target = some index)
    (hok : PcOk (s.disk e.path) e p) : Inv (s.goto t p) := by
  refine h.goto hw hl fun i x hi hx => ?_
  obtain rfl : index = i := Option.some.inj (hp.symm.trans hi)
  obtain rfl : e = x := Option.some.inj (he.symm.trans hx)
  exact hok

theorem finishRead_full {e e' : BookmarkCacheEntry} {content : Bytes} {n : ℕ}
    (h : finishRead e content.length ((content.take content.length).take n) = (0, e')) :
    e' = e.storeJson content := by
  rw [List.take_length] at h
  rcases finishRead_cases e content n with hr | hr
  · rw [hr] at h
    exact (Prod.mk.inj h).2.symm
  · rw [hr] at h
    exact absurd (Prod.mk.inj h).1 (by decide)

theorem finishRead_path (e : BookmarkCacheEntry) (size : ℕ) (read : Bytes) :
    (finishRead e size read).2.path = e.path := by
  unfold finishRead
  split <;> rfl

theorem finishRead_failed {e e' : BookmarkCacheEntry} {size : ℕ} {read : Bytes} {r : ℤ}
    (h : finishRead e size read = (r, e')) (hr : r ≠ 0) : e'.json = none := by
  unfold finishRead at h
  split at h
  · rw [← (Prod.mk.inj h).2]
    rfl
  · exact absurd (Prod.mk.inj h).1.symm hr

/-! ### The steps of a call, one lemma a phase -/

section Steps
variable {inPlace : Bool} {s s' : Sys} {t : ℕ} {env : CallEnv}

theorem Inv.reading (h : Inv s) (hr : (s.pc t).writes = false)
    (hst : threadStep inPlace s t env = some s') : Inv s' := by
  cases hpc : s.pc t with
  | idle =>
    simp only [threadStep, hpc] at hst
    cases hst
  | calling index =>
    simp only [threadStep, hpc] at hst
    split at hst
    · cases hst
    · cases hst
      exact h.away rfl rfl rfl rfl rfl (by simp [hpc])
  | rdLocked index =>
    simp only [threadStep, hpc] at hst
    split at hst
    · cases hst
      exact h.finish rfl rfl rfl (Or.inl rfl) (by simp [hpc])
    · split at hst
      · cases hst
        exact h.away rfl rfl rfl rfl rfl (by simp [hpc])
      · cases hst
        exact h.away rfl rfl rfl rfl rfl (by simp [hpc])
  | rdStat index =>
    simp only [threadStep, hpc] at hst
    obtain ⟨e, he, rfl⟩ := Option.map_eq_some_iff.mp hst
    split
    · exact h.away rfl rfl rfl rfl rfl (by simp [hpc])
    · exact h.away rfl rfl rfl rfl rfl (by simp [hpc])
  | rdCopy index =>
    simp only [threadStep, hpc] at hst
    obtain ⟨e, he, rfl⟩ := Option.map_eq_some_iff.mp hst
    exact h.finish rfl rfl rfl (Or.inl rfl) (by simp [hpc])
  | upgrading index =>
    simp only [threadStep, hpc] at hst
    split at hst
    · cases hst
    · rename_i hfree
      cases hst
      simp only [Bool.or_eq_true, decide_eq_true_eq, not_or, Bool.not_eq_true] at hfree
      exact h.move rfl rfl rfl (Or.inr (Or.inr hfree.1)) (fun _ => ⟨rfl, Or.inr hfree.1⟩)
        (by simp [hpc]) fun _ _ hp => by cases hp
  | _ =>
    rw [hpc] at hr
    cases hr

theorem Inv.checked (h : Inv s) {index : ℤ} (hpc : s.pc t = .wrStat index)
    (hst : threadStep inPlace s t env = some s') : Inv s' := by
  simp only [threadStep, hpc] at hst
  obtain ⟨e, he, rfl⟩ := Option.map_eq_some_iff.mp hst
  have hw : (s.pc t).writes = true := by rw [hpc]; rfl
  split
  · rename_i m hm
    split
    · exact h.gotoEntry hw (by simp [hpc]) he rfl (statMtime_some hm).le
    · exact h.goto hw (by simp [hpc]) fun _ _ hp => by cases hp
  · exact h.goto hw (by simp [hpc]) fun _ _ hp => by cases hp

theorem Inv.opened (h : Inv s) {index : ℤ} {stamp : Option ℤ} (hpc : s.pc t = .opening index stamp)
    (hst : threadStep inPlace s t env = some s') : Inv s' := by
  simp only [threadStep, hpc] at hst
  obtain ⟨e, he, rfl⟩ := Option.map_eq_some_iff.mp hst
  have hw : (s.pc t).writes = true := by rw [hpc]; rfl
  have hpre := h.pcs t index e (by rw [hpc]; rfl) he
  rw [hpc] at hpre
  split
  · rename_i ho
    refine h.gotoEntry hw (by simp [hpc]) he rfl ?_
    cases stamp with
    | none => exact ⟨by simpa [BookmarkFile.canOpen] using ho, rfl⟩
    | some m => exact ⟨hpre, fun _ => rfl⟩
  · exact h.finish rfl rfl rfl (Or.inr hw) (by simp [hpc])

theorem Inv.sized (h : Inv s) {index : ℤ} {stamp : Option ℤ} {stream : Bytes}
    (hpc : s.pc t = .opened index stamp stream)
    (hst : threadStep inPlace s t env = some s') : Inv s' := by
  simp only [threadStep, hpc] at hst
  obtain ⟨e, he, rfl⟩ := Option.map_eq_some_iff.mp hst
  have hw : (s.pc t).writes = true := by rw [hpc]; rfl
  have hpre := h.pcs t index e (by rw [hpc]; rfl) he
  rw [hpc] at hpre
  split
  · refine h.gotoEntry hw (by simp [hpc]) he rfl (Current.imp hpre fun hstream => ⟨hstream, ?_⟩)
    rw [hstream, streamContent_unchanged]
  · exact h.finish rfl rfl rfl (Or.inr hw) (by simp [hpc])

theorem Inv.freed (h : Inv s) {index : ℤ} {stamp : Option ℤ} {stream : Bytes} {size : ℕ}
    (hpc : s.pc t = .sized index stamp stream size)
    (hst : threadStep inPlace s t env = some s') : Inv s' := by
  simp only [threadStep, hpc] at hst
  obtain ⟨e, he, rfl⟩ := Option.map_eq_some_iff.mp hst
  have hpre := h.pcs t index e (by rw [hpc]; rfl) he
  have hw : s.writer = true := h.lock t (by rw [hpc]; rfl)
  have ht : (s.pc t).target = some index := by rw [hpc]; rfl
  rw [hpc] at hpre
  split
  · exact h.write ht he rfl rfl rfl rfl (fun _ => hw) (Or.inr rfl)
      (fun _ => fresh_none rfl) hpre
  · exact h.write ht he rfl rfl rfl rfl (fun hp => by cases hp) (Or.inl rfl)
      (fun _ => fresh_none rfl) trivial

theorem Inv.filled (h : Inv s) {index : ℤ} {stamp : Option ℤ} {stream : Bytes} {size : ℕ}
    (hpc : s.pc t = .filling index stamp stream size)
    (hst : threadStep inPlace s t env = some s') : Inv s' := by
  simp only [threadStep, hpc] at hst
  obtain ⟨e, he, hs'⟩ := Option.map_eq_some_iff.mp hst
  have hpre := h.pcs t index e (by rw [hpc]; rfl) he
  have hw : s.writer = true := h.lock t (by rw [hpc]; rfl)
  have ht : (s.pc t).target = some index := by rw [hpc]; rfl
  rw [hpc] at hpre
  have hpath := finishRead_path e size
    (((streamContent inPlace (s.disk e.path) stream).take size).take env.freadLen)
  subst hs'
  split
  · rename_i e' hfin
    rw [hfin] at hpath
    refine h.write ht he rfl hpath rfl rfl (fun _ => hw) (Or.inr rfl) (fun hno => ?_) ?_
    · exact absurd rfl (hno stamp)
    · refine Current.imp hpre fun hsrc => ?_
      rw [hsrc.1, hsrc.2, streamContent_unchanged] at hfin
      rw [finishRead_full hfin]
      rfl
  · rename_i r e' hr hfin
    rw [hfin] at hpath
    exact h.write ht he rfl hpath rfl rfl (fun hp => by cases hp) (Or.inl rfl)
      (fun _ => fresh_none (finishRead_failed hfin hr)) trivial

theorem Inv.stamped (h : Inv s) {index : ℤ} {stamp : Option ℤ} (hpc : s.pc t = .loaded index stamp)
    (hst : threadStep inPlace s t env = some s') : Inv s' := by
  have hw : s.writer = true := h.lock t (by rw [hpc]; rfl)
  have ht : (s.pc t).target = some index := by rw [hpc]; rfl
  cases stamp with
  | none =>
    simp only [threadStep, hpc] at hst
    obtain ⟨e, he, hs'⟩ := Option.map_eq_some_iff.mp hst
    have hpre := h.pcs t index e ht he
    rw [hpc] at hpre
    rw [statMtime_readable hpre.1] at hs'
    subst hs'
    refine h.write ht he rfl rfl rfl rfl (fun _ => hw) (Or.inl rfl) (fun _ b hb => ?_) trivial
    exact ⟨le_rfl, fun _ => Option.some.inj (hb.symm.trans hpre.2)⟩
  | some m =>
    simp only [threadStep, hpc] at hst
    obtain ⟨e, he, hs'⟩ := Option.map_eq_some_iff.mp hst
    have hpre := h.pcs t index e ht he
    rw [hpc] at hpre
    subst hs'
    refine h.write ht he rfl rfl rfl rfl (fun _ => hw) (Or.inl rfl) (fun _ b hb => ?_) trivial
    exact ⟨hpre.1, fun hm => Option.some.inj (hb.symm.trans (hpre.2 hm))⟩

theorem threadStep_inv (h : Inv s) (hst : threadStep inPlace s t env = some s') : Inv s' := by
  cases hpc : s.pc t with
  | wrLocked index =>
    simp only [threadStep, hpc] at hst
    split at hst
    · cases hst
      exact h.finish rfl rfl rfl (Or.inr (by rw [hpc]; rfl)) (by simp [hpc])
    · cases hst
      refine h.goto (by rw [hpc]; rfl) (by simp [hpc]) ?_
      split
      · exact fun _ _ _ _ => trivial
      · exact fun _ _ hp => by cases hp
  | wrStat index => exact h.checked hpc hst
  | opening index stamp => exact h.opened hpc hst
  | opened index stamp stream => exact h.sized hpc hst
  | sized index stamp stream size => exact h.freed hpc hst
  | filling index stamp stream size => exact h.filled hpc hst
  | loaded index stamp => exact h.stamped hpc hst
  | wrCopy index =>
    simp only [threadStep, hpc] at hst
    obtain ⟨e, he, rfl⟩ := Option.map_eq_some_iff.mp hst
    exact h.finish rfl rfl rfl (Or.inr (by rw [hpc]; rfl)) (by simp [hpc])
  | _ => exact h.reading (by rw [hpc]; rfl) hst

end Steps

/-! ### Replacements -/

theorem Current.outdated {f f' : BookmarkFile} {m : ℤ} {P Q : Prop} (h : Current f (some m) P)
    (hlt : f.mtime < f'.mtime) : Current f' (some m) Q := by
  have hle : m ≤ f.mtime := h.1
  exact ⟨by omega, fun hm => by omega⟩

theorem PcOk.replace {f f' : BookmarkFile} {e : BookmarkCacheEntry} {p : Pc} {index : ℤ}
    (h : PcOk f e p) (hlt : f.mtime < f'.mtime) (ht : p.target = some index)
    (hfirst : p.firstLoad ≠ some index) : PcOk f' e p := by
  have hstamp : ∀ {stamp : Option ℤ} {P Q : Prop}, Current f stamp P →
      (stamp = none → p.firstLoad = p.target) → Current f' stamp Q := by
    intro stamp P Q hc hp
    cases stamp with
    | none => exact absurd ((hp rfl).trans ht) hfirst
    | some m => exact hc.outdated hlt
  cases p with
  | opening i stamp =>
    cases stamp with
    | none => trivial
    | some m => exact le_of_lt (lt_of_le_of_lt h hlt)
  | opened i stamp stream => exact hstamp h fun hs => by rw [hs]; rfl
  | sized i stamp stream size => exact hstamp h fun hs => by rw [hs]; rfl
  | filling i stamp stream size => exact hstamp h fun hs => by rw [hs]; rfl
  | loaded i stamp => exact hstamp h fun hs => by rw [hs]; rfl
  | _ => cases ht

theorem Inv.replace {s : Sys} (h : Inv s) {path : CString} {content : Bytes} {mtime : ℤ}
    (hm : (s.disk path).mtime < mtime) (hmid : ¬ MidFirstLoad s path) :
    Inv { s with disk := Function.update s.disk path ⟨content, mtime, .readable⟩ } := by
  refine ⟨h.lock, h.excl, ?_, ?_⟩
  · intro index e he hno
    have hold := h.fresh index e he hno
    by_cases hp : e.path = path
    · subst hp
      intro b hb
      have hlt := (hold b hb).1
      simp only [Function.update_self]
      exact ⟨by omega, fun heq => by omega⟩
    · simpa only [Function.update_of_ne hp] using hold
  · intro t index e ht he
    have hold := h.pcs t index e ht he
    by_cases hp : e.path = path
    · have hfirst : (s.pc t).firstLoad ≠ some index := fun hf => hmid ⟨t, index, e, hf, he, hp⟩
      subst hp
      simp only [Function.update_self]
      exact hold.replace hm ht hfirst
    · simpa only [Function.update_of_ne hp] using hold

theorem exec_inv {inPlace : Bool} {s s' : Sys} {act : Act} (h : Inv s) (hok : NoTornLoad s act)
    (hst : exec inPlace s act = some s') : Inv s' := by
  cases act with
  | call t index =>
    simp only [exec] at hst
    split at hst
    · rename_i hidle
      cases hst
      exact h.away rfl rfl rfl rfl rfl (by simp [hidle])
    · cases hst
  | step t env => exact threadStep_inv h hst
  | replace path content mtime =>
    simp only [exec] at hst
    split at hst
    · rename_i hm
      cases hst
      exact h.replace hm hok
    · cases hst

/-- In every interleaving in which no file is replaced during its first load, an entry that no
thread is loading and that carries the file's current mtime has the file's current content. -/
theorem no_edit_masked (inPlace : Bool) (s : Sys)
    (h : Reach Start (Guarded (StepOf (exec inPlace)) NoTornLoad) s)
    (hload : ∀ t, (s.pc t).target = none) (index : ℤ) (e : BookmarkCacheEntry) (b : Bytes)
    (he : entryAt s.cache index = some e) (hb : e.json = some b)
    (hm : e.mtime = (s.disk e.path).mtime) : b = (s.disk e.path).content ++ [0] := by
  have hinv : Inv s := h.invariant (I := Inv) (fun _ => start_inv)
    fun _ _ _ _ hi hst => exec_inv hi hst.1 hst.2
  refine (hinv.fresh index e he (fun t stamp hpc => ?_) b hb).2 hm
  have := hload t
  rw [hpc] at this
  cases this

/-- One database, and a thread at which nothing fails. -/
def notePath : CString := ⟨ascii "notes.json", by decide⟩
def stepOk : Act := .step 0 ⟨true, true, 4096, true⟩
def oneDb : Sys where
  cache := bookmarkCacheAddDb [] (some notePath)
  disk := fun _ => ⟨ascii "[1]", 10, .readable⟩
  readers := 0
  writer := false
  pc := fun _ => .idle
  result := fun _ => noCopy

theorem oneDb_start : Start oneDb :=
  ⟨⟨[some notePath], rfl⟩, ⟨rfl, rfl⟩, fun _ => rfl⟩

/-- What a state shows of the entry, its file and the thread. -/
def view (s : Sys) : Option (Option Bytes × ℤ × CString) × BookmarkFile × Pc :=
  ((entryAt s.cache 0).map fun e => (e.json, e.mtime, e.path), s.disk notePath, s.pc 0)

theorem idle_of_view {inPlace : Bool} {s : Sys} {acts : List Act}
    (hrun : runList (exec inPlace) oneDb acts = some s) (hpc : s.pc 0 = .idle)
    (hacts : ∀ act ∈ acts, act.thread = none ∨ act.thread = some 0) (t : ℕ) :
    (s.pc t).target = none := by
  by_cases ht : t = 0
  · rw [ht, hpc]
    rfl
  · rw [runList_other ht hacts hrun]
    rfl

def loadActs : List Act := .call 0 0 :: List.replicate 10 stepOk

theorem no_edit_masked_load :
    ∃ s e, runList (exec false) oneDb loadActs = some s ∧ entryAt s.cache 0 = some e ∧
      e.json = some (ascii "[1]" ++ [0]) ∧ ascii "[1]" ++ [0] = (s.disk e.path).content ++ [0] := by
  have hrun : (runList (exec false) oneDb loadActs).map view =
      some (some (some (ascii "[1]" ++ [0]), 10, notePath), ⟨ascii "[1]", 10, .readable⟩,
        .idle) := by decide
  obtain ⟨s, hs, hview⟩ := Option.map_eq_some_iff.mp hrun
  simp only [view, Prod.mk.injEq, Option.map_eq_some_iff] at hview
  obtain ⟨⟨e, he, hj, hm, hp⟩, hdisk, hpc⟩ := hview
  have hquiet : ∀ act ∈ loadActs, ∀ t, NoTornLoad t act := by
    intro act hact t
    simp only [loadActs, List.mem_cons, List.mem_replicate] at hact
    rcases hact with rfl | ⟨_, rfl⟩ <;> trivial
  have hreach := (Reach.start oneDb_start).of_runList_guarded loadActs hquiet hs
  refine ⟨s, e, hs, he, hj, ?_⟩
  exact no_edit_masked false s hreach (idle_of_view hs hpc (by decide)) 0 e _ he hj
    (by rw [hp, hdisk, hm])

/-- A call whose first load reads the old file, a replacement, and only then the `stat`. -/
def tornActs : List Act :=
  .call 0 0 :: List.replicate 8 stepOk ++ [.replace notePath (ascii "[2]") 11] ++
    List.replicate 2 stepOk

/-- What a matching mtime would have to mean in every run. -/
def MtimeTells (inPlace : Bool) : Prop :=
  ∀ s, Reach Start (StepOf (exec inPlace)) s → (∀ t, (s.pc t).target = none) →
    ∀ index e b, entryAt s.cache index = some e → e.json = some b →
      e.mtime = (s.disk e.path).mtime → b = (s.disk e.path).content ++ [0]

theorem not_mtimeTells (inPlace : Bool) : ¬ MtimeTells inPlace := by
  intro hall
  have hrun : (runList (exec inPlace) oneDb tornActs).map view =
      some (some (some (ascii "[1]" ++ [0]), 11, notePath), ⟨ascii "[2]", 11, .readable⟩,
        .idle) := by
    cases inPlace <;> decide
  obtain ⟨s, hs, hview⟩ := Option.map_eq_some_iff.mp hrun
  simp only [view, Prod.mk.injEq, Option.map_eq_some_iff] at hview
  obtain ⟨⟨e, he, hj, hm, hp⟩, hdisk, hpc⟩ := hview
  have hsame := hall s (Reach.of_runList tornActs (.start oneDb_start) hs)
    (idle_of_view hs hpc (by decide)) 0 e _ he hj (by rw [hp, hdisk, hm])
  rw [hp, hdisk] at hsame
  exact absurd hsame (by decide)

theorem edit_masked : ¬ MtimeTells false ∧ ¬ MtimeTells true :=
  ⟨not_mtimeTells false, not_mtimeTells true⟩

end LocalMarks.BookmarkCache.Interleave

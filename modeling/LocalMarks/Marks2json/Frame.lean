import LocalMarks.Marks2json.History
import LocalMarks.Marks2json.Lines

/-!
# What update keeps and adds

The stored database after a run, URL by URL: every slot is what its lines make of the slot before.
-/

namespace LocalMarks.Marks2json
open LocalMarks.Lib

/-- The environment in which a run of update reads its files. -/
def RunArgs.updateEnv (args : RunArgs) (lib : PyLib) (db : Database) : ParseEnv :=
  args.parseEnv lib fun url => ((MergeState.load db).existing url).map (·.2)

/-- The files of a run are read without an exception. -/
def Parses (lib : PyLib) (args : RunArgs) (db : Database) (newCategories : List Category) : Prop :=
  ∃ st, processFiles (args.updateEnv lib db) args.files (.start args.loadIconCache) =
    some (newCategories, st)

theorem parses_of_readable (lib : PyLib) {args : RunArgs} (db : Database)
    (h : Readable args.files) : ∃ newCategories, Parses lib args db newCategories := by
  obtain ⟨⟨newCategories, st⟩, hst⟩ :=
    processFiles_isSome (args.updateEnv lib db) h (.start args.loadIconCache)
  exact ⟨newCategories, st, hst⟩

/-! ### A run that counts nothing does nothing -/

def MergeState.work (acc : MergeState × List ℕ) : ℕ :=
  acc.1.addedTotal + acc.1.updatedTotal + acc.2.length

theorem mergeBookmark_work (override : Bool) (acc : MergeState × List ℕ) (bm : Bookmark) :
    mergeBookmark override acc bm = acc ∨
      MergeState.work acc < MergeState.work (mergeBookmark override acc bm) := by
  obtain ⟨st, addedBms⟩ := acc
  obtain hsame | ⟨id, old, _, _, _, _, hover⟩ | ⟨_, _, hnew⟩ :=
    mergeBookmark_cases override st addedBms bm
  · exact Or.inl hsame
  · right
    rw [hover]
    show st.addedTotal + st.updatedTotal + addedBms.length <
      st.addedTotal + (st.updatedTotal + 1) + addedBms.length
    omega
  · right
    rw [hnew]
    show _ < st.addedTotal + st.updatedTotal + (addedBms ++ [st.heap.length]).length
    rw [List.length_append, List.length_singleton]
    exact Nat.lt_succ_self _

theorem foldl_grows {α β : Type*} {f : β → α → β} {m : β → ℕ}
    (hf : ∀ b a, f b a = b ∨ m b < m (f b a)) (l : List α) (b : β) :
    l.foldl f b = b ∨ m b < m (l.foldl f b) := by
  induction l generalizing b with
  | nil => exact Or.inl rfl
  | cons a l ih =>
    rw [List.foldl_cons]
    rcases hf b a with hsame | hlt
    · rw [hsame]
      exact ih b
    · rcases ih (f b a) with hrest | hrest
      · rw [hrest]
        exact Or.inr hlt
      · exact Or.inr (hlt.trans hrest)

theorem mergeCategory_work (override : Bool) (st : MergeState) (newCat : Category) :
    mergeCategory override st newCat = st ∨
      MergeState.work (st, []) < MergeState.work (mergeCategory override st newCat, []) := by
  have hloop := foldl_grows (mergeBookmark_work override) newCat.bookmarks (st, [])
  obtain ⟨st', addedBms, hfold, ⟨rfl, hcat⟩ | ⟨hadded, hcat⟩⟩ :=
    mergeCategory_cases override st newCat
  · rw [hfold] at hloop
    rw [hcat]
    rcases hloop with hsame | hlt
    · exact Or.inl (Prod.mk.inj hsame).1
    · exact Or.inr hlt
  · rw [hfold] at hloop
    right
    rcases hloop with hsame | hlt
    · exact absurd (Prod.mk.inj hsame).2 hadded
    · rw [hcat]
      show _ < st'.addedTotal + addedBms.length + st'.updatedTotal + 0
      have hwork : MergeState.work (st', addedBms) =
          st'.addedTotal + st'.updatedTotal + addedBms.length := rfl
      omega

theorem mergeCategories_idle {override : Bool} {newCats : List Category} {db : Database}
    (hadded : (newCats.foldl (mergeCategory override) (.load db)).addedTotal = 0)
    (hupdated : (newCats.foldl (mergeCategory override) (.load db)).updatedTotal = 0) :
    newCats.foldl (mergeCategory override) (.load db) = .load db := by
  rcases foldl_grows (m := fun st => MergeState.work (st, [])) (mergeCategory_work override)
    newCats (.load db) with hsame | hlt
  · exact hsame
  · have hzero : MergeState.work (newCats.foldl (mergeCategory override) (.load db), []) = 0 := by
      rw [MergeState.work, hadded, hupdated]
      rfl
    rw [hzero] at hlt
    cases hlt

/-! ### The stored database -/

theorem parses_lines {lib : PyLib} {args : RunArgs} {db : Database} {newCategories : List Category}
    (h : Parses lib args db newCategories) :
    (filed newCategories).map Entry.bare = inputLines lib args.files := by
  obtain ⟨st, hst⟩ := h
  exact processFiles_bare hst

theorem parses_url {lib : PyLib} {args : RunArgs} {db : Database} {newCategories : List Category}
    (h : Parses lib args db newCategories) : ∀ line ∈ filed newCategories, line.url ≠ [] := by
  intro line hline
  have hbare : line.bare ∈ inputLines lib args.files := by
    rw [← parses_lines h]
    exact List.mem_map_of_mem hline
  have hne : line.bare.url ≠ [] := inputLines_url hbare
  exact hne

theorem cmdUpdate_eq {lib : PyLib} {args : RunArgs} {override : Bool} {db : Database}
    {newCategories : List Category} (h : Parses lib args db newCategories) :
    cmdUpdate lib args override db =
      let st := newCategories.foldl (mergeCategory override) (.load db)
      if st.addedTotal = 0 ∧ st.updatedTotal = 0 then .nothingWritten
      else .written (.of (sortDatabase lib st.categories) st.counters) := by
  obtain ⟨st, hst⟩ := h
  simp only [cmdUpdate]
  rw [show args.parseEnv lib (fun url => ((MergeState.load db).existing url).map (·.2)) =
    args.updateEnv lib db from rfl, hst]

/-- What a run leaves under each URL is what the lines with the URL make of what was there. -/
theorem cmdUpdate_slots {lib : PyLib} {args : RunArgs} {db : Database}
    {newCategories : List Category} (hdb : db.DistinctUrls)
    (h : Parses lib args db newCategories) (override : Bool) :
    ((cmdUpdate lib args override db).stored db).DistinctUrls ∧
      ∀ url, (((cmdUpdate lib args override db).stored db).slot url).entry =
        (((filed newCategories).filter (·.url = url)).foldl (Slot.merge override)
          (db.slot url)).entry := by
  have hrep := mergeCategories_represents override newCategories (parses_url h) (.load hdb)
  rw [cmdUpdate_eq h]
  dsimp only
  generalize hst : newCategories.foldl (mergeCategory override) (.load db) = st at hrep
  -- the categories of the objects, as a database
  have hcats : ∀ db' : Database, db'.entries.Perm (filed st.categories) → db'.DistinctUrls ∧
      ∀ url, (db'.slot url).entry =
        (((filed newCategories).filter (·.url = url)).foldl (Slot.merge override)
          (db.slot url)).entry := by
    intro db' hperm
    have hdistinct : db'.DistinctUrls := by
      refine (hperm.map Entry.url).nodup_iff.mpr ?_
      rw [filed_urls, allBookmarks_categories]
      have hids : st.refs.map Prod.snd = st.bookMarks.flatMap (·.bookmarks) := by
        rw [MergeState.refs, List.map_flatMap]
        simp
      have howned := hrep.owned
      rw [hids] at howned
      exact ((deref_perm howned).map Bookmark.url).nodup_iff.mpr hrep.distinct
    refine ⟨hdistinct, fun url => ?_⟩
    rw [← foldl_slotwise]
    apply Option.ext
    intro e
    rw [Database.slot_entry hdistinct, hperm.mem_iff, filed_categories, hrep.entries]
    constructor
    · rintro ⟨he, rfl⟩
      exact he
    · intro he
      have hurl := hrep.keyed url e he
      exact ⟨hurl ▸ he, hurl⟩
  by_cases hidle : st.addedTotal = 0 ∧ st.updatedTotal = 0
  · rw [if_pos hidle]
    apply hcats
    subst hst
    rw [mergeCategories_idle hidle.1 hidle.2, load_categories]
    exact List.Perm.refl _
  · rw [if_neg hidle]
    exact hcats _ (filed_sortDatabase lib st.categories)

/-! ### One slot over its lines -/

namespace Slot

theorem merge_false {slot : Slot} {e : Entry} (hslot : slot.entry = some e) (line : Entry) :
    slot.merge false line = slot := by
  unfold merge
  split
  · rfl
  · rw [hslot]
    rfl

theorem merge_first (override : Bool) {slot : Slot} (hentry : slot.entry = none)
    (hknown : slot.known = []) (line : Entry) :
    slot.merge override line = ⟨some line, [line.bookmark]⟩ := by
  rw [merge, hentry, hknown, if_neg List.not_mem_nil]

theorem foldl_merge_entry (override : Bool) {P : Entry → Prop} (lines : List Entry)
    (hupdate : ∀ line ∈ lines, ∀ e, P e → P ⟨e.category, e.bookmark.update line.bookmark⟩)
    {slot : Slot} {e : Entry} (hslot : slot.entry = some e) (he : P e) :
    ∃ e', (lines.foldl (merge override) slot).entry = some e' ∧ P e' := by
  induction lines generalizing slot e with
  | nil => exact ⟨e, hslot, he⟩
  | cons line lines ih =>
    have hstep : ∃ e', (slot.merge override line).entry = some e' ∧ P e' := by
      unfold merge
      split
      · exact ⟨e, hslot, he⟩
      · rw [hslot]
        cases override with
        | true => exact ⟨_, rfl, hupdate line (List.mem_cons_self ..) e he⟩
        | false => exact ⟨e, hslot, he⟩
    obtain ⟨e', hslot', he'⟩ := hstep
    exact ih (fun x hx => hupdate x (List.mem_cons_of_mem _ hx)) hslot' he'

theorem foldl_merge_kept (override : Bool) (lines : List Entry) {slot : Slot} {e : Entry}
    (hslot : slot.entry = some e) (hlines : ∀ line ∈ lines, line.url = e.url) :
    ∃ e', (lines.foldl (merge override) slot).entry = some e' ∧ e'.category = e.category ∧
      e'.url = e.url :=
  foldl_merge_entry override (P := fun e' => e'.category = e.category ∧ e'.url = e.url) lines
    (fun line hline _ he' => ⟨he'.1, hlines line hline⟩) hslot ⟨rfl, rfl⟩

theorem foldl_merge_new (override : Bool) {slot : Slot} (hentry : slot.entry = none)
    (hknown : slot.known = []) {lines : List Entry} (hne : lines ≠ []) {url : Str}
    (hlines : ∀ line ∈ lines, line.url = url) :
    ∃ e, (lines.foldl (merge override) slot).entry = some e ∧ e.url = url := by
  cases lines with
  | nil => exact absurd rfl hne
  | cons head rest =>
    have hhead : head.url = url := hlines head (List.mem_cons_self ..)
    have hfiled : (slot.merge override head).entry = some head := by
      rw [merge_first override hentry hknown]
    obtain ⟨e, he, _, hurl⟩ := foldl_merge_kept override rest hfiled fun x hx =>
      (hlines x (List.mem_cons_of_mem _ hx)).trans hhead.symm
    exact ⟨e, he, hurl.trans hhead⟩

theorem foldl_merge_false (lines : List Entry) {slot : Slot} {e : Entry}
    (hslot : slot.entry = some e) : lines.foldl (merge false) slot = slot := by
  induction lines with
  | nil => rfl
  | cons line lines ih => rw [List.foldl_cons, merge_false hslot, ih]

end Slot

theorem Database.slot_known_of_none {db : Database} {url : Str}
    (h : (db.slot url).entry = none) : (db.slot url).known = [] := by
  apply List.eq_nil_iff_forall_not_mem.mpr
  intro bm hbm
  obtain ⟨_, e, he, _⟩ := Database.slot_known.mp hbm
  rw [h] at he
  cases he

/-! ### What a run keeps and adds -/

/-- What every run does: no bookmark is lost, the URLs of the input are there, the rest is as it
was. -/
structure Merged (lines : List Entry) (db db' : Database) : Prop where
  distinct : db'.DistinctUrls
  untouched : ∀ e ∈ db.entries, (∀ line ∈ lines, line.url ≠ e.url) → e ∈ db'.entries
  kept : ∀ e ∈ db.entries, ∃ e' ∈ db'.entries, e'.category = e.category ∧ e'.url = e.url
  present : ∀ line ∈ lines, ∃ e ∈ db'.entries, e.url = line.url

/-- Without override: what was there is unchanged, and a new URL gets its first line. -/
structure OnlyAdded (lines : List Entry) (db db' : Database) : Prop where
  unchanged : ∀ e ∈ db.entries, e ∈ db'.entries
  first : ∀ line, lines.find? (·.url = line.url) = some line →
    (∀ e ∈ db.entries, e.url ≠ line.url) → line ∈ db'.entries

section
variable {lib : PyLib} {args : RunArgs} {db : Database} {newCategories : List Category}

theorem cmdUpdate_merged (hdb : db.DistinctUrls) (h : Parses lib args db newCategories)
    (override : Bool) :
    Merged (filed newCategories) db ((cmdUpdate lib args override db).stored db) := by
  obtain ⟨hdistinct, hslots⟩ := cmdUpdate_slots hdb h override
  generalize (cmdUpdate lib args override db).stored db = db' at hdistinct hslots
  have hmem : ∀ e url, (((filed newCategories).filter (·.url = url)).foldl (Slot.merge override)
      (db.slot url)).entry = some e → e ∈ db'.entries := fun e url he =>
    ((Database.slot_entry hdistinct).mp ((hslots url).trans he)).1
  have hurls : ∀ url, ∀ line ∈ (filed newCategories).filter (·.url = url), line.url = url :=
    fun url line hline => of_decide_eq_true (List.mem_filter.mp hline).2
  have hkept : ∀ e ∈ db.entries, ∃ e' ∈ db'.entries, e'.category = e.category ∧ e'.url = e.url := by
    intro e he
    have hslot : (db.slot e.url).entry = some e := (Database.slot_entry hdb).mpr ⟨he, rfl⟩
    obtain ⟨e', he', hcat, hurl⟩ := Slot.foldl_merge_kept override _ hslot (hurls e.url)
    exact ⟨e', hmem e' e.url he', hcat, hurl⟩
  refine ⟨hdistinct, fun e he hlines => ?_, hkept, fun line hline => ?_⟩
  · have hslot : (db.slot e.url).entry = some e := (Database.slot_entry hdb).mpr ⟨he, rfl⟩
    have hnone : (filed newCategories).filter (·.url = e.url) = [] :=
      List.filter_eq_nil_iff.mpr fun line hline => by simpa using hlines line hline
    apply hmem e e.url
    rw [hnone]
    exact hslot
  · cases hslot : (db.slot line.url).entry with
    | some e =>
      obtain ⟨he, hurl⟩ := (Database.slot_entry hdb).mp hslot
      obtain ⟨e', he', _, hurl'⟩ := hkept e he
      exact ⟨e', he', hurl'.trans hurl⟩
    | none =>
      have hline' : line ∈ (filed newCategories).filter (·.url = line.url) :=
        List.mem_filter.mpr ⟨hline, decide_eq_true rfl⟩
      obtain ⟨e, he, hurl⟩ := Slot.foldl_merge_new override hslot
        (Database.slot_known_of_none hslot) (List.ne_nil_of_mem hline') (hurls line.url)
      exact ⟨e, hmem e line.url he, hurl⟩

theorem cmdUpdate_onlyAdded (hdb : db.DistinctUrls) (h : Parses lib args db newCategories) :
    OnlyAdded (filed newCategories) db ((cmdUpdate lib args false db).stored db) := by
  obtain ⟨hdistinct, hslots⟩ := cmdUpdate_slots hdb h false
  generalize (cmdUpdate lib args false db).stored db = db' at hdistinct hslots
  refine ⟨fun e he => ?_, fun line hfirst hnew => ?_⟩
  · have hslot : (db.slot e.url).entry = some e := (Database.slot_entry hdb).mpr ⟨he, rfl⟩
    have he' := hslots e.url
    rw [Slot.foldl_merge_false _ hslot, hslot] at he'
    exact ((Database.slot_entry hdistinct).mp he').1
  · have hslot : (db.slot line.url).entry = none := by
      cases hentry : (db.slot line.url).entry with
      | none => rfl
      | some e =>
        obtain ⟨he, hurl⟩ := (Database.slot_entry hdb).mp hentry
        exact absurd hurl (hnew e he)
    have hhead : ((filed newCategories).filter (·.url = line.url)).head? = some line := by
      rw [List.head?_filter]
      exact hfirst
    obtain ⟨rest, hrest⟩ := List.head?_eq_some_iff.mp hhead
    have he := hslots line.url
    rw [hrest, List.foldl_cons,
      Slot.merge_first false hslot (Database.slot_known_of_none hslot),
      Slot.foldl_merge_false rest (e := line) rfl] at he
    exact ((Database.slot_entry hdistinct).mp he).1

end

/-! ### The second run -/

theorem mergeBookmarks_idle {st : MergeState} (bms : List Bookmark)
    (h : ∀ bm ∈ bms, st.existing bm.url ≠ none) :
    bms.foldl (mergeBookmark false) (st, []) = (st, []) := by
  induction bms with
  | nil => rfl
  | cons bm bms ih =>
    obtain hsame | ⟨_, _, hno, _⟩ | ⟨_, hnone, _⟩ := mergeBookmark_cases false st [] bm
    · rw [List.foldl_cons, hsame]
      exact ih fun x hx => h x (List.mem_cons_of_mem _ hx)
    · cases hno
    · exact absurd hnone (h bm (List.mem_cons_self ..))

theorem mergeCategories_stored {st : MergeState} (newCats : List Category)
    (h : ∀ line ∈ filed newCats, st.existing line.url ≠ none) :
    newCats.foldl (mergeCategory false) st = st := by
  induction newCats with
  | nil => rfl
  | cons newCat newCats ih =>
    have hcat : mergeCategory false st newCat = st := by
      rw [mergeCategory, mergeBookmarks_idle newCat.bookmarks fun bm hbm =>
        h ⟨newCat.category, bm⟩ (List.mem_append_left _ (List.mem_map_of_mem hbm))]
      rfl
    rw [List.foldl_cons, hcat]
    exact ih fun line hline => h line (List.mem_append_right _ hline)

theorem cmdUpdate_nothingWritten {lib : PyLib} {args : RunArgs} {db : Database}
    (hdb : db.DistinctUrls) (hread : Readable args.files)
    (hlines : ∀ line ∈ inputLines lib args.files, ∃ e ∈ db.entries, e.url = line.url) :
    cmdUpdate lib args false db = .nothingWritten := by
  obtain ⟨newCategories, hparse⟩ := parses_of_readable lib db hread
  have hidle : newCategories.foldl (mergeCategory false) (.load db) = .load db := by
    apply mergeCategories_stored
    intro line hline hnone
    have hbare : line.bare ∈ inputLines lib args.files := by
      rw [← parses_lines hparse]
      exact List.mem_map_of_mem hline
    obtain ⟨e, he, hurl⟩ := hlines line.bare hbare
    have hslot : (db.slot line.url).entry = some e := (Database.slot_entry hdb).mpr ⟨he, hurl⟩
    have hfound := (Represents.load hdb).existing_bookmark (parses_url hparse line hline)
    rw [hnone, hslot] at hfound
    cases hfound
  rw [cmdUpdate_eq hparse, hidle]
  exact if_pos ⟨rfl, rfl⟩

/-- Both modes keep what they are not asked to change. Without override a run only adds, and the
same files a second time add nothing. -/
theorem cmdUpdate_frame {lib : PyLib} {args : RunArgs} {db : Database}
    {newCategories : List Category} (hdb : db.DistinctUrls)
    (h : Parses lib args db newCategories) (override : Bool) :
    let db' := (cmdUpdate lib args override db).stored db
    Merged (filed newCategories) db db' ∧
      (override = false → OnlyAdded (filed newCategories) db db' ∧
        ∀ again : RunArgs, again.files = args.files →
          cmdUpdate lib again false db' = .nothingWritten) := by
  have hmerged := cmdUpdate_merged hdb h override
  refine ⟨hmerged, fun hover => ?_⟩
  subst hover
  refine ⟨cmdUpdate_onlyAdded hdb h, fun again hfiles => ?_⟩
  obtain ⟨st, hst⟩ := h
  apply cmdUpdate_nothingWritten hmerged.distinct
  · rw [hfiles]
    exact processFiles_readable hst
  · rw [hfiles, ← parses_lines ⟨st, hst⟩]
    intro line hline
    obtain ⟨new, hnew, rfl⟩ := List.mem_map.mp hline
    exact hmerged.present new hnew

theorem plainArgs_readable (text : String) : Readable (plainArgs text).files := by
  intro file hfile hbad
  rw [List.mem_singleton.mp hfile] at hbad
  cases hbad

theorem createdDatabase_distinctUrls : createdDatabase.DistinctUrls := by
  unfold Database.DistinctUrls
  decide +kernel

theorem cmdUpdate_frame_override :
    let db' := (cmdUpdate plainLib overrideArgs false createdDatabase).stored createdDatabase
    createdDatabase.entries.length = 2 ∧ db'.entries.length = 3 ∧ db'.DistinctUrls ∧
      (∀ e ∈ createdDatabase.entries, e ∈ db'.entries) ∧
      cmdUpdate plainLib overrideArgs false db' = .nothingWritten := by
  obtain ⟨newCategories, hparse⟩ :=
    parses_of_readable plainLib createdDatabase (plainArgs_readable _)
  obtain ⟨hmerged, hadded⟩ := cmdUpdate_frame createdDatabase_distinctUrls hparse false
  obtain ⟨honly, hagain⟩ := hadded rfl
  exact ⟨by decide +kernel, by decide +kernel, hmerged.distinct, honly.unchanged,
    hagain overrideArgs rfl⟩

end LocalMarks.Marks2json

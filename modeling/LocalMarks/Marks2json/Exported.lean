import LocalMarks.Lib.Collect
import LocalMarks.Marks2json.History
import LocalMarks.Marks2json.Lines
import LocalMarks.Marks2json.RoundTrip

/-!
# Lines of stored bookmarks

Whatever a line says, what is read from it can be written as a line again. So every stored bookmark
can: the categories of any database can be exported to text files and read back.
-/

namespace LocalMarks.Marks2json
open LocalMarks.Lib

/-! ### Parts of a text -/

theorem mem_splitOnP {p : Char → Bool} {s piece : Str} (h : piece ∈ s.splitOnP p) :
    ∀ c ∈ piece, p c = false ∧ c ∈ s := by
  induction s generalizing piece with
  | nil =>
    rw [List.mem_singleton.mp h]
    exact fun c hc => absurd hc List.not_mem_nil
  | cons x s ih =>
    have hlater : ∀ part ∈ s.splitOnP p, ∀ c ∈ part, p c = false ∧ c ∈ x :: s :=
      fun part hpart c hc => ⟨(ih hpart c hc).1, List.mem_cons_of_mem x (ih hpart c hc).2⟩
    rw [List.splitOnP_cons_eq_if_modifyHead] at h
    split at h
    · rcases List.mem_cons.mp h with rfl | h
      · exact fun c hc => absurd hc List.not_mem_nil
      · exact hlater piece h
    next hx =>
      cases hsplit : s.splitOnP p with
      | nil => exact absurd hsplit (List.splitOnP_ne_nil p s)
      | cons first rest =>
        rw [hsplit, List.modifyHead_cons] at h
        rcases List.mem_cons.mp h with rfl | h
        · -- the first part is the one that `x` belongs to
          intro c hc
          rcases List.mem_cons.mp hc with rfl | hc
          · exact ⟨Bool.eq_false_iff.mpr hx, List.mem_cons_self ..⟩
          · exact hlater first (hsplit ▸ List.mem_cons_self ..) c hc
        · exact hlater piece (hsplit ▸ List.mem_cons_of_mem first h)

theorem strip_idem (s : Str) : strip (strip s) = strip s := by
  rw [strip_eq s, strip_rstrip, strip_lstrip, strip_eq]

theorem mem_of_mem_lstrip {s : Str} {c : Char} (h : c ∈ lstrip s) : c ∈ s :=
  (List.dropWhile_sublist _).subset h

theorem mem_of_mem_strip {s : Str} {c : Char} (h : c ∈ strip s) : c ∈ s :=
  mem_of_mem_lstrip (List.mem_reverse.mp (mem_of_mem_lstrip (List.mem_reverse.mp h)))

/-- A stripped text without a bar, all of it from the line. -/
def PartOf (line x : Str) : Prop := strip x = x ∧ ∀ c ∈ x, c ≠ '|' ∧ c ∈ line

theorem mem_lineParts {line x : Str} (h : x ∈ lineParts line) : PartOf line x := by
  obtain ⟨y, hy, rfl⟩ := List.mem_map.mp h
  have hpiece := (List.mem_filter.mp hy).1
  rw [List.splitOn_eq_splitOnP] at hpiece
  refine ⟨strip_idem y, fun c hc => ?_⟩
  obtain ⟨hbar, hmem⟩ := mem_splitOnP hpiece c (mem_of_mem_strip hc)
  exact ⟨beq_eq_false_iff_ne.mp hbar, mem_of_mem_strip hmem⟩

theorem mem_words {s w : Str} (h : w ∈ words s) :
    w ≠ [] ∧ ∀ c ∈ w, isSpace c = false ∧ c ∈ s := by
  obtain ⟨hmem, hne⟩ := List.mem_filter.mp h
  exact ⟨of_decide_eq_true hne, mem_splitOnP hmem⟩

/-! ### What is read from a line -/

/-- The fields that the parts of a line have filled in so far. -/
structure Fields.ReadFrom (line : Str) (f : Fields) : Prop where
  url : f.url = [] ∨ startsWithScheme f.url = true
  urlPart : PartOf line f.url
  title : PlainText f.title
  titlePart : PartOf line f.title
  description : PlainText f.description
  descriptionPart : PartOf line f.description
  titled : f.title ≠ [] ∨ f.description = []
  tags : ∀ t ∈ f.tags, TagText t ∧ ∀ c ∈ t, c ≠ '|' ∧ c ∈ line

theorem plainText_nil : PlainText [] := ⟨fun h => absurd h.length_le (by decide), by decide⟩

theorem partOf_nil (line : Str) : PartOf line [] := ⟨rfl, nofun⟩

theorem Fields.ReadFrom.empty (line : Str) : Fields.ReadFrom line .empty where
  url := Or.inl rfl
  urlPart := partOf_nil line
  title := plainText_nil
  titlePart := partOf_nil line
  description := plainText_nil
  descriptionPart := partOf_nil line
  titled := Or.inr rfl
  tags := nofun

theorem mem_readTags {part t : Str} (h : t ∈ readTags part) : TagText t ∧ ∀ c ∈ t, c ∈ part := by
  obtain ⟨w, hw, rfl⟩ := List.mem_map.mp h
  obtain ⟨hword, htag⟩ := List.mem_filter.mp hw
  have hchars := (mem_words hword).2
  have hspace : ∀ c ∈ w, isSpace c = false := fun c hc => (hchars c hc).1
  rw [strip_of_chars hspace]
  refine ⟨?_, fun c hc => (hchars c hc).2⟩
  rw [isTag, Bool.and_eq_true, decide_eq_true_eq, decide_eq_true_eq] at htag
  obtain ⟨⟨r, rfl⟩, hrest⟩ := htag
  refine ⟨r, rfl, ?_, fun c hc => hspace c (List.mem_cons_of_mem _ hc)⟩
  rintro rfl
  exact hrest (by decide)

theorem Fields.ReadFrom.readPart {line x : Str} {f : Fields} (h : f.ReadFrom line)
    (hx : PartOf line x) : (f.readPart x).ReadFrom line := by
  unfold Fields.readPart
  split
  next hscheme => exact { h with url := Or.inr hscheme, urlPart := hx }
  next hscheme =>
    have hscheme := Bool.eq_false_iff.mpr hscheme
    split
    · refine { h with tags := fun t ht => ?_ }
      rcases List.mem_append.mp ht with ht | ht
      · exact h.tags t ht
      · obtain ⟨htext, hchars⟩ := mem_readTags ht
        exact ⟨htext, fun c hc => hx.2 c (hchars c hc)⟩
    next hhash =>
      split
      next htitle =>
        -- without a title there is no description yet
        have hdesc := h.titled.resolve_left (not_not.mpr htitle)
        exact { h with title := ⟨hhash, hscheme⟩, titlePart := hx, titled := Or.inr hdesc }
      next htitle =>
        split
        · exact { h with
            description := ⟨hhash, hscheme⟩, descriptionPart := hx, titled := Or.inl htitle }
        · exact h

theorem readFrom_parts {line : Str} {parts : List Str} (hparts : ∀ x ∈ parts, PartOf line x)
    {f : Fields} (h : f.ReadFrom line) : (parts.foldl Fields.readPart f).ReadFrom line := by
  induction parts generalizing f with
  | nil => exact h
  | cons x parts ih =>
    exact ih (fun y hy => hparts y (List.mem_cons_of_mem x hy))
      (h.readPart (hparts x (List.mem_cons_self ..)))

theorem readFields_readFrom {line : Str} {f : Fields} (h : readFields line = some f) :
    f.ReadFrom line ∧ f.url ≠ [] := by
  refine ⟨?_, readFields_url h⟩
  unfold readFields at h
  split at h
  · cases h
  · split at h
    · cases h
    · split at h
      · cases h
      · dsimp only at h
        split at h
        · cases h
        · rw [← Option.some.inj h]
          exact readFrom_parts (fun x hx => mem_lineParts hx) (.empty line)

theorem Fields.ReadFrom.writable {line : Str} {f : Fields} (h : f.ReadFrom line)
    (hurl : f.url ≠ []) : f.Writable where
  url := h.url.resolve_left hurl
  title := h.title
  description := h.description
  stripped := by
    have hpart : ∀ x, PartOf line x → strip x = x ∧ '|' ∉ x :=
      fun x hx => ⟨hx.1, fun hbar => (hx.2 _ hbar).1 rfl⟩
    simp only [List.forall_mem_cons]
    exact ⟨hpart _ h.titlePart, hpart _ h.urlPart, hpart _ h.descriptionPart, nofun⟩
  tags := fun t ht => ⟨(h.tags t ht).1, fun hbar => ((h.tags t ht).2 _ hbar).1 rfl⟩

theorem readFields_line {line : Str} {f : Fields} (h : readFields line = some f) :
    readFields f.line = some f := by
  obtain ⟨hread, hurl⟩ := readFields_readFrom h
  rw [(hread.writable hurl).readFields, Fields.shifted]
  split
  next htitle =>
    have hdesc := hread.titled.resolve_left (not_not.mpr htitle)
    rw [hdesc, ← htitle]
    obtain ⟨title, url, description, tags⟩ := f
    cases htitle
    cases hdesc
    rfl
  · rfl

/-! ### Databases that were read from lines -/

/-- The bookmark was read from one line of a text, its domain from its URL. -/
def Bookmark.FromLine (lib : PyLib) (bm : Bookmark) : Prop :=
  ∃ line, (∀ c ∈ line, isLineBreak c = false) ∧ readFields line = some bm.fields ∧
    bm.domain = getDomain lib bm.url

theorem mem_splitlines {s line : Str} (h : line ∈ splitlines s) :
    ∀ c ∈ line, isLineBreak c = false := by
  have hmem : line ∈ s.splitOnP isLineBreak := by
    unfold splitlines at h
    dsimp only at h
    split at h
    · exact List.mem_of_mem_dropLast h
    · exact h
  exact fun c hc => (mem_splitOnP hmem c hc).1

theorem fromLine_of_bare {lib : PyLib} {line : Str} {f : Fields} {bm : Bookmark}
    (hline : ∀ c ∈ line, isLineBreak c = false) (hf : readFields line = some f)
    (h : f.entry lib = bm.bare) : bm.FromLine lib := by
  have hfields : bm.fields = f := congrArg Bookmark.fields h.symm
  have hdomain : bm.domain = getDomain lib f.url := congrArg Bookmark.domain h.symm
  refine ⟨line, hline, hfields ▸ hf, ?_⟩
  rw [hdomain, ← hfields]
  rfl

theorem processFiles_fromLine {env : ParseEnv} {files : List SourceFile} {st st' : ParseState}
    {cats : List Category} (h : processFiles env files st = some (cats, st')) :
    ∀ bm ∈ allBookmarks cats, bm.FromLine env.lib := by
  intro bm hbm
  rw [← filed_bookmarks] at hbm
  obtain ⟨e, he, rfl⟩ := List.mem_map.mp hbm
  have hbare := List.mem_map_of_mem (f := Entry.bare) he
  rw [processFiles_bare h] at hbare
  obtain ⟨file, -, hfile⟩ := List.mem_flatMap.mp hbare
  unfold SourceFile.lines at hfile
  split at hfile
  next decoded hcontent =>
    obtain ⟨f, hf, hentry⟩ := List.mem_map.mp hfile
    obtain ⟨line, hline, hread⟩ := List.mem_filterMap.mp hf
    exact fromLine_of_bare (mem_splitlines hline) hread (congrArg Entry.bookmark hentry)
  · cases hfile
  · cases hfile

theorem processSorted_filled {env : ParseEnv} {files : List SourceFile} {st st' : ParseState}
    {cats : List Category} (h : processSorted env files st = some (cats, st')) :
    ∀ cat ∈ cats, cat.bookmarks ≠ [] := by
  induction files generalizing st st' cats with
  | nil =>
    obtain ⟨rfl, rfl⟩ := Prod.mk.inj (Option.some.inj h)
    nofun
  | cons file files ih =>
    unfold processSorted at h
    split at h
    · exact ih h
    · cases h
    · obtain ⟨⟨rest, st''⟩, hrest, heq⟩ := Option.map_eq_some_iff.mp h
      obtain ⟨rfl, rfl⟩ := Prod.mk.inj heq
      intro cat hcat
      rcases List.mem_append.mp hcat with hcat | hcat
      · unfold categoryOf at hcat
        split at hcat
        · cases hcat
        next hne =>
          rw [List.mem_singleton.mp hcat]
          exact hne
      · exact ih hrest cat hcat

/-- The shape of a stored database: sorted, without empty categories, and with bookmarks that were
read from lines. -/
structure WellFormed (lib : PyLib) (cats : List Category) : Prop where
  categories : cats.Pairwise fun a b => lib.lower (strip a.category) ≤ lib.lower (strip b.category)
  bookmarks : ∀ cat ∈ cats, cat.bookmarks.Pairwise fun a b =>
    bookmarkSortKey lib a ≤ bookmarkSortKey lib b
  filled : ∀ cat ∈ cats, cat.bookmarks ≠ []
  fromLine : ∀ bm ∈ allBookmarks cats, bm.FromLine lib

theorem wellFormed_sortDatabase {lib : PyLib} {cats : List Category}
    (hfilled : ∀ cat ∈ cats, cat.bookmarks ≠ [])
    (hfrom : ∀ bm ∈ allBookmarks cats, bm.FromLine lib) :
    WellFormed lib (sortDatabase lib cats) where
  categories := sortBy_pairwise (fun cat : Category => lib.lower (strip cat.category)) _
  bookmarks := fun cat hcat => by
    obtain ⟨cat, -, rfl⟩ := List.mem_map.mp ((List.mem_insertionSort _).mp hcat)
    exact sortBy_pairwise (bookmarkSortKey lib) cat.bookmarks
  filled := fun cat hcat => by
    obtain ⟨cat, hmem, rfl⟩ := List.mem_map.mp ((List.mem_insertionSort _).mp hcat)
    intro hnil
    exact hfilled cat hmem (List.perm_nil.mp (hnil ▸ (sortBookmarks_perm lib cat.bookmarks).symm))
  fromLine := fun bm hbm => hfrom bm ((sortDatabase_perm lib cats).mem_iff.mp hbm)

theorem cmdCreate_wellFormed {lib : PyLib} {args : RunArgs} {db : Database}
    (h : cmdCreate lib args = .written db) : WellFormed lib db.bookMarks := by
  unfold cmdCreate at h
  split at h
  · cases h
  next cats st hparse =>
    obtain rfl := Outcome.written.inj h
    exact wellFormed_sortDatabase (processSorted_filled hparse) (processFiles_fromLine hparse)

/-! ### Merging keeps the shape -/

structure MergeState.Sound (lib : PyLib) (st : MergeState) : Prop where
  heap : ∀ bm ∈ st.heap, bm.FromLine lib
  filled : ∀ cat ∈ st.bookMarks, cat.bookmarks ≠ []

theorem loadCategories_filled {cats : List Category} (h : ∀ cat ∈ cats, cat.bookmarks ≠ [])
    (next : ℕ) : ∀ ref ∈ loadCategories next cats, ref.bookmarks ≠ [] := by
  induction cats generalizing next with
  | nil => nofun
  | cons cat cats ih =>
    intro ref href
    rcases List.mem_cons.mp href with rfl | href
    · intro hnil
      have hlen := congrArg List.length hnil
      rw [List.length_range', List.length_nil, List.length_eq_zero_iff] at hlen
      exact h cat (List.mem_cons_self ..) hlen
    · exact ih (fun c hc => h c (List.mem_cons_of_mem cat hc)) _ ref href

theorem extendCategory_filled {name : Str} {ids : List ℕ} {cats : List CategoryRef}
    (hids : ids ≠ []) (h : ∀ cat ∈ cats, cat.bookmarks ≠ []) :
    ∀ cat ∈ extendCategory name ids cats, cat.bookmarks ≠ [] := by
  induction cats with
  | nil =>
    intro cat hcat
    rw [List.mem_singleton.mp hcat]
    exact hids
  | cons first cats ih =>
    unfold extendCategory
    split
    · intro cat hcat
      rcases List.mem_cons.mp hcat with rfl | hcat
      · exact List.append_ne_nil_of_right_ne_nil _ hids
      · exact h cat (List.mem_cons_of_mem first hcat)
    · intro cat hcat
      rcases List.mem_cons.mp hcat with rfl | hcat
      · exact h cat (List.mem_cons_self ..)
      · exact ih (fun c hc => h c (List.mem_cons_of_mem first hc)) cat hcat

namespace MergeState.Sound
variable {lib : PyLib} {st : MergeState}

theorem load {db : Database} (h : WellFormed lib db.bookMarks) :
    (MergeState.load db).Sound lib :=
  ⟨h.fromLine, loadCategories_filled h.filled 0⟩

theorem mergeBookmark {acc : MergeState × List ℕ} (h : acc.1.Sound lib) (override : Bool)
    {bm : Bookmark} (hbm : bm.FromLine lib) : (mergeBookmark override acc bm).1.Sound lib := by
  obtain ⟨st, addedBms⟩ := acc
  obtain hsame | ⟨id, old, -, -, -, -, hover⟩ | ⟨-, -, hnew⟩ :=
    mergeBookmark_cases override st addedBms bm
  · rw [hsame]
    exact h
  · rw [hover]
    refine ⟨fun b hb => ?_, h.filled⟩
    -- an overwritten bookmark has the fields of the incoming one
    rcases List.mem_or_eq_of_mem_set hb with hb | rfl
    · exact h.heap b hb
    · exact hbm
  · rw [hnew]
    refine ⟨fun b hb => ?_, h.filled⟩
    rcases List.mem_append.mp hb with hb | hb
    · exact h.heap b hb
    · rw [List.mem_singleton.mp hb]
      exact hbm

theorem mergeBookmarks {bms : List Bookmark} (hbms : ∀ bm ∈ bms, bm.FromLine lib) (override : Bool)
    {acc : MergeState × List ℕ} (h : acc.1.Sound lib) :
    (bms.foldl (Marks2json.mergeBookmark override) acc).1.Sound lib := by
  induction bms generalizing acc with
  | nil => exact h
  | cons bm bms ih =>
    exact ih (fun b hb => hbms b (List.mem_cons_of_mem bm hb))
      (h.mergeBookmark override (hbms bm (List.mem_cons_self ..)))

theorem mergeCategory (h : st.Sound lib) (override : Bool) {newCat : Category}
    (hcat : ∀ bm ∈ newCat.bookmarks, bm.FromLine lib) :
    (mergeCategory override st newCat).Sound lib := by
  have hstart : (st, ([] : List ℕ)).1.Sound lib := h
  have hloop := mergeBookmarks hcat override hstart
  obtain ⟨st', addedBms, hfold, ⟨rfl, heq⟩ | ⟨hne, heq⟩⟩ := mergeCategory_cases override st newCat
  · rw [hfold] at hloop
    rw [heq]
    exact hloop
  · rw [hfold] at hloop
    rw [heq]
    exact ⟨hloop.heap, extendCategory_filled hne hloop.filled⟩

theorem mergeCategories {newCats : List Category}
    (hcats : ∀ bm ∈ allBookmarks newCats, bm.FromLine lib) (override : Bool)
    (h : st.Sound lib) :
    (newCats.foldl (Marks2json.mergeCategory override) st).Sound lib := by
  induction newCats generalizing st with
  | nil => exact h
  | cons newCat newCats ih =>
    obtain ⟨hcat, hrest⟩ := List.forall_mem_append.mp
      (show ∀ bm ∈ newCat.bookmarks ++ allBookmarks newCats, bm.FromLine lib from hcats)
    exact ih hrest (h.mergeCategory override hcat)

theorem categories (h : st.Sound lib) (hst : st.Consistent []) :
    (∀ cat ∈ st.categories, cat.bookmarks ≠ []) ∧
      ∀ bm ∈ allBookmarks st.categories, bm.FromLine lib := by
  constructor
  · intro cat hcat
    obtain ⟨ref, href, rfl⟩ := List.mem_map.mp hcat
    obtain ⟨id, ids, hids⟩ := List.exists_cons_of_ne_nil (h.filled ref href)
    have hid : id ∈ st.bookMarks.flatMap (·.bookmarks) ++ [] := by
      rw [List.append_nil]
      exact List.mem_flatMap.mpr ⟨ref, href, hids ▸ List.mem_cons_self ..⟩
    have hlt := List.mem_range.mp (hst.owned.mem_iff.mp hid)
    show deref st.heap ref.bookmarks ≠ []
    rw [hids, deref, List.filterMap_cons_some (List.getElem?_eq_getElem hlt)]
    exact List.cons_ne_nil _ _
  · intro bm hbm
    rw [allBookmarks_categories] at hbm
    obtain ⟨id, -, hget⟩ := List.mem_filterMap.mp hbm
    exact h.heap bm (List.mem_of_getElem? hget)

end MergeState.Sound

theorem cmdUpdate_wellFormed {lib : PyLib} {args : RunArgs} {override : Bool} {db db' : Database}
    (hdb : WellFormed lib db.bookMarks) (hagrees : db.Agrees)
    (h : cmdUpdate lib args override db = .written db') : WellFormed lib db'.bookMarks := by
  simp only [cmdUpdate] at h
  split at h
  · cases h
  next newCategories _ hparse =>
    split at h
    · cases h
    · obtain rfl := Outcome.written.inj h
      have hsound := (MergeState.Sound.load hdb).mergeCategories
        (processFiles_fromLine hparse) override
      have hconsistent := mergeCategories_consistent override newCategories (.load hagrees)
      obtain ⟨hfilled, hfrom⟩ := hsound.categories hconsistent
      exact wellFormed_sortDatabase hfilled hfrom

theorem healthyCategories_sound {lib : PyLib} (healthy : List Str) {cats : List Category}
    (h : ∀ bm ∈ allBookmarks cats, bm.FromLine lib) :
    (∀ cat ∈ healthyCategories healthy cats, cat.bookmarks ≠ []) ∧
      ∀ bm ∈ allBookmarks (healthyCategories healthy cats), bm.FromLine lib := by
  constructor
  · intro cat hcat
    exact of_decide_eq_true (List.mem_filter.mp hcat).2
  · intro bm hbm
    obtain ⟨cat, hcat, hbm⟩ := List.mem_flatMap.mp hbm
    obtain ⟨old, hold, rfl⟩ := List.mem_map.mp (List.mem_filter.mp hcat).1
    exact h bm (List.mem_flatMap.mpr ⟨old, hold, (List.mem_filter.mp hbm).1⟩)

theorem cmdFindDead_wellFormed {lib : PyLib} {args : FindDeadArgs} {healthy : Bool}
    {db db' : Database} (hdb : WellFormed lib db.bookMarks)
    (h : cmdFindDead lib args healthy db = .written db') : WellFormed lib db'.bookMarks := by
  simp only [cmdFindDead] at h
  split at h
  · cases h
  · split at h
    · cases h
    next results _ =>
      split at h
      · obtain rfl := Outcome.written.inj h
        obtain ⟨hfilled, hfrom⟩ := healthyCategories_sound
          (healthyUrls (deadStatuses lib args.status) results) hdb.fromLine
        exact wellFormed_sortDatabase hfilled hfrom
      · cases h

/-! ### Histories -/

def Command.lib : Command → PyLib
  | .update lib _ _ => lib
  | .findDead lib _ _ => lib

/-- The databases of histories whose runs all have the same text functions. -/
def StoredBy (lib : PyLib) (db : Database) : Prop :=
  Reach (fun db => ∃ args, cmdCreate lib args = .written db)
    (Guarded (StepOf nextDatabase) fun _ cmd => cmd.lib = lib) db

theorem StoredBy.stored {lib : PyLib} {db : Database} (h : StoredBy lib db) : Stored db := by
  induction h with
  | start hcreate => exact Reach.start ⟨lib, hcreate⟩
  | next cmd _ hstep ih => exact Reach.next cmd ih hstep.2

theorem StoredBy.wellFormed {lib : PyLib} {db : Database} (h : StoredBy lib db) :
    WellFormed lib db.bookMarks := by
  apply Reach.invariant (I := fun db => WellFormed lib db.bookMarks) ?_ ?_ h
  · rintro db ⟨args, hcreate⟩
    exact cmdCreate_wellFormed hcreate
  · rintro db cmd db' hreach hdb ⟨rfl, hstep⟩
    obtain rfl := Option.some.inj hstep
    cases hrun : cmd.run db with
    | raised => exact hdb
    | nothingWritten => exact hdb
    | written db'' =>
      have hagrees := (StoredBy.stored hreach).agrees
      cases cmd with
      | update lib args override => exact cmdUpdate_wellFormed hdb hagrees hrun
      | findDead lib args healthy => exact cmdFindDead_wellFormed hdb hrun

theorem updatedDatabase_storedBy : StoredBy plainLib updatedDatabase :=
  Reach.next (.update plainLib overrideArgs true)
    (Reach.start ⟨createdArgs, Outcome.eq_written (by decide +kernel) (.of [] .empty)⟩) ⟨rfl, rfl⟩

/-- Whatever commands run, the stored categories are sorted by name and their bookmarks by title,
no category is empty, and every bookmark is one that was read from a line. -/
theorem stored_wellFormed {lib : PyLib} {db : Database} (h : StoredBy lib db) :
    (db.bookMarks.Pairwise fun a b =>
      lib.lower (strip a.category) ≤ lib.lower (strip b.category)) ∧
    ∀ cat ∈ db.bookMarks, cat.bookmarks ≠ [] ∧
      (cat.bookmarks.Pairwise fun a b => bookmarkSortKey lib a ≤ bookmarkSortKey lib b) ∧
      ∀ bm ∈ cat.bookmarks, bm.FromLine lib := by
  have hdb := h.wellFormed
  refine ⟨hdb.categories, fun cat hcat => ⟨hdb.filled cat hcat, hdb.bookmarks cat hcat, ?_⟩⟩
  exact fun bm hbm => hdb.fromLine bm (List.mem_flatMap.mpr ⟨cat, hcat, hbm⟩)

theorem stored_wellFormed_override :
    (updatedDatabase.bookMarks.Pairwise fun a b =>
      plainLib.lower (strip a.category) ≤ plainLib.lower (strip b.category)) ∧
    ∀ cat ∈ updatedDatabase.bookMarks, cat.bookmarks ≠ [] ∧
      (cat.bookmarks.Pairwise fun a b =>
        bookmarkSortKey plainLib a ≤ bookmarkSortKey plainLib b) ∧
      ∀ bm ∈ cat.bookmarks, bm.FromLine plainLib :=
  stored_wellFormed updatedDatabase_storedBy

/-! ### Writing a category as a text file -/

/-- A text file with one line for each bookmark. -/
def exportText (bookmarks : List Bookmark) : Str :=
  bookmarks.flatMap fun bm => bm.fields.line ++ ['\n']

theorem splitlines_terminated {lines : List Str}
    (h : ∀ line ∈ lines, ∀ c ∈ line, isLineBreak c = false) :
    splitlines (lines.flatMap (· ++ ['\n'])) = lines := by
  have hsplit : (lines.flatMap (· ++ ['\n'])).splitOnP isLineBreak = lines ++ [[]] := by
    induction lines with
    | nil => rfl
    | cons line lines ih =>
      rw [List.flatMap_cons, List.append_assoc, List.singleton_append,
        List.splitOnP_append_cons _ _ (by decide),
        List.splitOnP_eq_singleton (h line (List.mem_cons_self ..)),
        ih fun l hl => h l (List.mem_cons_of_mem line hl)]
      rfl
  unfold splitlines
  dsimp only
  rw [hsplit, List.getLast?_concat, if_pos rfl, List.dropLast_concat]

theorem universalNewlines_plain {s : Str} (h : '\r' ∉ s) : universalNewlines s = s := by
  induction s with
  | nil => rfl
  | cons c s ih =>
    obtain ⟨hc, hs⟩ := List.ne_and_not_mem_of_not_mem_cons h
    rw [universalNewlines.eq_3 c s (fun _ hcr _ => hc hcr.symm) (fun hcr => hc hcr.symm), ih hs]

theorem mem_tagsText {tags : List Str} {c : Char} (h : c ∈ tagsText tags) :
    c = ' ' ∨ ∃ t ∈ tags, c ∈ t := by
  induction tags with
  | nil => exact absurd h List.not_mem_nil
  | cons t tags ih =>
    cases tags with
    | nil =>
      rw [tagsText_single] at h
      exact Or.inr ⟨t, List.mem_cons_self .., h⟩
    | cons u tags =>
      rw [tagsText_cons, List.mem_append, List.mem_cons] at h
      rcases h with h | h | h
      · exact Or.inr ⟨t, List.mem_cons_self .., h⟩
      · exact Or.inl h
      · rcases ih h with h | ⟨w, hw, hc⟩
        · exact Or.inl h
        · exact Or.inr ⟨w, List.mem_cons_of_mem t hw, hc⟩

/-- The line of a bookmark has nothing that the line it was read from did not have, but for blanks
and bars. -/
theorem mem_line {line : Str} {f : Fields} (h : readFields line = some f) {c : Char}
    (hc : c ∈ f.line) : c = ' ' ∨ c = '|' ∨ c ∈ line := by
  obtain ⟨hread, -⟩ := readFields_readFrom h
  have hpart : ∀ x, PartOf line x → c ∈ x → c ∈ line := fun x hx hmem => (hx.2 c hmem).2
  have htags : c ∈ tagsText f.tags → c = ' ' ∨ c ∈ line := by
    intro hmem
    rcases mem_tagsText hmem with hblank | ⟨t, ht, hct⟩
    · exact Or.inl hblank
    · exact Or.inr ((hread.tags t ht).2 c hct).2
  rw [Fields.line_eq] at hc
  simp only [List.mem_append, List.mem_cons, List.not_mem_nil, or_false] at hc
  have := hpart _ hread.titlePart
  have := hpart _ hread.urlPart
  have := hpart _ hread.descriptionPart
  tauto

theorem Bookmark.FromLine.line_breaks {lib : PyLib} {bm : Bookmark} (h : bm.FromLine lib) :
    ∀ c ∈ bm.fields.line, isLineBreak c = false := by
  obtain ⟨line, hline, hread, -⟩ := h
  intro c hc
  rcases mem_line hread hc with rfl | rfl | hc
  · decide
  · decide
  · exact hline c hc

theorem Bookmark.FromLine.readFields {lib : PyLib} {bm : Bookmark} (h : bm.FromLine lib) :
    (Marks2json.readFields bm.fields.line).map (Fields.entry lib) = some bm.bare := by
  obtain ⟨line, -, hread, hdomain⟩ := h
  rw [readFields_line hread, Option.map_some, Fields.entry, Bookmark.bare, hdomain]
  rfl

theorem exportText_lines (bookmarks : List Bookmark) : exportText bookmarks =
    (bookmarks.map fun bm => bm.fields.line).flatMap (· ++ ['\n']) := by
  rw [exportText, List.flatMap_map]

/-- A stored category that is written as a text file, a bookmark a line, is read back as the same
bookmarks in the same order, but for their icons. -/
theorem stored_exported {lib : PyLib} {db : Database} (h : StoredBy lib db) {cat : Category}
    (hcat : cat ∈ db.bookMarks) {env : ParseEnv} (henv : env.lib = lib) (st : ParseState) :
    (parseLines env (splitlines (universalNewlines (exportText cat.bookmarks))) st).1.map
      Bookmark.bare = cat.bookmarks.map Bookmark.bare := by
  have hfrom : ∀ bm ∈ cat.bookmarks, bm.FromLine lib := fun bm hbm =>
    h.wellFormed.fromLine bm (List.mem_flatMap.mpr ⟨cat, hcat, hbm⟩)
  have hbreaks : ∀ line ∈ cat.bookmarks.map fun bm => bm.fields.line,
      ∀ c ∈ line, isLineBreak c = false := by
    intro line hline
    obtain ⟨bm, hbm, rfl⟩ := List.mem_map.mp hline
    exact (hfrom bm hbm).line_breaks
  have hreturn : '\r' ∉ exportText cat.bookmarks := by
    intro hr
    obtain ⟨bm, hbm, hr⟩ := List.mem_flatMap.mp hr
    rcases List.mem_append.mp hr with hr | hr
    · exact absurd ((hfrom bm hbm).line_breaks _ hr) (by decide)
    · exact absurd hr (by decide)
  rw [parseLines_bare, universalNewlines_plain hreturn, exportText_lines,
    splitlines_terminated hbreaks, henv, List.filterMap_map, List.map_filterMap]
  have hread : ∀ bms : List Bookmark, (∀ bm ∈ bms, bm.FromLine lib) →
      bms.filterMap (fun bm => (readFields bm.fields.line).map (Fields.entry lib)) =
        bms.map Bookmark.bare := by
    intro bms hbms
    induction bms with
    | nil => rfl
    | cons bm bms ih =>
      have hbm := (hbms bm (List.mem_cons_self ..)).readFields
      rw [List.filterMap_cons, hbm, List.map_cons,
        ih fun b hb => hbms b (List.mem_cons_of_mem bm hb)]
  exact hread cat.bookmarks hfrom

/-- The first category of the database, and a run without icons. -/
def updatedCategory : Category := updatedDatabase.bookMarks.headD ⟨[], []⟩

def plainEnv : ParseEnv := ⟨plainLib, false, fun _ => none, fun _ _ => .failed⟩

theorem stored_exported_override :
    (parseLines plainEnv (splitlines (universalNewlines (exportText updatedCategory.bookmarks)))
      (.start ∅)).1.map Bookmark.bare = updatedCategory.bookmarks.map Bookmark.bare :=
  stored_exported updatedDatabase_storedBy (by decide +kernel) rfl _

end LocalMarks.Marks2json

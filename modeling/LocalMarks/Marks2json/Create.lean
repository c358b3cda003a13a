import LocalMarks.Marks2json.Lines

/-!
# URLs in a created database

`create` files the bookmarks of each input file under a category of their own and looks at no
URL twice.
-/

namespace LocalMarks.Marks2json
open LocalMarks.Lib

/-- No category has two bookmarks with the same URL. -/
def UniqueUrls (cats : List Category) : Prop := ∀ cat ∈ cats, (cat.bookmarks.map (·.url)).Nodup

/-- The URLs on the lines of a file that are not skipped. -/
def SourceFile.urls (lib : PyLib) (file : SourceFile) : List Str := (file.lines lib).map Entry.url

theorem sortDatabase_uniqueUrls (lib : PyLib) (cats : List Category) :
    UniqueUrls (sortDatabase lib cats) ↔ UniqueUrls cats := by
  have hsort : ∀ cat : Category,
      ((sortBookmarks lib cat.bookmarks).map (·.url)).Nodup ↔ (cat.bookmarks.map (·.url)).Nodup :=
    fun cat => ((sortBookmarks_perm lib cat.bookmarks).map _).nodup_iff
  simp only [UniqueUrls, sortDatabase, List.mem_insertionSort, List.mem_map,
    forall_exists_index, and_imp, forall_apply_eq_imp_iff₂, hsort]

theorem uniqueUrls_append (cats cats' : List Category) :
    UniqueUrls (cats ++ cats') ↔ UniqueUrls cats ∧ UniqueUrls cats' := List.forall_mem_append

theorem uniqueUrls_categoryOf (lib : PyLib) (file : SourceFile) (bookmarks : List Bookmark) :
    UniqueUrls (categoryOf lib file bookmarks) ↔ (bookmarks.map (·.url)).Nodup := by
  unfold categoryOf
  split
  · rename_i hnil
    rw [hnil]
    exact iff_of_true nofun List.nodup_nil
  · exact List.forall_mem_singleton

theorem parseLines_urls (env : ParseEnv) (lines : List Str) (st : ParseState) :
    (parseLines env lines st).1.map (·.url) = (lines.filterMap readFields).map (·.url) := by
  have hbare := congrArg (List.map fun bm : Bookmark => bm.url) (parseLines_bare env lines st)
  rw [List.map_map, List.map_map] at hbare
  exact hbare

theorem SourceFile.urls_text {lib : PyLib} {file : SourceFile} {decoded : Str}
    (h : file.content = .text decoded) : file.urls lib =
      ((splitlines (universalNewlines decoded)).filterMap readFields).map (·.url) := by
  rw [urls, lines, h]
  exact List.map_map ..

theorem processSorted_uniqueUrls {env : ParseEnv} {files : List SourceFile} {st st' : ParseState}
    {cats : List Category} (h : processSorted env files st = some (cats, st')) :
    UniqueUrls cats ↔ ∀ file ∈ files, (file.urls env.lib).Nodup := by
  induction files generalizing st st' cats with
  | nil =>
    obtain ⟨rfl, rfl⟩ := Prod.mk.inj (Option.some.inj h)
    exact iff_of_true nofun nofun
  | cons file files ih =>
    unfold processSorted at h
    rw [List.forall_mem_cons]
    split at h
    · rename_i hmissing
      have hnone : file.urls env.lib = [] := by
        rw [SourceFile.urls, SourceFile.lines, hmissing]
        rfl
      rw [ih h, hnone]
      simp
    · cases h
    · rename_i decoded htext
      obtain ⟨⟨rest, st''⟩, hrest, heq⟩ := Option.map_eq_some_iff.mp h
      obtain ⟨rfl, rfl⟩ := Prod.mk.inj heq
      rw [uniqueUrls_append, uniqueUrls_categoryOf, parseLines_urls, ih hrest,
        SourceFile.urls_text htext]

theorem cmdCreate_uniqueUrls {args : RunArgs} (lib : PyLib) (h : Readable args.files) :
    ∃ db, cmdCreate lib args = .written db ∧
      (UniqueUrls db.bookMarks ↔ ∀ file ∈ args.files, (file.urls lib).Nodup) := by
  obtain ⟨⟨cats, st⟩, hfiles⟩ := processFiles_isSome (args.parseEnv lib fun _ => none) h
    (.start args.loadIconCache)
  have hcreate : cmdCreate lib args = .written (.of (sortDatabase lib cats) st.counters) := by
    rw [cmdCreate, hfiles]
  refine ⟨_, hcreate, (sortDatabase_uniqueUrls lib cats).trans ?_⟩
  rw [processSorted_uniqueUrls hfiles]
  simp only [List.mem_insertionSort]
  rfl

/-- The database that is created has no URL twice in a category exactly when, unless reading a
file raises, no file has two lines with the same URL. -/
theorem cmdCreate_unique_iff (lib : PyLib) (args : RunArgs) :
    (∀ db, cmdCreate lib args = .written db → UniqueUrls db.bookMarks) ↔
      (Readable args.files → ∀ file ∈ args.files, (file.urls lib).Nodup) := by
  constructor
  · intro h hread
    obtain ⟨db, hwritten, hunique⟩ := cmdCreate_uniqueUrls lib hread
    exact hunique.mp (h db hwritten)
  · intro h db hwritten
    have hread : Readable args.files := by
      unfold cmdCreate at hwritten
      split at hwritten
      · cases hwritten
      · rename_i hfiles
        exact processFiles_readable hfiles
    obtain ⟨db', hwritten', hunique⟩ := cmdCreate_uniqueUrls lib hread
    rw [hwritten] at hwritten'
    obtain rfl := Outcome.written.inj hwritten'
    exact hunique.mpr (h hread)

def twiceListed : RunArgs where
  files := [⟨["dev.txt".toList], .text "Rust | https://rust.org\nRust | https://rust.org\n".toList⟩]
  icon := false
  iconCache := ∅
  channelIcon := fun _ _ => .failed

theorem twiceListed_kept : ∃ lib db, cmdCreate lib twiceListed = .written db ∧
    ¬ UniqueUrls db.bookMarks := by
  let lib : PyLib := ⟨id, id, fun _ => none⟩
  have hread : Readable twiceListed.files := by
    intro file hfile
    rw [List.mem_singleton.mp hfile]
    exact nofun
  obtain ⟨db, hwritten, hunique⟩ := cmdCreate_uniqueUrls lib hread
  refine ⟨lib, db, hwritten, fun h => ?_⟩
  have hfile := hunique.mp h _ (List.mem_singleton_self _)
  rw [SourceFile.urls_text rfl] at hfile
  revert hfile
  decide +kernel

end LocalMarks.Marks2json

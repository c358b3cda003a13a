import LocalMarks.Marks2json.Slots

/-!
# The parsed input lines

What the lines of the input files say does not depend on the run: the database, the icon cache
and the network decide about icons only.
-/

namespace LocalMarks.Marks2json
open LocalMarks.Lib

def Bookmark.bare (bm : Bookmark) : Bookmark := { bm with icon := none }

def Entry.bare (e : Entry) : Entry := ⟨e.category, e.bookmark.bare⟩

/-- The lines of one file, each with the category that the file becomes. -/
def SourceFile.lines (lib : PyLib) (file : SourceFile) : List Entry :=
  match file.content with
  | .text decoded =>
    ((splitlines (universalNewlines decoded)).filterMap readFields).map fun f =>
      ⟨formatCategoryName lib file.name, f.entry lib⟩
  | .missing | .unreadable => []

/-- The parsed input lines, in processing order and without icons. -/
def inputLines (lib : PyLib) (files : List SourceFile) : List Entry :=
  (files.insertionSort fun a b => a.parts ≤ b.parts).flatMap (SourceFile.lines lib)

def Readable (files : List SourceFile) : Prop := ∀ file ∈ files, file.content ≠ .unreadable

theorem readFields_url {line : Str} {f : Fields} (h : readFields line = some f) : f.url ≠ [] := by
  unfold readFields at h
  split at h
  · cases h
  · split at h
    · cases h
    · split at h
      · cases h
      · dsimp only at h
        split at h
        · cases h
        · rename_i hne
          cases h
          exact hne

theorem inputLines_url {lib : PyLib} {files : List SourceFile} {line : Entry}
    (h : line ∈ inputLines lib files) : line.url ≠ [] := by
  obtain ⟨file, _, hline⟩ := List.mem_flatMap.mp h
  unfold SourceFile.lines at hline
  split at hline
  · obtain ⟨f, hf, rfl⟩ := List.mem_map.mp hline
    obtain ⟨text, _, htext⟩ := List.mem_filterMap.mp hf
    exact readFields_url htext
  · cases hline
  · cases hline

theorem inputLines_domain {lib : PyLib} {files : List SourceFile} {line : Entry}
    (h : line ∈ inputLines lib files) :
    line.bookmark.domain = getDomain lib line.url ∧ line.bookmark.icon = none := by
  obtain ⟨file, _, hline⟩ := List.mem_flatMap.mp h
  unfold SourceFile.lines at hline
  split at hline
  · obtain ⟨f, _, rfl⟩ := List.mem_map.mp hline
    exact ⟨rfl, rfl⟩
  · cases hline
  · cases hline

/-! ### What is parsed -/

theorem parseLines_bare (env : ParseEnv) (lines : List Str) (st : ParseState) :
    (parseLines env lines st).1.map Bookmark.bare =
      (lines.filterMap readFields).map (Fields.entry env.lib) := by
  induction lines generalizing st with
  | nil => rfl
  | cons line lines ih =>
    simp only [parseLines]
    rw [List.map_append, ih]
    unfold parseBookmarkLine
    split
    · rename_i hnone
      rw [List.filterMap_cons_none hnone]
      rfl
    · rename_i f hsome
      obtain ⟨icon, hicon⟩ := addIcon_entry env (f.entry env.lib)
        { st with counters := countBookmark st.counters (f.entry env.lib) }
      rw [List.filterMap_cons_some hsome, List.map_cons]
      dsimp only
      rw [hicon]
      rfl

theorem filed_append (cats cats' : List Category) :
    filed (cats ++ cats') = filed cats ++ filed cats' :=
  List.flatMap_append

theorem filed_categoryOf (lib : PyLib) (file : SourceFile) (bookmarks : List Bookmark) :
    filed (categoryOf lib file bookmarks) =
      bookmarks.map (Entry.mk (formatCategoryName lib file.name)) := by
  unfold categoryOf
  split
  · rename_i hnil
    rw [hnil]
    rfl
  · exact List.append_nil _

theorem processSorted_bare {env : ParseEnv} {files : List SourceFile} {st st' : ParseState}
    {cats : List Category} (h : processSorted env files st = some (cats, st')) :
    (filed cats).map Entry.bare = files.flatMap (SourceFile.lines env.lib) := by
  induction files generalizing st st' cats with
  | nil =>
    obtain ⟨rfl, rfl⟩ := Prod.mk.inj (Option.some.inj h)
    rfl
  | cons file files ih =>
    unfold processSorted at h
    rw [List.flatMap_cons, SourceFile.lines]
    split at h
    · rename_i hmissing
      rw [hmissing]
      exact ih h
    · cases h
    · rename_i decoded htext
      obtain ⟨⟨rest, st''⟩, hrest, heq⟩ := Option.map_eq_some_iff.mp h
      obtain ⟨rfl, rfl⟩ := Prod.mk.inj heq
      have hbare := congrArg (List.map (Entry.mk (formatCategoryName env.lib file.name)))
        (parseLines_bare env (splitlines (universalNewlines decoded)) st)
      rw [List.map_map, List.map_map] at hbare
      rw [filed_append, List.map_append, ih hrest, filed_categoryOf, htext, List.map_map]
      exact congrArg (· ++ _) hbare

theorem processFiles_bare {env : ParseEnv} {files : List SourceFile} {st st' : ParseState}
    {cats : List Category} (h : processFiles env files st = some (cats, st')) :
    (filed cats).map Entry.bare = inputLines env.lib files := processSorted_bare h

theorem processSorted_isSome {env : ParseEnv} {files : List SourceFile} (h : Readable files)
    (st : ParseState) : ∃ r, processSorted env files st = some r := by
  induction files generalizing st with
  | nil => exact ⟨_, rfl⟩
  | cons file files ih =>
    have hrest := ih fun x hx => h x (List.mem_cons_of_mem _ hx)
    unfold processSorted
    split
    · exact hrest st
    · rename_i hbad
      exact absurd hbad (h file (List.mem_cons_self ..))
    · obtain ⟨r, hr⟩ := hrest (parseLines env (splitlines (universalNewlines _)) st).2
      dsimp only
      rw [hr]
      exact ⟨_, rfl⟩

theorem processFiles_isSome (env : ParseEnv) {files : List SourceFile} (h : Readable files)
    (st : ParseState) : ∃ r, processFiles env files st = some r :=
  processSorted_isSome (fun file hfile => h file (List.mem_insertionSort _ |>.mp hfile)) st

theorem processSorted_readable {env : ParseEnv} {files : List SourceFile} {st : ParseState}
    {r : List Category × ParseState} (h : processSorted env files st = some r) :
    Readable files := by
  induction files generalizing st r with
  | nil => exact fun file hfile => (by cases hfile)
  | cons file files ih =>
    intro x hx hbad
    unfold processSorted at h
    split at h
    · rename_i hmissing
      rcases List.mem_cons.mp hx with rfl | hx
      · rw [hmissing] at hbad
        cases hbad
      · exact ih h x hx hbad
    · cases h
    · rename_i decoded htext
      rcases List.mem_cons.mp hx with rfl | hx
      · rw [htext] at hbad
        cases hbad
      · obtain ⟨rest, hrest, _⟩ := Option.map_eq_some_iff.mp h
        exact ih hrest x hx hbad

theorem processFiles_readable {env : ParseEnv} {files : List SourceFile} {st : ParseState}
    {r : List Category × ParseState} (h : processFiles env files st = some r) :
    Readable files := fun file hfile =>
  processSorted_readable h file (List.mem_insertionSort _ |>.mpr hfile)

/-! ### Icons -/

theorem processSorted_forall {env : ParseEnv} {I : ParseState → Prop} {P : Bookmark → Prop}
    (hadd : ∀ (f : Fields) (counters : Counters) (st : ParseState), I st →
      P (addIcon env (f.entry env.lib) { st with counters := counters }).1 ∧
        I (addIcon env (f.entry env.lib) { st with counters := counters }).2)
    {files : List SourceFile} {st st' : ParseState} {cats : List Category} (hI : I st)
    (h : processSorted env files st = some (cats, st')) :
    ∀ line ∈ filed cats, P line.bookmark := by
  have hlines : ∀ (lines : List Str) (st : ParseState), I st →
      (∀ bm ∈ (parseLines env lines st).1, P bm) ∧ I (parseLines env lines st).2 := by
    intro lines
    induction lines with
    | nil => exact fun st hst => ⟨fun bm hbm => (by cases hbm), hst⟩
    | cons line lines ih =>
      intro st hst
      have hline : (∀ bm ∈ (parseBookmarkLine env line st).1.toList, P bm) ∧
          I (parseBookmarkLine env line st).2 := by
        unfold parseBookmarkLine
        split
        · exact ⟨fun bm hbm => (by cases hbm), hst⟩
        · rename_i f _
          obtain ⟨hP, hI⟩ := hadd f (countBookmark st.counters (f.entry env.lib)) st hst
          refine ⟨fun bm hbm => ?_, hI⟩
          rw [List.mem_singleton.mp hbm]
          exact hP
      obtain ⟨hrest, hlast⟩ := ih _ hline.2
      simp only [parseLines]
      refine ⟨fun bm hbm => ?_, hlast⟩
      rcases List.mem_append.mp hbm with hbm | hbm
      · exact hline.1 bm hbm
      · exact hrest bm hbm
  induction files generalizing st st' cats with
  | nil =>
    obtain ⟨rfl, rfl⟩ := Prod.mk.inj (Option.some.inj h)
    exact fun line hline => (by cases hline)
  | cons file files ih =>
    unfold processSorted at h
    split at h
    · exact ih hI h
    · cases h
    · rename_i decoded _
      obtain ⟨⟨rest, st''⟩, hrest, heq⟩ := Option.map_eq_some_iff.mp h
      obtain ⟨rfl, rfl⟩ := Prod.mk.inj heq
      obtain ⟨hfirst, hnext⟩ := hlines (splitlines (universalNewlines decoded)) st hI
      rw [filed_append, filed_categoryOf]
      intro line hline
      rcases List.mem_append.mp hline with hline | hline
      · obtain ⟨bm, hbm, rfl⟩ := List.mem_map.mp hline
        exact hfirst bm hbm
      · exact ih hnext hrest line hline

/-- Only the lines of YouTube channels get an icon, and only when icons are fetched. -/
theorem processFiles_plain {env : ParseEnv} {files : List SourceFile} {st st' : ParseState}
    {cats : List Category} (h : processFiles env files st = some (cats, st')) :
    ∀ line ∈ filed cats, ¬ (env.fetchIcons = true ∧ channelUrl <+: line.url) →
      line.bookmark.icon = none := by
  apply processSorted_forall (I := fun _ => True)
    (P := fun bm => ¬ (env.fetchIcons = true ∧ channelUrl <+: bm.url) → bm.icon = none)
    (fun f counters st _ => ⟨fun hno => ?_, trivial⟩) trivial h
  obtain ⟨icon, hicon⟩ := addIcon_entry env (f.entry env.lib) { st with counters := counters }
  rw [hicon] at hno
  rw [addIcon, if_neg hno]
  rfl

/-- A channel whose icon is in the cache, and whose stored bookmark has that icon, gets it on
every line when the network fails. -/
theorem processFiles_cached {env : ParseEnv} {files : List SourceFile} {st st' : ParseState}
    {cats : List Category} {url icon : Str} (h : processFiles env files st = some (cats, st'))
    (hfetch : env.fetchIcons = true) (hurl : channelUrl <+: url)
    (hnet : ∀ n u, env.channelIcon n u = .failed)
    (hold : ∀ old, env.existingByUrl url = some old → old.icon = some icon)
    (hcache : st.iconCache.lookup url = some icon) :
    ∀ line ∈ filed cats, line.url = url → line.bookmark.icon = some icon := by
  apply processSorted_forall (I := fun st => st.iconCache.lookup url = some icon)
    (P := fun bm => bm.url = url → bm.icon = some icon) (fun f counters st hst => ?_) hcache h
  have hstate : (addIcon env (f.entry env.lib) { st with counters := counters }).2.iconCache =
      st.iconCache := by
    simp only [addIcon, requestIcon, hnet]
    repeat' split
    all_goals rfl
  refine ⟨fun hu => ?_, by rw [hstate]; exact hst⟩
  have hentry : (f.entry env.lib).url = url := by
    obtain ⟨i, hi⟩ := addIcon_entry env (f.entry env.lib) { st with counters := counters }
    rw [hi] at hu
    exact hu
  rw [addIcon, if_pos ⟨hfetch, hentry ▸ hurl⟩]
  cases hkept : keptIcon env (f.entry env.lib) with
  | some kept =>
    obtain ⟨old, hfound, hfilter⟩ := Option.bind_eq_some_iff.mp hkept
    rw [hentry] at hfound
    rw [hold old hfound] at hfilter
    split at hfilter
    · rw [Option.filter_eq_some_iff] at hfilter
      exact hfilter.1.symm
    · cases hfilter
  | none =>
    dsimp only
    rw [hentry, hst]

end LocalMarks.Marks2json

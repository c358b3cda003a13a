import LocalMarks.Marks2json.Counters

/-!
# Reading bookmark files

A line is parsed into an entry or skipped, a file becomes a category, and the counters are
bumped on the way. The counters after a run are the ones before it with exactly the returned
entries counted.
-/

namespace LocalMarks.Marks2json
open LocalMarks.Lib

/-- get_channel_icon_url: it raises, or returns a text that may be empty. -/
inductive Fetch where
  | failed
  | fetched (iconUrl : Str)
  deriving DecidableEq

structure IconStats where
  fetched : ℕ
  skipped : ℕ
  cached : ℕ
  failed : ℕ
  deriving DecidableEq

abbrev IconCache := AList fun _ : Str => Str

/-- The parameters of a run of process_files. `channelIcon i` answers the i-th request. -/
structure ParseEnv where
  lib : PyLib
  fetchIcons : Bool
  existingByUrl : Str → Option Bookmark
  channelIcon : ℕ → Str → Fetch

/-- What the lines change as they are read: the dictionaries passed to parse_bookmark_line and the
number of requests made so far. -/
structure ParseState where
  counters : Counters
  iconStats : IconStats
  iconCache : IconCache
  requests : ℕ

def ParseState.start (iconCache : IconCache) : ParseState :=
  ⟨.empty, ⟨0, 0, 0, 0⟩, iconCache, 0⟩

/-! ### One line -/

/-- The four locals that the parts of a line fill in. -/
structure Fields where
  title : Str
  url : Str
  description : Str
  tags : List Str
  deriving DecidableEq

def Fields.empty : Fields := ⟨[], [], [], []⟩

def httpScheme : Str := "http://".toList
def httpsScheme : Str := "https://".toList
def channelUrl : Str := "https://www.youtube.com/@".toList

def startsWithScheme (part : Str) : Bool := httpScheme <+: part || httpsScheme <+: part

def isTag (t : Str) : Bool := ['#'] <+: t && strip (removePrefix ['#'] t) ≠ []

def readTags (part : Str) : List Str := ((words part).filter isTag).map strip

def Fields.readPart (f : Fields) (part : Str) : Fields :=
  if startsWithScheme part then { f with url := part }
  else if ['#'] <+: part then { f with tags := f.tags ++ readTags part }
  else if f.title = [] then { f with title := part }
  else if f.description = [] then { f with description := part }
  else f

def lineParts (line : Str) : List Str :=
  (((strip line).splitOn '|').filter fun x => strip x ≠ []).map strip

/-- The part of parse_bookmark_line that reads the line only. -/
def readFields (line : Str) : Option Fields :=
  if line = [] ∨ ['#'] <+: strip line then none
  else if ¬httpScheme <:+: line ∧ ¬httpsScheme <:+: line then none
  else if 4 < (lineParts line).length then none
  else
    let f := (lineParts line).foldl Fields.readPart .empty
    if f.url = [] then none else some f

def keptIcon (env : ParseEnv) (entry : Bookmark) : Option Str :=
  (env.existingByUrl entry.url).bind fun old =>
    if old.title = entry.title ∧ old.description = entry.description ∧ old.tags = entry.tags then
      old.icon.filter (· ≠ [])
    else none

def requestIcon (env : ParseEnv) (entry : Bookmark) (st : ParseState) : Bookmark × ParseState :=
  let st := { st with requests := st.requests + 1 }
  match env.channelIcon (st.requests - 1) entry.url with
  | .failed => (entry, { st with iconStats.failed := st.iconStats.failed + 1 })
  | .fetched iconUrl =>
    if iconUrl = [] then (entry, st)
    else
      ({ entry with icon := some iconUrl },
        { st with
          iconCache := st.iconCache.insert entry.url iconUrl
          iconStats.fetched := st.iconStats.fetched + 1 })

def addIcon (env : ParseEnv) (entry : Bookmark) (st : ParseState) : Bookmark × ParseState :=
  if env.fetchIcons = true ∧ channelUrl <+: entry.url then
    match keptIcon env entry with
    | some icon =>
      ({ entry with icon := some icon },
        { st with iconStats.skipped := st.iconStats.skipped + 1 })
    | none =>
      match st.iconCache.lookup entry.url with
      | some icon =>
        ({ entry with icon := some icon },
          { st with iconStats.cached := st.iconStats.cached + 1 })
      | none => requestIcon env entry st
  else (entry, st)

def Fields.entry (lib : PyLib) (f : Fields) : Bookmark where
  title := f.title
  url := f.url
  description := f.description
  tags := f.tags
  domain := getDomain lib f.url
  icon := none

def parseBookmarkLine (env : ParseEnv) (line : Str) (st : ParseState) :
    Option Bookmark × ParseState :=
  match readFields line with
  | none => (none, st)
  | some f =>
    let entry := f.entry env.lib
    -- the counters move before the icon is known
    let (entry, st) := addIcon env entry { st with counters := countBookmark st.counters entry }
    (some entry, st)

/-! ### Files -/

inductive Content where
  | missing
  /-- There is a file, but reading it as UTF-8 text raises. -/
  | unreadable
  | text (decoded : Str)
  deriving DecidableEq

/-- A path given on the command line, as the parts by which paths are compared. -/
structure SourceFile where
  parts : List Str
  content : Content
  deriving DecidableEq

def SourceFile.name (file : SourceFile) : Str := file.parts.getLastD []

def parseLines (env : ParseEnv) : List Str → ParseState → List Bookmark × ParseState
  | [], st => ([], st)
  | line :: lines, st =>
    let (bookmark, st) := parseBookmarkLine env line st
    let (bookmarks, st) := parseLines env lines st
    (bookmark.toList ++ bookmarks, st)

/-- A category is made only when a line of the file gave a bookmark. -/
def categoryOf (lib : PyLib) (file : SourceFile) (bookmarks : List Bookmark) : List Category :=
  if bookmarks = [] then [] else [⟨formatCategoryName lib file.name, bookmarks⟩]

/-- The loop of process_files. `none` is an exception, which ends the command. -/
def processSorted (env : ParseEnv) : List SourceFile → ParseState →
    Option (List Category × ParseState)
  | [], st => some ([], st)
  | file :: files, st =>
    match file.content with
    | .missing => processSorted env files st
    | .unreadable => none
    | .text decoded =>
      let (bookmarks, st) := parseLines env (splitlines (universalNewlines decoded)) st
      (processSorted env files st).map fun (categories, st) =>
        (categoryOf env.lib file bookmarks ++ categories, st)

def processFiles (env : ParseEnv) (files : List SourceFile) (st : ParseState) :
    Option (List Category × ParseState) :=
  processSorted env (files.insertionSort fun a b => a.parts ≤ b.parts) st

/-! ### The counters follow the entries -/

theorem requestIcon_counters (env : ParseEnv) (entry : Bookmark) (st : ParseState) :
    (requestIcon env entry st).2.counters = st.counters := by
  simp only [requestIcon]
  split
  · rfl
  · split <;> rfl

theorem requestIcon_entry (env : ParseEnv) (entry : Bookmark) (st : ParseState) :
    ∃ icon, (requestIcon env entry st).1 = { entry with icon := icon } := by
  simp only [requestIcon]
  split
  · exact ⟨entry.icon, rfl⟩
  · split
    · exact ⟨entry.icon, rfl⟩
    · exact ⟨_, rfl⟩

theorem addIcon_counters (env : ParseEnv) (entry : Bookmark) (st : ParseState) :
    (addIcon env entry st).2.counters = st.counters := by
  simp only [addIcon]
  split
  · split
    · rfl
    · split
      · rfl
      · exact requestIcon_counters env entry st
  · rfl

theorem addIcon_entry (env : ParseEnv) (entry : Bookmark) (st : ParseState) :
    ∃ icon, (addIcon env entry st).1 = { entry with icon := icon } := by
  simp only [addIcon]
  split
  · split
    · exact ⟨_, rfl⟩
    · split
      · exact ⟨_, rfl⟩
      · exact requestIcon_entry env entry st
  · exact ⟨entry.icon, rfl⟩

/-- The icon is not counted. -/
theorem countBookmark_icon (counters : Counters) (entry : Bookmark) (icon : Option Str) :
    countBookmark counters { entry with icon := icon } = countBookmark counters entry := rfl

theorem parseBookmarkLine_counters (env : ParseEnv) (line : Str) (st : ParseState) :
    (parseBookmarkLine env line st).2.counters =
      (parseBookmarkLine env line st).1.toList.foldl countBookmark st.counters := by
  simp only [parseBookmarkLine]
  split
  · rfl
  next f _ =>
    obtain ⟨icon, hicon⟩ := addIcon_entry env (f.entry env.lib)
      { st with counters := countBookmark st.counters (f.entry env.lib) }
    show (addIcon env _ _).2.counters = countBookmark st.counters (addIcon env _ _).1
    rw [addIcon_counters, hicon]
    exact (countBookmark_icon st.counters _ icon).symm

theorem parseLines_counters (env : ParseEnv) (lines : List Str) (st : ParseState) :
    (parseLines env lines st).2.counters =
      (parseLines env lines st).1.foldl countBookmark st.counters := by
  induction lines generalizing st with
  | nil => rfl
  | cons line lines ih =>
    simp only [parseLines]
    rw [List.foldl_append, ← parseBookmarkLine_counters, ih]

theorem allBookmarks_append (cats cats' : List Category) :
    allBookmarks (cats ++ cats') = allBookmarks cats ++ allBookmarks cats' :=
  List.flatMap_append

theorem allBookmarks_categoryOf (lib : PyLib) (file : SourceFile) (bookmarks : List Bookmark) :
    allBookmarks (categoryOf lib file bookmarks) = bookmarks := by
  unfold categoryOf
  split
  next h => rw [h]; rfl
  · exact List.append_nil bookmarks

theorem processSorted_counters {env : ParseEnv} {files : List SourceFile} {st st' : ParseState}
    {categories : List Category} (h : processSorted env files st = some (categories, st')) :
    st'.counters = (allBookmarks categories).foldl countBookmark st.counters := by
  induction files generalizing st st' categories with
  | nil =>
    obtain ⟨rfl, rfl⟩ := Prod.mk.inj (Option.some.inj h)
    rfl
  | cons file files ih =>
    unfold processSorted at h
    split at h
    · exact ih h
    · cases h
    next decoded _ =>
      obtain ⟨⟨cats, st''⟩, hrest, heq⟩ := Option.map_eq_some_iff.mp h
      obtain ⟨rfl, rfl⟩ := Prod.mk.inj heq
      rw [ih hrest, parseLines_counters, allBookmarks_append, allBookmarks_categoryOf,
        List.foldl_append]

/-- Whatever the files hold, the counters count what they held before and the bookmarks of the
categories returned. -/
theorem processFiles_countersOf {env : ParseEnv} {files : List SourceFile} {st st' : ParseState}
    {categories : List Category} {bookmarks : List Bookmark}
    (h : processFiles env files st = some (categories, st'))
    (hst : CountersOf st.counters bookmarks) :
    CountersOf st'.counters (bookmarks ++ allBookmarks categories) := by
  rw [processSorted_counters h]
  exact hst.count_all _

end LocalMarks.Marks2json

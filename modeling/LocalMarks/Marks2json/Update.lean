import LocalMarks.Marks2json.Parse

/-!
# create and update

`update` merges incoming bookmarks into the loaded objects: dictionaries of the program point at
them, and an overwritten bookmark changes wherever it is listed. The model numbers the objects,
and categories and the URL index hold numbers.
-/

namespace LocalMarks.Marks2json
open LocalMarks.Lib

inductive Outcome where
  | raised
  | nothingWritten
  | written (db : Database)

/-- Arguments shared by create and update, with the icon cache found on disk and the network. -/
structure RunArgs where
  files : List SourceFile
  icon : Bool
  iconCache : IconCache
  channelIcon : ℕ → Str → Fetch

def RunArgs.loadIconCache (args : RunArgs) : IconCache := if args.icon then args.iconCache else ∅

def RunArgs.parseEnv (args : RunArgs) (lib : PyLib) (existingByUrl : Str → Option Bookmark) :
    ParseEnv :=
  ⟨lib, args.icon, existingByUrl, args.channelIcon⟩

/-! ### create -/

def cmdCreate (lib : PyLib) (args : RunArgs) : Outcome :=
  match processFiles (args.parseEnv lib fun _ => none) args.files (.start args.loadIconCache) with
  | none => .raised
  | some (bookMarks, st) => .written (.of (sortDatabase lib bookMarks) st.counters)

/-! ### The objects of a run of update -/

abbrev UrlIndex := AList fun _ : Str => ℕ

structure CategoryRef where
  category : Str
  bookmarks : List ℕ

structure MergeState where
  heap : List Bookmark
  bookMarks : List CategoryRef
  counters : Counters
  existingByUrl : UrlIndex
  /-- `bookmark_key` is injective, so the set of keys is a set of bookmarks. -/
  knownBookmarks : List Bookmark
  addedTotal : ℕ
  updatedTotal : ℕ

def deref (heap : List Bookmark) (ids : List ℕ) : List Bookmark := ids.filterMap (heap[·]?)

/-- The bookmarks of a file are numbered in the order in which they are read. -/
def loadCategories : ℕ → List Category → List CategoryRef
  | _, [] => []
  | next, cat :: cats =>
    ⟨cat.category, List.range' next cat.bookmarks.length⟩ ::
      loadCategories (next + cat.bookmarks.length) cats

def indexBookmark (index : UrlIndex) (entry : Bookmark × ℕ) : UrlIndex :=
  if entry.1.url = [] then index else index.insert entry.1.url entry.2

/-- The last bookmark with a URL is the one indexed. -/
def indexByUrl (heap : List Bookmark) : UrlIndex := heap.zipIdx.foldl indexBookmark ∅

def MergeState.load (db : Database) : MergeState :=
  let heap := allBookmarks db.bookMarks
  let existingByUrl := indexByUrl heap
  { heap
    bookMarks := loadCategories 0 db.bookMarks
    counters := db.counters
    existingByUrl
    knownBookmarks := deref heap (existingByUrl.entries.map (·.2))
    addedTotal := 0
    updatedTotal := 0 }

def MergeState.existing (st : MergeState) (url : Str) : Option (ℕ × Bookmark) :=
  (st.existingByUrl.lookup url).bind fun id => (st.heap[id]?).map fun bm => (id, bm)

def MergeState.overwrite (st : MergeState) (id : ℕ) (old bm : Bookmark) : MergeState :=
  let new := old.update bm
  { st with
    heap := st.heap.set id new
    counters := adjustCounters new (adjustCounters old st.counters (-1)) 1
    knownBookmarks := new :: st.knownBookmarks
    updatedTotal := st.updatedTotal + 1 }

def MergeState.append (st : MergeState) (bm : Bookmark) : MergeState :=
  { st with
    heap := st.heap ++ [bm]
    counters := adjustCounters bm st.counters 1
    existingByUrl := st.existingByUrl.insert bm.url st.heap.length
    knownBookmarks := bm :: st.knownBookmarks }

/-- One incoming bookmark; `added_bms` is threaded along. -/
def mergeBookmark (override : Bool) (acc : MergeState × List ℕ) (bm : Bookmark) :
    MergeState × List ℕ :=
  let (st, addedBms) := acc
  if bm ∈ st.knownBookmarks then (st, addedBms)
  else
    match st.existing bm.url with
    | some (id, old) =>
      if override then (st.overwrite id old bm, addedBms) else (st, addedBms)
    | none => (st.append bm, addedBms ++ [st.heap.length])

/-- The first category of the name is extended, or a new one goes to the end. -/
def extendCategory (name : Str) (ids : List ℕ) : List CategoryRef → List CategoryRef
  | [] => [⟨name, ids⟩]
  | cat :: cats =>
    if cat.category = name then { cat with bookmarks := cat.bookmarks ++ ids } :: cats
    else cat :: extendCategory name ids cats

def mergeCategory (override : Bool) (st : MergeState) (newCat : Category) : MergeState :=
  let (st, addedBms) := newCat.bookmarks.foldl (mergeBookmark override) (st, [])
  if addedBms = [] then st
  else
    { st with
      addedTotal := st.addedTotal + addedBms.length
      bookMarks := extendCategory newCat.category addedBms st.bookMarks }

def MergeState.categories (st : MergeState) : List Category :=
  st.bookMarks.map fun cat => ⟨cat.category, deref st.heap cat.bookmarks⟩

def cmdUpdate (lib : PyLib) (args : RunArgs) (override : Bool) (db : Database) : Outcome :=
  let st := MergeState.load db
  let env := args.parseEnv lib fun url => (st.existing url).map (·.2)
  -- the counters of this scan are scratch ones and dropped
  match processFiles env args.files (.start args.loadIconCache) with
  | none => .raised
  | some (newCategories, _) =>
    let st := newCategories.foldl (mergeCategory override) st
    if st.addedTotal = 0 ∧ st.updatedTotal = 0 then .nothingWritten
    else .written (.of (sortDatabase lib st.categories) st.counters)

/-! ### Objects and references -/

theorem deref_range' (pre mid post : List Bookmark) :
    deref (pre ++ mid ++ post) (List.range' pre.length mid.length) = mid := by
  induction mid generalizing pre with
  | nil => rfl
  | cons bm mid ih =>
    have hget : (pre ++ bm :: mid ++ post)[pre.length]? = some bm := by
      rw [List.append_assoc, List.getElem?_append_right (Nat.le_refl _), Nat.sub_self]
      rfl
    have hrest := ih (pre ++ [bm])
    rw [List.append_assoc pre, List.length_append] at hrest
    rw [List.length_cons, List.range'_succ, deref, List.filterMap_cons_some hget]
    exact congrArg (bm :: ·) hrest

theorem deref_perm {heap : List Bookmark} {ids : List ℕ} (h : ids.Perm (List.range heap.length)) :
    (deref heap ids).Perm heap := by
  have hall := deref_range' [] heap []
  rw [List.nil_append, List.append_nil, List.length_nil, ← List.range_eq_range'] at hall
  exact (h.filterMap _).trans (List.Perm.of_eq hall)

theorem allBookmarks_categories (st : MergeState) :
    allBookmarks st.categories = deref st.heap (st.bookMarks.flatMap (·.bookmarks)) := by
  rw [MergeState.categories]
  induction st.bookMarks with
  | nil => rfl
  | cons cat cats ih =>
    rw [List.flatMap_cons, deref, List.filterMap_append]
    exact congrArg (deref st.heap cat.bookmarks ++ ·) ih

theorem loadCategories_ids (next : ℕ) (cats : List Category) :
    (loadCategories next cats).flatMap (·.bookmarks) =
      List.range' next (allBookmarks cats).length := by
  induction cats generalizing next with
  | nil => rfl
  | cons cat cats ih =>
    have hlen : (allBookmarks (cat :: cats)).length =
        cat.bookmarks.length + (allBookmarks cats).length := List.length_append
    rw [loadCategories, List.flatMap_cons, ih, hlen]
    exact List.range'_append_1

theorem extendCategory_ids (name : Str) (ids : List ℕ) (cats : List CategoryRef) :
    ((extendCategory name ids cats).flatMap (·.bookmarks)).Perm
      (cats.flatMap (·.bookmarks) ++ ids) := by
  induction cats with
  | nil => exact List.Perm.of_eq (List.append_nil ids)
  | cons cat cats ih =>
    unfold extendCategory
    split
    · rw [List.flatMap_cons, List.flatMap_cons, List.append_assoc, List.append_assoc]
      exact List.perm_append_comm.append_left cat.bookmarks
    · rw [List.flatMap_cons, List.flatMap_cons, List.append_assoc]
      exact ih.append_left cat.bookmarks

/-! ### The invariant of the merge -/

/-- Every object is listed exactly once, in a category or among the bookmarks still to be filed,
the index points at objects, and the counters count the objects. -/
structure MergeState.Consistent (st : MergeState) (addedBms : List ℕ) : Prop where
  owned : (st.bookMarks.flatMap (·.bookmarks) ++ addedBms).Perm (List.range st.heap.length)
  indexed : ∀ url id, st.existingByUrl.lookup url = some id → id < st.heap.length
  counted : CountersOf st.counters st.heap

theorem indexBookmarks_all {P : Str → ℕ → Prop} (entries : List (Bookmark × ℕ))
    (hentries : ∀ entry ∈ entries, entry.1.url ≠ [] → P entry.1.url entry.2) {index : UrlIndex}
    (hindex : ∀ url id, index.lookup url = some id → P url id) :
    ∀ url id, (entries.foldl indexBookmark index).lookup url = some id → P url id := by
  induction entries generalizing index with
  | nil => exact hindex
  | cons entry entries ih =>
    apply ih fun x hx => hentries x (List.mem_cons_of_mem _ hx)
    intro url id hid
    unfold indexBookmark at hid
    split at hid
    · exact hindex url id hid
    · rename_i hne
      by_cases hurl : url = entry.1.url
      · subst hurl
        rw [AList.lookup_insert] at hid
        exact Option.some.inj hid ▸ hentries entry (List.mem_cons_self ..) hne
      · rw [AList.lookup_insert_ne hurl] at hid
        exact hindex url id hid

theorem indexByUrl_lt (heap : List Bookmark) :
    ∀ url id, (indexByUrl heap).lookup url = some id → id < heap.length := by
  apply indexBookmarks_all (P := fun _ id => id < heap.length)
  · intro entry hentry _
    have := List.snd_lt_of_mem_zipIdx hentry
    omega
  · intro url id hid
    rw [AList.lookup_empty] at hid
    cases hid

namespace MergeState.Consistent
variable {st : MergeState} {addedBms : List ℕ}

theorem load {db : Database} (h : db.Agrees) : (MergeState.load db).Consistent [] where
  owned := by
    rw [List.append_nil, List.range_eq_range']
    exact List.Perm.of_eq (loadCategories_ids 0 db.bookMarks)
  indexed := indexByUrl_lt (allBookmarks db.bookMarks)
  counted := h

theorem overwrite (h : st.Consistent addedBms) {id : ℕ} {old : Bookmark}
    (hold : st.heap[id]? = some old) (bm : Bookmark) :
    (st.overwrite id old bm).Consistent addedBms where
  owned := by
    show (_ : List ℕ).Perm (List.range (st.heap.set id (old.update bm)).length)
    rw [List.length_set]
    exact h.owned
  indexed := fun url i hi => by
    show i < (st.heap.set id (old.update bm)).length
    rw [List.length_set]
    exact h.indexed url i hi
  counted := h.counted.adjust_set hold (old.update bm)

theorem append (h : st.Consistent addedBms) (bm : Bookmark) :
    (st.append bm).Consistent (addedBms ++ [st.heap.length]) where
  owned := by
    show (_ : List ℕ).Perm (List.range (st.heap ++ [bm]).length)
    rw [List.length_append, List.length_singleton, List.range_succ, ← List.append_assoc]
    exact h.owned.append_right [st.heap.length]
  indexed := fun url i hi => by
    show i < (st.heap ++ [bm]).length
    rw [List.length_append, List.length_singleton]
    by_cases hu : url = bm.url
    · subst hu
      have hlast : st.heap.length = i :=
        Option.some.inj ((AList.lookup_insert st.existingByUrl).symm.trans hi)
      omega
    · have := h.indexed url i ((AList.lookup_insert_ne hu).symm.trans hi)
      omega
  counted := h.counted.adjust_new bm

end MergeState.Consistent

theorem mergeBookmark_cases (override : Bool) (st : MergeState) (addedBms : List ℕ)
    (bm : Bookmark) :
    mergeBookmark override (st, addedBms) bm = (st, addedBms) ∨
    (∃ id old, override = true ∧ bm ∉ st.knownBookmarks ∧
      st.existingByUrl.lookup bm.url = some id ∧ st.heap[id]? = some old ∧
      mergeBookmark override (st, addedBms) bm = (st.overwrite id old bm, addedBms)) ∨
    (bm ∉ st.knownBookmarks ∧ st.existing bm.url = none ∧
      mergeBookmark override (st, addedBms) bm =
        (st.append bm, addedBms ++ [st.heap.length])) := by
  by_cases hknown : bm ∈ st.knownBookmarks
  · exact .inl (if_pos hknown)
  · cases hex : st.existing bm.url with
    | none =>
      refine .inr (.inr ⟨hknown, rfl, ?_⟩)
      simp only [mergeBookmark, hknown, hex, ↓reduceIte]
    | some found =>
      obtain ⟨id, old⟩ := found
      obtain ⟨i, hlookup, hfound⟩ := Option.bind_eq_some_iff.mp hex
      obtain ⟨b, hget, hpair⟩ := Option.map_eq_some_iff.mp hfound
      obtain ⟨rfl, rfl⟩ := Prod.mk.inj hpair
      cases override with
      | false =>
        refine .inl ?_
        simp only [mergeBookmark, hknown, hex, Bool.false_eq_true, ↓reduceIte]
      | true =>
        refine .inr (.inl ⟨i, b, rfl, hknown, hlookup, hget, ?_⟩)
        simp only [mergeBookmark, hknown, hex, ↓reduceIte]

theorem mergeBookmark_consistent (override : Bool) {acc : MergeState × List ℕ}
    (h : acc.1.Consistent acc.2) (bm : Bookmark) :
    (mergeBookmark override acc bm).1.Consistent (mergeBookmark override acc bm).2 := by
  obtain ⟨st, addedBms⟩ := acc
  obtain hsame | ⟨id, old, -, -, -, hold, hover⟩ | ⟨-, -, hnew⟩ :=
    mergeBookmark_cases override st addedBms bm
  · rw [hsame]
    exact h
  · rw [hover]
    exact h.overwrite hold bm
  · rw [hnew]
    exact h.append bm

theorem mergeBookmarks_consistent (override : Bool) (bms : List Bookmark)
    {acc : MergeState × List ℕ} (h : acc.1.Consistent acc.2) :
    (bms.foldl (mergeBookmark override) acc).1.Consistent
      (bms.foldl (mergeBookmark override) acc).2 := by
  induction bms generalizing acc with
  | nil => exact h
  | cons bm bms ih => exact ih (mergeBookmark_consistent override h bm)

/-- What a category leaves behind: the state after its bookmarks, and when some of them were new,
these filed and counted. -/
theorem mergeCategory_cases (override : Bool) (st : MergeState) (newCat : Category) :
    ∃ st' addedBms, newCat.bookmarks.foldl (mergeBookmark override) (st, []) = (st', addedBms) ∧
      ((addedBms = [] ∧ mergeCategory override st newCat = st') ∨
        (addedBms ≠ [] ∧ mergeCategory override st newCat =
          { st' with
            addedTotal := st'.addedTotal + addedBms.length
            bookMarks := extendCategory newCat.category addedBms st'.bookMarks })) := by
  unfold mergeCategory
  obtain ⟨st', addedBms⟩ := newCat.bookmarks.foldl (mergeBookmark override) (st, [])
  refine ⟨st', addedBms, rfl, ?_⟩
  by_cases hadded : addedBms = []
  · exact Or.inl ⟨hadded, if_pos hadded⟩
  · exact Or.inr ⟨hadded, if_neg hadded⟩

theorem mergeCategory_consistent (override : Bool) {st : MergeState} (h : st.Consistent [])
    (newCat : Category) : (mergeCategory override st newCat).Consistent [] := by
  have hstart : (st, ([] : List ℕ)).1.Consistent (st, ([] : List ℕ)).2 := h
  have hloop := mergeBookmarks_consistent override newCat.bookmarks hstart
  obtain ⟨st', addedBms, hfold, ⟨rfl, hcat⟩ | ⟨-, hcat⟩⟩ := mergeCategory_cases override st newCat
  · rw [hfold] at hloop
    rw [hcat]
    exact hloop
  · rw [hfold] at hloop
    rw [hcat]
    refine ⟨?_, hloop.indexed, hloop.counted⟩
    rw [List.append_nil]
    exact (extendCategory_ids newCat.category addedBms st'.bookMarks).trans hloop.owned

theorem mergeCategories_consistent (override : Bool) (newCats : List Category) {st : MergeState}
    (h : st.Consistent []) : (newCats.foldl (mergeCategory override) st).Consistent [] := by
  induction newCats generalizing st with
  | nil => exact h
  | cons newCat newCats ih => exact ih (mergeCategory_consistent override h newCat)

theorem MergeState.Consistent.stored {st : MergeState} (h : st.Consistent []) (lib : PyLib) :
    (Database.of (sortDatabase lib st.categories) st.counters).Agrees := by
  have howned := h.owned
  rw [List.append_nil] at howned
  apply Database.agrees_of
  apply h.counted.perm
  refine (deref_perm howned).symm.trans ?_
  rw [← allBookmarks_categories]
  exact (sortDatabase_perm lib st.categories).symm

/-! ### What the commands write -/

theorem cmdCreate_agrees {lib : PyLib} {args : RunArgs} {db : Database}
    (h : cmdCreate lib args = .written db) : db.Agrees := by
  unfold cmdCreate at h
  split at h
  · cases h
  next bookMarks st hparse =>
    have hcount := processFiles_countersOf hparse CountersOf.empty
    obtain rfl := Outcome.written.inj h
    exact Database.agrees_of (hcount.perm (sortDatabase_perm lib bookMarks).symm)

theorem cmdUpdate_agrees {lib : PyLib} {args : RunArgs} {override : Bool} {db db' : Database}
    (hdb : db.Agrees) (h : cmdUpdate lib args override db = .written db') : db'.Agrees := by
  simp only [cmdUpdate] at h
  split at h
  · cases h
  next newCategories _ _ =>
    split at h
    · cases h
    · obtain rfl := Outcome.written.inj h
      exact (mergeCategories_consistent override newCategories (.load hdb)).stored lib

end LocalMarks.Marks2json

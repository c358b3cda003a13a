import LocalMarks.Lib.Slots
import LocalMarks.Marks2json.Update

/-!
# update, one URL at a time

What a database holds under a URL, and what the lines with that URL make of it. The merge of the
objects does exactly this for every URL at once.
-/

namespace LocalMarks.Marks2json
open LocalMarks.Lib

/-- A bookmark with the name of its category. -/
structure Entry where
  category : Str
  bookmark : Bookmark
  deriving DecidableEq

def Entry.url (e : Entry) : Str := e.bookmark.url

def filed (cats : List Category) : List Entry :=
  cats.flatMap fun cat => cat.bookmarks.map (Entry.mk cat.category)

def Database.entries (db : Database) : List Entry := filed db.bookMarks

/-- The URLs of the bookmarks are pairwise distinct. -/
def Database.DistinctUrls (db : Database) : Prop := (db.entries.map Entry.url).Nodup

/-- What is stored under one URL, and the exact bookmarks known for it. -/
structure Slot where
  entry : Option Entry
  known : List Bookmark

/-- One line with the URL of the slot. -/
def Slot.merge (override : Bool) (slot : Slot) (line : Entry) : Slot :=
  if line.bookmark ∈ slot.known then slot
  else
    match slot.entry with
    | some old =>
      if override then
        let new := old.bookmark.update line.bookmark
        ⟨some ⟨old.category, new⟩, new :: slot.known⟩
      else slot
    | none => ⟨some line, line.bookmark :: slot.known⟩

/-- A bookmark without a URL is not indexed. -/
def Database.slot (db : Database) (url : Str) : Slot :=
  let entry := db.entries.find? (·.url = url)
  ⟨entry, if url = [] then [] else (entry.map Entry.bookmark).toList⟩

theorem filed_bookmarks (cats : List Category) :
    (filed cats).map Entry.bookmark = allBookmarks cats := by
  induction cats with
  | nil => rfl
  | cons cat cats ih =>
    have hcat : (cat.bookmarks.map (Entry.mk cat.category)).map Entry.bookmark = cat.bookmarks := by
      rw [List.map_map]
      exact List.map_id _
    rw [filed, List.flatMap_cons, List.map_append, hcat]
    exact congrArg (cat.bookmarks ++ ·) ih

theorem filed_urls (cats : List Category) :
    (filed cats).map Entry.url = (allBookmarks cats).map Bookmark.url := by
  rw [← filed_bookmarks, List.map_map]
  rfl

theorem filed_sortDatabase (lib : PyLib) (cats : List Category) :
    (filed (sortDatabase lib cats)).Perm (filed cats) := by
  refine ((List.perm_insertionSort _ _).flatMap_right _).trans ?_
  induction cats with
  | nil => exact List.Perm.refl _
  | cons cat cats ih => exact ((sortBookmarks_perm lib cat.bookmarks).map _).append ih

namespace Database
variable {db : Database}

theorem slot_entry (h : db.DistinctUrls) {url : Str} {e : Entry} :
    (db.slot url).entry = some e ↔ e ∈ db.entries ∧ e.url = url := find?_key_eq_some h

theorem slot_known {url : Str} {bm : Bookmark} :
    bm ∈ (db.slot url).known ↔
      url ≠ [] ∧ ∃ e, (db.slot url).entry = some e ∧ e.bookmark = bm := by
  unfold slot
  dsimp only
  split
  · rename_i hnil
    exact ⟨fun hmem => (by cases hmem), fun hyes => absurd hnil hyes.1⟩
  · rename_i hne
    rw [Option.mem_toList, Option.map_eq_some_iff]
    exact ⟨fun hmem => ⟨hne, hmem⟩, And.right⟩

end Database

/-! ### What the objects file -/

theorem getElem?_concat_iff {α : Type*} {l : List α} {a x : α} {i : ℕ} :
    (l ++ [a])[i]? = some x ↔ l[i]? = some x ∨ i = l.length ∧ a = x := by
  rcases Nat.lt_trichotomy i l.length with hlt | rfl | hgt
  · rw [List.getElem?_append_left hlt]
    exact ⟨Or.inl, fun h => h.resolve_right fun h => hlt.ne h.1⟩
  · have hnone : l[l.length]? = none := List.getElem?_eq_none (Nat.le_refl _)
    rw [List.getElem?_append_right (Nat.le_refl _), Nat.sub_self, hnone]
    simp
  · rw [List.getElem?_eq_none (by rw [List.length_append, List.length_singleton]; omega),
      List.getElem?_eq_none (by omega)]
    simp [hgt.ne']

/-- The references of the categories, each with the name of its category. -/
def MergeState.refs (st : MergeState) : List (Str × ℕ) :=
  st.bookMarks.flatMap fun cat => cat.bookmarks.map (Prod.mk cat.category)

def entriesOf (heap : List Bookmark) (refs : List (Str × ℕ)) : List Entry :=
  refs.filterMap fun ref => (heap[ref.2]?).map (Entry.mk ref.1)

theorem mem_entriesOf {heap : List Bookmark} {refs : List (Str × ℕ)} {e : Entry} :
    e ∈ entriesOf heap refs ↔ ∃ i, (e.category, i) ∈ refs ∧ heap[i]? = some e.bookmark := by
  rw [entriesOf, List.mem_filterMap]
  constructor
  · rintro ⟨⟨name, i⟩, href, he⟩
    obtain ⟨bm, hbm, rfl⟩ := Option.map_eq_some_iff.mp he
    exact ⟨i, href, hbm⟩
  · rintro ⟨i, href, hbm⟩
    exact ⟨(e.category, i), href, by rw [hbm]; rfl⟩

theorem entriesOf_concat {heap : List Bookmark} {refs : List (Str × ℕ)}
    (h : ∀ ref ∈ refs, ref.2 < heap.length) (name : Str) (bm : Bookmark) :
    entriesOf (heap ++ [bm]) (refs ++ [(name, heap.length)]) =
      entriesOf heap refs ++ [⟨name, bm⟩] := by
  have hlast : (heap ++ [bm])[heap.length]? = some bm := List.getElem?_concat_length
  have hrefs : entriesOf (heap ++ [bm]) refs = entriesOf heap refs :=
    List.filterMap_congr fun ref href => by rw [List.getElem?_append_left (h ref href)]
  rw [← hrefs, entriesOf, List.filterMap_append]
  refine congrArg (entriesOf (heap ++ [bm]) refs ++ ·) ?_
  rw [List.filterMap_cons_some (b := ⟨name, bm⟩) (by rw [hlast]; rfl)]
  rfl

theorem urls_set {heap : List Bookmark} {id : ℕ} {old new : Bookmark}
    (hold : heap[id]? = some old) (hurl : new.url = old.url) :
    (heap.set id new).map Bookmark.url = heap.map Bookmark.url := by
  obtain ⟨hlt, rfl⟩ := List.getElem?_eq_some_iff.mp hold
  rw [List.map_set, hurl, ← List.getElem_map Bookmark.url (h := by rwa [List.length_map]),
    List.set_getElem_self]

theorem mem_entriesOf_set {heap : List Bookmark} {refs : List (Str × ℕ)} {id : ℕ}
    {old new : Bookmark} {cat : Str} (hdistinct : (heap.map Bookmark.url).Nodup)
    (hrefs : (refs.map Prod.snd).Nodup) (hold : heap[id]? = some old) (hurl : new.url = old.url)
    (href : (cat, id) ∈ refs) (e : Entry) :
    e ∈ entriesOf (heap.set id new) refs ↔
      if e.url = old.url then e = ⟨cat, new⟩ else e ∈ entriesOf heap refs := by
  have hlt := (List.getElem?_eq_some_iff.mp hold).1
  have hself : (heap.set id new)[id]? = some new := List.getElem?_set_self hlt
  have hat : ∀ {i : ℕ} {bm : Bookmark}, (heap.set id new)[i]? = some bm → bm.url = old.url →
      i = id := by
    intro i bm hbm hbmUrl
    have hi : ((heap.set id new).map Bookmark.url)[i]? = some old.url := by
      rw [List.getElem?_map, hbm, ← hbmUrl]
      rfl
    have hid : (heap.map Bookmark.url)[id]? = some old.url := by
      rw [List.getElem?_map, hold]
      rfl
    rw [urls_set hold hurl] at hi
    exact (List.getElem?_inj (List.getElem?_eq_some_iff.mp hi).1 hdistinct).mp (hi.trans hid.symm)
  rw [mem_entriesOf]
  split
  · rename_i he
    constructor
    · rintro ⟨i, hi, hbook⟩
      obtain rfl := hat hbook he
      have hsame : (e.category, i) = (cat, i) := List.inj_on_of_nodup_map hrefs hi href rfl
      rw [hself] at hbook
      rw [Option.some.inj hbook, ← (Prod.mk.inj hsame).1]
    · rintro rfl
      exact ⟨id, href, hself⟩
  · rename_i he
    rw [mem_entriesOf]
    refine exists_congr fun i => and_congr_right fun _ => ?_
    by_cases hi : i = id
    · subst hi
      rw [hself, hold]
      refine ⟨fun heq => absurd ?_ he, fun heq => absurd ?_ he⟩
      · rw [← hurl, Option.some.inj heq]
        rfl
      · rw [Option.some.inj heq]
        rfl
    · rw [List.getElem?_set_ne (Ne.symm hi)]

theorem filed_categories (st : MergeState) :
    filed st.categories = entriesOf st.heap st.refs := by
  rw [MergeState.categories, MergeState.refs]
  induction st.bookMarks with
  | nil => rfl
  | cons cat cats ih =>
    have hcat : (deref st.heap cat.bookmarks).map (Entry.mk cat.category) =
        entriesOf st.heap (cat.bookmarks.map (Prod.mk cat.category)) := by
      rw [deref, entriesOf, List.map_filterMap, List.filterMap_map]
      rfl
    rw [List.map_cons, filed, List.flatMap_cons, List.flatMap_cons, entriesOf,
      List.filterMap_append]
    exact congrArg₂ (· ++ ·) hcat ih

theorem loadCategories_categories (pre : List Bookmark) (cats : List Category) :
    (loadCategories pre.length cats).map (fun cat =>
      ⟨cat.category, deref (pre ++ allBookmarks cats) cat.bookmarks⟩) = cats := by
  induction cats generalizing pre with
  | nil => rfl
  | cons cat cats ih =>
    have hrest := ih (pre ++ cat.bookmarks)
    rw [List.length_append, List.append_assoc] at hrest
    have hfirst := deref_range' pre cat.bookmarks (allBookmarks cats)
    rw [List.append_assoc] at hfirst
    rw [loadCategories, List.map_cons]
    exact congrArg₂ List.cons (congrArg (Category.mk cat.category) hfirst) hrest

theorem load_categories (db : Database) : (MergeState.load db).categories = db.bookMarks :=
  loadCategories_categories [] db.bookMarks

theorem extendCategory_refs (name : Str) (ids : List ℕ) (cats : List CategoryRef) :
    ((extendCategory name ids cats).flatMap fun cat =>
        cat.bookmarks.map (Prod.mk cat.category)).Perm
      ((cats.flatMap fun cat => cat.bookmarks.map (Prod.mk cat.category)) ++
        ids.map (Prod.mk name)) := by
  induction cats with
  | nil => exact List.Perm.of_eq (List.append_nil _)
  | cons cat cats ih =>
    unfold extendCategory
    split
    · rename_i hname
      subst hname
      rw [List.flatMap_cons, List.flatMap_cons, List.map_append, List.append_assoc,
        List.append_assoc]
      exact List.perm_append_comm.append_left _
    · rw [List.flatMap_cons, List.flatMap_cons, List.append_assoc]
      exact ih.append_left _

/-- The objects, filed by `refs`, are what the slots say. -/
structure Represents (st : MergeState) (refs : List (Str × ℕ)) (slots : Str → Slot) : Prop where
  owned : (refs.map Prod.snd).Perm (List.range st.heap.length)
  distinct : (st.heap.map Bookmark.url).Nodup
  indexed : ∀ url id, st.existingByUrl.lookup url = some id ↔
    url ≠ [] ∧ (st.heap.map Bookmark.url)[id]? = some url
  entries : ∀ e : Entry, e ∈ entriesOf st.heap refs ↔ (slots e.url).entry = some e
  keyed : ∀ url e, (slots url).entry = some e → e.url = url
  known : ∀ bm, bm ∈ st.knownBookmarks ↔ bm ∈ (slots bm.url).known

/-! ### Loading -/

theorem indexBookmarks_isSome (entries : List (Bookmark × ℕ)) {url : Str} {index : UrlIndex}
    (h : (index.lookup url).isSome ∨ url ≠ [] ∧ ∃ entry ∈ entries, entry.1.url = url) :
    ((entries.foldl indexBookmark index).lookup url).isSome := by
  induction entries generalizing index with
  | nil =>
    rcases h with h | ⟨_, entry, hmem, _⟩
    · exact h
    · cases hmem
  | cons entry entries ih =>
    apply ih
    by_cases hhead : entry.1.url = url ∧ url ≠ []
    · obtain ⟨rfl, hne⟩ := hhead
      left
      rw [indexBookmark, if_neg hne, AList.lookup_insert]
      rfl
    · rcases h with h | ⟨hne, x, hx, hxurl⟩
      · left
        unfold indexBookmark
        split
        · exact h
        · rename_i hne
          by_cases hurl : url = entry.1.url
          · exact absurd ⟨hurl.symm, hurl ▸ hne⟩ hhead
          · rw [AList.lookup_insert_ne hurl]
            exact h
      · right
        refine ⟨hne, x, ?_, hxurl⟩
        rcases List.mem_cons.mp hx with rfl | hx
        · exact absurd ⟨hxurl, hne⟩ hhead
        · exact hx

theorem lookup_indexByUrl {heap : List Bookmark} (h : (heap.map Bookmark.url).Nodup) (url : Str)
    (id : ℕ) : (indexByUrl heap).lookup url = some id ↔
      url ≠ [] ∧ (heap.map Bookmark.url)[id]? = some url := by
  have hfound : ∀ u i, (indexByUrl heap).lookup u = some i →
      u ≠ [] ∧ (heap.map Bookmark.url)[i]? = some u := by
    apply indexBookmarks_all
    · rintro ⟨bm, i⟩ hmem hne
      refine ⟨hne, ?_⟩
      rw [List.getElem?_map, List.mk_mem_zipIdx_iff_getElem?.mp hmem]
      rfl
    · intro u i hi
      rw [AList.lookup_empty] at hi
      cases hi
  refine ⟨hfound url id, fun ⟨hne, hid⟩ => ?_⟩
  have hsome : ((indexByUrl heap).lookup url).isSome := by
    apply indexBookmarks_isSome
    rw [List.getElem?_map, Option.map_eq_some_iff] at hid
    obtain ⟨bm, hbm, hurl⟩ := hid
    exact Or.inr ⟨hne, (bm, id), List.mk_mem_zipIdx_iff_getElem?.mpr hbm, hurl⟩
  obtain ⟨i, hi⟩ := Option.isSome_iff_exists.mp hsome
  rw [hi, (List.getElem?_inj (List.getElem?_eq_some_iff.mp hid).1 h).mp
    (hid.trans (hfound url i hi).2.symm)]

theorem Represents.load {db : Database} (h : db.DistinctUrls) :
    Represents (MergeState.load db) (MergeState.load db).refs db.slot := by
  have hentries : entriesOf (MergeState.load db).heap (MergeState.load db).refs = db.entries := by
    rw [← filed_categories, load_categories]
    rfl
  have hurls : ((MergeState.load db).heap.map Bookmark.url).Nodup := by
    have := h
    rwa [Database.DistinctUrls, Database.entries, filed_urls] at this
  refine ⟨?_, hurls, lookup_indexByUrl hurls, ?_, ?_, ?_⟩
  · have hids : (MergeState.load db).refs.map Prod.snd =
        (MergeState.load db).bookMarks.flatMap (·.bookmarks) := by
      rw [MergeState.refs, List.map_flatMap]
      simp
    rw [hids, List.range_eq_range']
    exact List.Perm.of_eq (loadCategories_ids 0 db.bookMarks)
  · intro e
    rw [hentries, Database.slot_entry h]
    exact ⟨fun he => ⟨he, rfl⟩, And.left⟩
  · intro url e he
    exact ((Database.slot_entry h).mp he).2
  · intro bm
    rw [Database.slot_known]
    show bm ∈ deref _ _ ↔ _
    rw [deref, List.mem_filterMap]
    constructor
    · rintro ⟨id, hid, hbm⟩
      obtain ⟨⟨url, i⟩, hmem, rfl⟩ := List.mem_map.mp hid
      obtain ⟨hne, hurl⟩ := (lookup_indexByUrl hurls url i).mp (AList.mem_lookup_iff.mpr hmem)
      rw [List.getElem?_map] at hurl
      obtain rfl : bm.url = url :=
        Option.some.inj ((congrArg (Option.map Bookmark.url) hbm).symm.trans hurl)
      have hbms : bm ∈ (filed db.bookMarks).map Entry.bookmark := by
        rw [filed_bookmarks]
        exact List.mem_of_getElem? hbm
      obtain ⟨e, he, rfl⟩ := List.mem_map.mp hbms
      exact ⟨hne, e, (Database.slot_entry h).mpr ⟨he, rfl⟩, rfl⟩
    · rintro ⟨hne, e, he, rfl⟩
      have hbms : e.bookmark ∈ allBookmarks db.bookMarks := by
        rw [← filed_bookmarks]
        exact List.mem_map_of_mem ((Database.slot_entry h).mp he).1
      obtain ⟨i, hi⟩ := List.mem_iff_getElem?.mp hbms
      refine ⟨i, List.mem_map.mpr ⟨⟨e.bookmark.url, i⟩, AList.mem_lookup_iff.mp ?_, rfl⟩, hi⟩
      refine (lookup_indexByUrl hurls _ i).mpr ⟨hne, ?_⟩
      rw [List.getElem?_map]
      exact congrArg (Option.map Bookmark.url) hi

/-! ### One line -/

namespace Represents
variable {st : MergeState} {refs : List (Str × ℕ)} {slots : Str → Slot}

theorem perm {refs' : List (Str × ℕ)} (h : Represents st refs slots) (hp : refs'.Perm refs) :
    Represents st refs' slots where
  owned := (hp.map Prod.snd).trans h.owned
  distinct := h.distinct
  indexed := h.indexed
  entries := fun e => by
    rw [← h.entries e, entriesOf, entriesOf, (hp.filterMap _).mem_iff]
  keyed := h.keyed
  known := h.known

theorem entry_of_lookup (h : Represents st refs slots) {url : Str} {id : ℕ} {bm : Bookmark}
    (hid : st.existingByUrl.lookup url = some id) (hbm : st.heap[id]? = some bm) :
    bm.url = url ∧ ∃ name, (name, id) ∈ refs ∧ (slots url).entry = some ⟨name, bm⟩ := by
  have hurl := ((h.indexed url id).mp hid).2
  rw [List.getElem?_map, hbm] at hurl
  obtain rfl : bm.url = url := Option.some.inj hurl
  have hmem : id ∈ refs.map Prod.snd := by
    rw [h.owned.mem_iff, List.mem_range]
    exact (List.getElem?_eq_some_iff.mp hbm).1
  obtain ⟨⟨name, i⟩, href, rfl⟩ := List.mem_map.mp hmem
  exact ⟨rfl, name, href, (h.entries ⟨name, bm⟩).mp (mem_entriesOf.mpr ⟨i, href, hbm⟩)⟩

theorem entry_of_none (h : Represents st refs slots) {url : Str} (hne : url ≠ [])
    (hnone : st.existingByUrl.lookup url = none) : (slots url).entry = none := by
  cases he : (slots url).entry with
  | none => rfl
  | some e =>
    have hurl := h.keyed url e he
    subst hurl
    obtain ⟨i, _, hi⟩ := mem_entriesOf.mp ((h.entries e).mpr he)
    have hindexed := (h.indexed e.url i).mpr ⟨hne, by
      rw [List.getElem?_map]
      exact congrArg (Option.map Bookmark.url) hi⟩
    rw [hnone] at hindexed
    cases hindexed

theorem existing_bookmark (h : Represents st refs slots) {url : Str} (hne : url ≠ []) :
    (st.existing url).map (·.2) = (slots url).entry.map Entry.bookmark := by
  cases hid : st.existingByUrl.lookup url with
  | none =>
    rw [h.entry_of_none hne hid, MergeState.existing, hid]
    rfl
  | some id =>
    have hurl := ((h.indexed url id).mp hid).2
    rw [List.getElem?_map] at hurl
    obtain ⟨bm, hbm, _⟩ := Option.map_eq_some_iff.mp hurl
    obtain ⟨_, cat, _, hentry⟩ := h.entry_of_lookup hid hbm
    rw [hentry, MergeState.existing, hid, Option.bind_some, hbm]
    rfl

theorem known_cons (h : Represents st refs slots) {slot : Slot} (new : Bookmark)
    (hslot : slot.known = new :: (slots new.url).known) (bm : Bookmark) :
    bm ∈ new :: st.knownBookmarks ↔ bm ∈ (Function.update slots new.url slot bm.url).known := by
  by_cases hurl : bm.url = new.url
  · rw [hurl, Function.update_self, hslot, List.mem_cons, List.mem_cons, h.known, hurl]
  · rw [Function.update_of_ne hurl, List.mem_cons, h.known]
    constructor
    · rintro (rfl | hmem)
      · exact absurd rfl hurl
      · exact hmem
    · exact Or.inr

theorem keyed_update (h : Represents st refs slots) {u : Str} {slot : Slot}
    (hslot : ∀ e, slot.entry = some e → e.url = u) (url : Str) (e : Entry)
    (he : (Function.update slots u slot url).entry = some e) : e.url = url := by
  by_cases hu : url = u
  · subst hu
    rw [Function.update_self] at he
    exact hslot e he
  · rw [Function.update_of_ne hu] at he
    exact h.keyed url e he

theorem overwrite (h : Represents st refs slots) {id : ℕ} {old bm : Bookmark}
    (hid : st.existingByUrl.lookup bm.url = some id) (hold : st.heap[id]? = some old)
    (hnew : bm ∉ st.knownBookmarks) (name : Str) :
    Represents (st.overwrite id old bm) refs
      (slotwise Entry.url (Slot.merge true) slots ⟨name, bm⟩) := by
  obtain ⟨hurl, cat, href, hentry⟩ := h.entry_of_lookup hid hold
  have hmerge : Slot.merge true (slots bm.url) ⟨name, bm⟩ =
      ⟨some ⟨cat, old.update bm⟩, old.update bm :: (slots bm.url).known⟩ := by
    rw [Slot.merge, if_neg fun hmem => hnew ((h.known bm).mpr hmem), hentry]
    rfl
  have hslots : slotwise Entry.url (Slot.merge true) slots ⟨name, bm⟩ =
      Function.update slots bm.url
        ⟨some ⟨cat, old.update bm⟩, old.update bm :: (slots bm.url).known⟩ :=
    congrArg (Function.update slots bm.url) hmerge
  have hupdated : (old.update bm).url = old.url := hurl.symm
  have hheap := urls_set hold hupdated
  rw [hslots]
  refine ⟨?_, ?_, ?_, ?_, h.keyed_update ?_, h.known_cons (old.update bm) rfl⟩
  · show (refs.map Prod.snd).Perm (List.range (st.heap.set id (old.update bm)).length)
    rw [List.length_set]
    exact h.owned
  · show ((st.heap.set id (old.update bm)).map Bookmark.url).Nodup
    rw [hheap]
    exact h.distinct
  · intro url i
    show st.existingByUrl.lookup url = some i ↔
      url ≠ [] ∧ ((st.heap.set id (old.update bm)).map Bookmark.url)[i]? = some url
    rw [hheap]
    exact h.indexed url i
  · intro e
    have hset := mem_entriesOf_set h.distinct (h.owned.nodup_iff.mpr List.nodup_range) hold
      hupdated href e
    refine hset.trans ?_
    by_cases he : e.url = bm.url
    · rw [he, hurl, if_pos rfl, Function.update_self, Option.some_inj]
      exact eq_comm
    · rw [hurl, if_neg he, Function.update_of_ne he]
      exact h.entries e
  · intro e heq
    obtain rfl := Option.some.inj heq
    rfl

theorem append (h : Represents st refs slots) {bm : Bookmark} (hne : bm.url ≠ [])
    (hnone : st.existingByUrl.lookup bm.url = none) (hnew : bm ∉ st.knownBookmarks)
    (override : Bool) (name : Str) :
    Represents (st.append bm) (refs ++ [(name, st.heap.length)])
      (slotwise Entry.url (Slot.merge override) slots ⟨name, bm⟩) := by
  have hentry := h.entry_of_none hne hnone
  have hmerge : Slot.merge override (slots bm.url) ⟨name, bm⟩ =
      ⟨some ⟨name, bm⟩, bm :: (slots bm.url).known⟩ := by
    rw [Slot.merge, if_neg fun hmem => hnew ((h.known bm).mpr hmem), hentry]
  have hslots : slotwise Entry.url (Slot.merge override) slots ⟨name, bm⟩ =
      Function.update slots bm.url ⟨some ⟨name, bm⟩, bm :: (slots bm.url).known⟩ :=
    congrArg (Function.update slots bm.url) hmerge
  have hfresh : bm.url ∉ st.heap.map Bookmark.url := by
    intro hmem
    obtain ⟨i, hi⟩ := List.mem_iff_getElem?.mp hmem
    have hindexed := (h.indexed bm.url i).mpr ⟨hne, hi⟩
    rw [hnone] at hindexed
    cases hindexed
  rw [hslots]
  refine ⟨?_, ?_, ?_, ?_, h.keyed_update ?_, h.known_cons bm rfl⟩
  · show ((refs ++ [(name, st.heap.length)]).map Prod.snd).Perm
      (List.range (st.heap ++ [bm]).length)
    rw [List.map_append, List.length_append, List.length_singleton, List.range_succ]
    exact h.owned.append_right _
  · show ((st.heap ++ [bm]).map Bookmark.url).Nodup
    rw [List.map_append, List.map_singleton, ← List.concat_eq_append]
    exact h.distinct.concat hfresh
  · intro url i
    show (st.existingByUrl.insert bm.url st.heap.length).lookup url = some i ↔
      url ≠ [] ∧ ((st.heap ++ [bm]).map Bookmark.url)[i]? = some url
    rw [List.map_append, List.map_singleton, getElem?_concat_iff, List.length_map]
    by_cases hu : url = bm.url
    · subst hu
      rw [AList.lookup_insert, Option.some_inj]
      constructor
      · rintro rfl
        exact ⟨hne, Or.inr ⟨rfl, rfl⟩⟩
      · rintro ⟨_, hi | ⟨rfl, _⟩⟩
        · exact absurd (List.mem_of_getElem? hi) hfresh
        · rfl
    · rw [AList.lookup_insert_ne hu, h.indexed]
      refine and_congr_right fun _ => ⟨Or.inl, fun hi => hi.resolve_right fun hi => ?_⟩
      exact hu hi.2.symm
  · intro e
    have howned : ∀ ref ∈ refs, ref.2 < st.heap.length := fun ref href =>
      List.mem_range.mp (h.owned.mem_iff.mp (List.mem_map_of_mem href))
    show e ∈ entriesOf (st.heap ++ [bm]) (refs ++ [(name, st.heap.length)]) ↔ _
    rw [entriesOf_concat howned, List.mem_append, List.mem_singleton, h.entries]
    by_cases he : e.url = bm.url
    · rw [he, Function.update_self, hentry, Option.some_inj]
      exact ⟨fun hor => hor.elim (fun hno => (by cases hno)) Eq.symm, fun heq => Or.inr heq.symm⟩
    · rw [Function.update_of_ne he]
      refine ⟨fun hor => hor.resolve_right fun heq => ?_, Or.inl⟩
      exact he (congrArg Entry.url heq)
  · intro e heq
    obtain rfl := Option.some.inj heq
    rfl

end Represents

/-- One incoming bookmark does to the objects what it does to the slot of its URL. -/
theorem mergeBookmark_represents {st : MergeState} {addedBms : List ℕ} {name : Str}
    {slots : Str → Slot} (h : Represents st (st.refs ++ addedBms.map (Prod.mk name)) slots)
    (override : Bool) {bm : Bookmark} (hne : bm.url ≠ []) :
    Represents (mergeBookmark override (st, addedBms) bm).1
      ((mergeBookmark override (st, addedBms) bm).1.refs ++
        (mergeBookmark override (st, addedBms) bm).2.map (Prod.mk name))
      (slotwise Entry.url (Slot.merge override) slots ⟨name, bm⟩) := by
  by_cases hknown : bm ∈ st.knownBookmarks
  · have hsame : Slot.merge override (slots bm.url) ⟨name, bm⟩ = slots bm.url :=
      if_pos ((h.known bm).mp hknown)
    rw [slotwise_same hsame, mergeBookmark, if_pos hknown]
    exact h
  · cases hid : st.existingByUrl.lookup bm.url with
    | none =>
      have hex : st.existing bm.url = none := by
        rw [MergeState.existing, hid]
        rfl
      have hnew := h.append hne hid hknown override name
      simp only [mergeBookmark, hknown, hex, if_false]
      rw [List.map_append, ← List.append_assoc]
      exact hnew
    | some id =>
      have hurl := ((h.indexed bm.url id).mp hid).2
      rw [List.getElem?_map] at hurl
      obtain ⟨old, hold, _⟩ := Option.map_eq_some_iff.mp hurl
      have hex : st.existing bm.url = some (id, old) := by
        rw [MergeState.existing, hid, Option.bind_some, hold]
        rfl
      simp only [mergeBookmark, hknown, hex, if_false]
      cases override with
      | true => exact h.overwrite hid hold hknown name
      | false =>
        obtain ⟨_, cat, _, hentry⟩ := h.entry_of_lookup hid hold
        have hsame : Slot.merge false (slots bm.url) ⟨name, bm⟩ = slots bm.url := by
          rw [Slot.merge, if_neg fun hmem => hknown ((h.known bm).mpr hmem), hentry]
          rfl
        rw [slotwise_same hsame]
        exact h

theorem mergeBookmarks_represents {name : Str} (override : Bool) (bms : List Bookmark)
    (hne : ∀ bm ∈ bms, bm.url ≠ []) {st : MergeState} {addedBms : List ℕ} {slots : Str → Slot}
    (h : Represents st (st.refs ++ addedBms.map (Prod.mk name)) slots) :
    Represents (bms.foldl (mergeBookmark override) (st, addedBms)).1
      ((bms.foldl (mergeBookmark override) (st, addedBms)).1.refs ++
        (bms.foldl (mergeBookmark override) (st, addedBms)).2.map (Prod.mk name))
      ((bms.map (Entry.mk name)).foldl (slotwise Entry.url (Slot.merge override)) slots) := by
  induction bms generalizing st addedBms slots with
  | nil => exact h
  | cons bm bms ih =>
    exact ih (fun x hx => hne x (List.mem_cons_of_mem _ hx))
      (mergeBookmark_represents h override (hne bm (List.mem_cons_self ..)))

theorem mergeCategory_represents {st : MergeState} {slots : Str → Slot}
    (h : Represents st st.refs slots) (override : Bool) {newCat : Category}
    (hne : ∀ bm ∈ newCat.bookmarks, bm.url ≠ []) :
    Represents (mergeCategory override st newCat) (mergeCategory override st newCat).refs
      ((newCat.bookmarks.map (Entry.mk newCat.category)).foldl
        (slotwise Entry.url (Slot.merge override)) slots) := by
  have hstart : Represents st (st.refs ++ ([] : List ℕ).map (Prod.mk newCat.category)) slots := by
    rw [List.map_nil, List.append_nil]
    exact h
  have hloop := mergeBookmarks_represents override newCat.bookmarks hne hstart
  obtain ⟨st', addedBms, hfold, ⟨rfl, hcat⟩ | ⟨-, hcat⟩⟩ := mergeCategory_cases override st newCat
  · rw [hfold, List.map_nil, List.append_nil] at hloop
    rw [hcat]
    exact hloop
  · rw [hfold] at hloop
    have hfiled := hloop.perm (extendCategory_refs newCat.category addedBms st'.bookMarks)
    rw [hcat]
    exact ⟨hfiled.owned, hfiled.distinct, hfiled.indexed, hfiled.entries, hfiled.keyed,
      hfiled.known⟩

theorem mergeCategories_represents (override : Bool) (newCats : List Category)
    (hne : ∀ line ∈ filed newCats, line.url ≠ []) {st : MergeState} {slots : Str → Slot}
    (h : Represents st st.refs slots) :
    Represents (newCats.foldl (mergeCategory override) st)
      (newCats.foldl (mergeCategory override) st).refs
      ((filed newCats).foldl (slotwise Entry.url (Slot.merge override)) slots) := by
  induction newCats generalizing st slots with
  | nil => exact h
  | cons newCat newCats ih =>
    have hfirst : ∀ bm ∈ newCat.bookmarks, bm.url ≠ [] := fun bm hbm =>
      hne ⟨newCat.category, bm⟩ (List.mem_append_left _ (List.mem_map_of_mem hbm))
    have hrest : ∀ line ∈ filed newCats, line.url ≠ [] := fun line hline =>
      hne line (List.mem_append_right _ hline)
    have hcons : filed (newCat :: newCats) =
        newCat.bookmarks.map (Entry.mk newCat.category) ++ filed newCats := List.flatMap_cons
    rw [hcons, List.foldl_append]
    exact ih hrest (mergeCategory_represents h override hfirst)

end LocalMarks.Marks2json

import LocalMarks.Lib.Tally
import LocalMarks.Marks2json.Text
import Mathlib.Data.List.Sort

/-!
# Bookmarks, databases and their counters

A database stores two tallies next to its bookmarks: how many bookmarks name a domain and how
often a tag is given. `CountersOf` is what the script means them to be.
-/

namespace LocalMarks.Marks2json
open LocalMarks.Lib

structure Bookmark where
  title : Str
  url : Str
  description : Str
  tags : List Str
  domain : Str
  icon : Option Str
  deriving DecidableEq

structure Category where
  category : Str
  bookmarks : List Bookmark
  deriving DecidableEq

structure Counters where
  domainCounter : Tally Str
  tagCounter : Tally Str
  deriving DecidableEq

/-- The stored file. `json.loads` gives back what `json.dumps` was given. -/
structure Database where
  bookMarks : List Category
  bookMarkDomainHash : Tally Str
  bookMarkTagHash : Tally Str
  deriving DecidableEq

def Counters.empty : Counters := ⟨∅, ∅⟩

def Database.counters (db : Database) : Counters := ⟨db.bookMarkDomainHash, db.bookMarkTagHash⟩

def Database.of (bookMarks : List Category) (counters : Counters) : Database :=
  ⟨bookMarks, counters.domainCounter, counters.tagCounter⟩

/-- The bookmarks of a list of categories, in the order of the file. -/
def allBookmarks (categories : List Category) : List Bookmark := categories.flatMap (·.bookmarks)

/-- dict.update: an incoming bookmark without an icon leaves the old one. -/
def Bookmark.update (old bm : Bookmark) : Bookmark := { bm with icon := bm.icon.or old.icon }

/-! ### Counting -/

def adjustCounters (bm : Bookmark) (counters : Counters) (delta : ℤ) : Counters where
  domainCounter :=
    if bm.domain = [] then counters.domainCounter
    else counters.domainCounter.adjust bm.domain delta
  tagCounter := bm.tags.foldl (fun t tag => t.adjust tag delta) counters.tagCounter

/-- One bookmark of the loop in recalc_counters. -/
def countBookmark (counters : Counters) (bm : Bookmark) : Counters where
  domainCounter :=
    if bm.domain = [] then counters.domainCounter else counters.domainCounter.add bm.domain 1
  tagCounter := bm.tags.foldl (fun t tag => t.add tag 1) counters.tagCounter

def countCategories (counters : Counters) (categories : List Category) : Counters :=
  categories.foldl (fun counters cat => cat.bookmarks.foldl countBookmark counters) counters

def recalcCounters (categories : List Category) : Counters := countCategories .empty categories

/-! ### Sorting -/

def bookmarkSortKey (lib : PyLib) (bm : Bookmark) : Str :=
  let text := if bm.title ≠ [] then bm.title
    else if bm.description ≠ [] then bm.description else bm.url
  lib.lower (strip text)

def sortBookmarks (lib : PyLib) (bookmarks : List Bookmark) : List Bookmark :=
  bookmarks.insertionSort fun a b => bookmarkSortKey lib a ≤ bookmarkSortKey lib b

def sortDatabase (lib : PyLib) (bookMarks : List Category) : List Category :=
  (bookMarks.map fun cat => { cat with bookmarks := sortBookmarks lib cat.bookmarks }).insertionSort
    fun a b => lib.lower (strip a.category) ≤ lib.lower (strip b.category)

/-! ### What the counters mean -/

/-- The domain of a bookmark as a list of keys; none is counted when it is empty. -/
def domainsOf (bm : Bookmark) : List Str := if bm.domain = [] then [] else [bm.domain]

/-- Both tallies count exactly the given bookmarks. -/
structure CountersOf (counters : Counters) (bookmarks : List Bookmark) : Prop where
  domains : Tallies domainsOf counters.domainCounter bookmarks
  tags : Tallies Bookmark.tags counters.tagCounter bookmarks

theorem adjustCounters_domain (bm : Bookmark) (counters : Counters) (delta : ℤ) :
    (adjustCounters bm counters delta).domainCounter =
      counters.domainCounter.adjustAll (domainsOf bm) delta := by
  simp only [adjustCounters, domainsOf]
  split <;> rfl

theorem adjustCounters_tag (bm : Bookmark) (counters : Counters) (delta : ℤ) :
    (adjustCounters bm counters delta).tagCounter =
      counters.tagCounter.adjustAll bm.tags delta := rfl

theorem countBookmark_domain (counters : Counters) (bm : Bookmark) :
    (countBookmark counters bm).domainCounter =
      counters.domainCounter.addAll (domainsOf bm) := by
  simp only [countBookmark, domainsOf]
  split <;> rfl

theorem countBookmark_tag (counters : Counters) (bm : Bookmark) :
    (countBookmark counters bm).tagCounter = counters.tagCounter.addAll bm.tags := rfl

namespace CountersOf
variable {counters : Counters} {bookmarks bookmarks' : List Bookmark}

theorem empty : CountersOf .empty [] := ⟨Tallies.nil, Tallies.nil⟩

theorem perm (h : CountersOf counters bookmarks) (hp : bookmarks.Perm bookmarks') :
    CountersOf counters bookmarks' :=
  ⟨h.domains.perm hp, h.tags.perm hp⟩

theorem count (h : CountersOf counters bookmarks) (bm : Bookmark) :
    CountersOf (countBookmark counters bm) (bookmarks ++ [bm]) := by
  constructor
  · rw [countBookmark_domain]
    exact h.domains.addAll bm
  · rw [countBookmark_tag]
    exact h.tags.addAll bm

theorem count_all (h : CountersOf counters bookmarks) (bms : List Bookmark) :
    CountersOf (bms.foldl countBookmark counters) (bookmarks ++ bms) := by
  induction bms generalizing counters bookmarks with
  | nil => rwa [List.append_nil]
  | cons bm bms ih =>
    rw [List.foldl_cons, List.append_cons]
    exact ih (h.count bm)

theorem adjust_new (h : CountersOf counters bookmarks) (bm : Bookmark) :
    CountersOf (adjustCounters bm counters 1) (bookmarks ++ [bm]) := by
  constructor
  · rw [adjustCounters_domain]
    exact h.domains.adjustAll_incr bm
  · rw [adjustCounters_tag]
    exact h.tags.adjustAll_incr bm

theorem adjust_set (h : CountersOf counters bookmarks) {i : ℕ} {old : Bookmark}
    (hi : bookmarks[i]? = some old) (bm : Bookmark) :
    CountersOf (adjustCounters bm (adjustCounters old counters (-1)) 1) (bookmarks.set i bm) := by
  constructor
  · rw [adjustCounters_domain, adjustCounters_domain]
    exact h.domains.set hi bm
  · rw [adjustCounters_tag, adjustCounters_tag]
    exact h.tags.set hi bm

end CountersOf

theorem countCategories_eq (counters : Counters) (categories : List Category) :
    countCategories counters categories =
      (allBookmarks categories).foldl countBookmark counters := by
  simp only [countCategories, allBookmarks, List.foldl_flatMap]

theorem recalcCounters_countersOf (categories : List Category) :
    CountersOf (recalcCounters categories) (allBookmarks categories) := by
  rw [recalcCounters, countCategories_eq]
  exact CountersOf.empty.count_all (allBookmarks categories)

/-! ### Databases whose counters agree with their bookmarks -/

def Database.Agrees (db : Database) : Prop := CountersOf db.counters (allBookmarks db.bookMarks)

theorem Database.agrees_of {categories : List Category} {counters : Counters}
    (h : CountersOf counters (allBookmarks categories)) :
    (Database.of categories counters).Agrees := h

namespace Database.Agrees
variable {db : Database}

theorem domain_lookup (h : db.Agrees) (domain : Str) :
    db.bookMarkDomainHash.lookup domain =
      (recalcCounters db.bookMarks).domainCounter.lookup domain :=
  Counts.lookup_eq h.domains (recalcCounters_countersOf db.bookMarks).domains domain

theorem tag_lookup (h : db.Agrees) (tag : Str) :
    db.bookMarkTagHash.lookup tag = (recalcCounters db.bookMarks).tagCounter.lookup tag :=
  Counts.lookup_eq h.tags (recalcCounters_countersOf db.bookMarks).tags tag

theorem domain_pos (h : db.Agrees) {domain : Str} {n : ℤ}
    (hn : db.bookMarkDomainHash.lookup domain = some n) : 0 < n := Counts.pos h.domains hn

theorem tag_pos (h : db.Agrees) {tag : Str} {n : ℤ}
    (hn : db.bookMarkTagHash.lookup tag = some n) : 0 < n := Counts.pos h.tags hn

end Database.Agrees

/-! ### Sorting keeps the bookmarks -/

theorem sortBookmarks_perm (lib : PyLib) (bookmarks : List Bookmark) :
    (sortBookmarks lib bookmarks).Perm bookmarks := List.perm_insertionSort _ _

theorem allBookmarks_perm {cats cats' : List Category} (h : cats.Perm cats') :
    (allBookmarks cats).Perm (allBookmarks cats') := h.flatMap_right _

theorem sortDatabase_perm (lib : PyLib) (bookMarks : List Category) :
    (allBookmarks (sortDatabase lib bookMarks)).Perm (allBookmarks bookMarks) := by
  refine (allBookmarks_perm (List.perm_insertionSort _ _)).trans ?_
  induction bookMarks with
  | nil => exact List.Perm.refl _
  | cons cat cats ih => exact (sortBookmarks_perm lib cat.bookmarks).append ih

end LocalMarks.Marks2json

import LocalMarks.FrontEnd.Text
import LocalMarks.Lib.Reach
import Mathlib.Data.List.Infix

/-!
# The browse view (browse.js, sidebar.js, panel.js, search.js, tag_bar.js)

Five modules share the view, each with variables of its own, and draw into the same page. An
event runs to its end, with the events that its handlers dispatch, before the next one.
-/

namespace LocalMarks.FrontEnd.Browse
open LocalMarks.Lib

structure Bookmark where
  title : Str
  url : Str
  description : Str
  tags : List Str
  deriving DecidableEq

structure Category where
  category : Str
  bookmarks : List Bookmark
  deriving DecidableEq

/-! ### What is drawn -/

/-- An entry of the sidebar; the one without a category is Favorites. -/
structure SidebarEntry where
  category : Option Str
  badge : ℕ
  active : Bool
  deriving DecidableEq

inductive PanelTitle where
  | empty
  | category (name : Str) (shown total : ℕ)
  | favorites (shown : ℕ)
  | results (query : Str) (count : ℕ)
  deriving DecidableEq

/-- What stands in `#bookmark-list`. Search results come in groups. -/
inductive BookmarkList where
  | empty
  | cards (bookmarks : List Bookmark)
  | noMatch
  | groups (results : List (Str × List Bookmark))
  | noResults (query : Str)
  deriving DecidableEq

/-- The variables of the modules, the stored favourites, and the page. -/
structure View where
  -- browse.js
  allCategories : List Category
  searchQuery : Str
  activeCategory : ℤ
  -- sidebar.js
  sidebarCategories : List Category
  sidebarActive : ℤ
  -- panel.js
  panelCategories : List Category
  panelActive : ℤ
  -- search.js
  searchCategories : List Category
  -- tag_bar.js
  activeTags : List Str
  -- localStorage
  favorites : List Str
  -- the page
  headerTotal : ℕ
  sidebarCount : ℕ
  sidebar : List SidebarEntry
  panelTitle : PanelTitle
  bookmarkList : BookmarkList
  searchValue : Str
  clearVisible : Bool
  deriving DecidableEq

/-! ### Lists of bookmarks -/

def totalBookmarks (categories : List Category) : ℕ :=
  categories.foldl (fun s c => s + c.bookmarks.length) 0

/-- The first bookmark for each URL that is not in `seen`. -/
def uniqueFrom (seen : List Str) : List Bookmark → List Bookmark
  | [] => []
  | bm :: bms =>
    if seen.contains bm.url then uniqueFrom seen bms else bm :: uniqueFrom (bm.url :: seen) bms

def unique (bookmarks : List Bookmark) : List Bookmark := uniqueFrom [] bookmarks

def filterTags (activeTags : List Str) (bookmarks : List Bookmark) : List Bookmark :=
  bookmarks.filter fun bm => activeTags.all bm.tags.contains

def favoriteBookmarks (favorites : List Str) (categories : List Category) : List Bookmark :=
  unique ((categories.flatMap (·.bookmarks)).filter fun bm => favorites.contains bm.url)

/-! ### sidebar.js -/

def View.favoritesCount (v : View) : ℕ :=
  (favoriteBookmarks v.favorites v.sidebarCategories).length

def sidebarEntries (categories : List Category) (favCount : ℕ) (active : ℤ) : List SidebarEntry :=
  (if favCount = 0 then [] else [⟨none, favCount, active = -1⟩]) ++
    categories.zipIdx.map fun p => ⟨some p.1.category, p.1.bookmarks.length, (p.2 : ℤ) = active⟩

def View.renderSidebar (v : View) : View :=
  let active := if v.sidebarActive = -1 ∧ v.favoritesCount = 0 then 0 else v.sidebarActive
  { v with
    sidebarActive := active
    sidebarCount := totalBookmarks v.sidebarCategories
    sidebar := sidebarEntries v.sidebarCategories v.favoritesCount active }

def View.highlightSidebar (v : View) (index : ℤ) : View :=
  { v with
    sidebar := v.sidebar.zipIdx.map fun p =>
      { p.1 with active := (if 0 < v.favoritesCount then (p.2 : ℤ) - 1 else p.2) = index } }

/-- setActiveCategory of sidebar.js. -/
def View.sidebarSetActive (v : View) (index : ℤ) : View :=
  { v with sidebarActive := index }.highlightSidebar index

def View.unmark (v : View) : View :=
  { v with sidebar := v.sidebar.map fun e => { e with active := false } }

def View.markFirst (v : View) : View :=
  { v with
    sidebar := v.sidebar.zipIdx.map fun p => { p.1 with active := decide (p.2 = 0) } }

/-! ### panel.js -/

def cardList (bookmarks : List Bookmark) : BookmarkList :=
  if bookmarks = [] then .noMatch else .cards bookmarks

def View.renderCards (v : View) (bookmarks : List Bookmark) : View :=
  { v with bookmarkList := cardList bookmarks }

def View.renderFavorites (v : View) : View :=
  let filtered := filterTags v.activeTags (favoriteBookmarks v.favorites v.panelCategories)
  { v with panelTitle := .favorites filtered.length }.renderCards filtered

def View.renderCategory (v : View) (cat : Category) : View :=
  let filtered := filterTags v.activeTags (unique cat.bookmarks)
  { v with
    panelTitle := .category cat.category filtered.length (unique cat.bookmarks).length }.renderCards
      filtered

/-- The category of the panel; there is none at an index out of range. -/
def View.panelCategory (v : View) : Option Category :=
  if 0 ≤ v.panelActive then v.panelCategories[v.panelActive.toNat]? else none

/-- `renderPanel`. Without a category nothing is drawn. -/
def View.renderPanel (v : View) : View :=
  if v.panelActive = -1 then v.renderFavorites
  else v.panelCategory.elim v v.renderCategory

/-! ### search.js -/

section
variable (lower : Str → Str)

def searchText (bm : Bookmark) : Str :=
  lower ([' '].intercalate ((bm.title :: bm.description :: bm.url :: bm.tags).filter (· ≠ [])))

def searchResults (categories : List Category) (query : Str) : List (Str × Bookmark) :=
  (categories.flatMap fun cat => cat.bookmarks.map fun bm => (cat.category, bm)).filter fun p =>
    lower query <:+: searchText lower p.2

/-- The results by the names of their categories, in the order in which these come up. -/
def groupResults (results : List (Str × Bookmark)) : List (Str × List Bookmark) :=
  (results.map Prod.fst).reverse.dedup.reverse.map fun name =>
    (name, unique ((results.filter fun p => p.1 = name).map Prod.snd))

def View.renderSearch (v : View) (query : Str) : View :=
  let results := searchResults lower v.searchCategories query
  { v with
    panelTitle := .results query results.length
    bookmarkList := if results = [] then .noResults query else .groups (groupResults results) }

/-! ### browse.js -/

def View.updateHeaderCount (v : View) : View :=
  { v with headerTotal := totalBookmarks v.allCategories }

def View.onSearchCleared (v : View) : View :=
  ({ v with searchQuery := [] }.highlightSidebar v.activeCategory).renderPanel

/-- clearSearch of search.js, which dispatches `search-cleared`. -/
def View.searchClear (v : View) : View :=
  { v with searchValue := [], clearVisible := false }.markFirst.onSearchCleared

/-- The handlers of a click on a category and, with -1, on Favorites. -/
def View.selectCategory (v : View) (index : ℤ) : View :=
  let v := if v.searchQuery = [] then v
    else { v.searchClear with searchQuery := [], clearVisible := false }
  let v := { v with activeCategory := index }.sidebarSetActive index
  ({ v with panelActive := index, activeTags := [] }.highlightSidebar index).renderPanel

def View.clickSidebar (v : View) (k : ℕ) : View :=
  if 0 < v.favoritesCount ∧ k = 0 then v.selectCategory (-1)
  else v.selectCategory (if 0 < v.favoritesCount then (k : ℤ) - 1 else k)

def View.onFavoritesChanged (v : View) : View :=
  let wasFavView := v.sidebarActive = -1
  let v := v.renderSidebar
  (if wasFavView then v.renderPanel else v).updateHeaderCount

/-- The stored favourites after a click on the star of a bookmark. -/
def toggled (favorites : List Str) (url : Str) : List Str :=
  if favorites.contains url then favorites.erase url else favorites ++ [url]

def View.toggleFavorite (v : View) (url : Str) : View :=
  { v with favorites := toggled v.favorites url }.onFavoritesChanged

def View.toggleTag (v : View) (tag : Str) : View :=
  { v with
    activeTags :=
      if v.activeTags.contains tag then v.activeTags.erase tag else v.activeTags ++ [tag]
    }.renderPanel

def View.addTag (v : View) (tag : Str) : View :=
  { v with
    activeTags := if v.activeTags.contains tag then v.activeTags else v.activeTags ++ [tag]
    }.renderPanel

/-- The search box after its delay, or after Enter. -/
def View.searchInput (v : View) : View :=
  let query := trim v.searchValue
  let v := { v with clearVisible := query ≠ [] }
  if query = [] then (v.highlightSidebar v.activeCategory).renderPanel
  else { v with searchQuery := query }.unmark.renderSearch lower query

def View.onClearSearch (v : View) : View :=
  let v := { v.searchClear with searchQuery := [], activeTags := [] }
  (if v.activeCategory = -1 then v.markFirst else v.renderSidebar).renderPanel

/-- Escape in the list: clearSearch of keyboard.js. -/
def View.escape (v : View) : View :=
  { v with searchValue := [], clearVisible := false }.onSearchCleared

/-- `updateCategories`. Its categories are a variable of its own, so that `allCategories` stays. -/
def View.updateCategories (v : View) (categories : List Category) : View :=
  { v with
    sidebarCategories := categories
    sidebarActive := 0
    panelCategories := categories
    panelActive := 0
    searchCategories := categories
    activeCategory := 0
    searchQuery := []
    clearVisible := false }.updateHeaderCount.renderSidebar.renderPanel

/-- `renderBrowse`, with the query of the hash. -/
def View.renderBrowse (v : View) (urlQuery : Str) : View :=
  let q := if urlQuery ≠ [] then urlQuery else trim v.searchValue
  if q ≠ [] then
    { v with searchQuery := q, clearVisible := true, searchValue := q }.unmark.renderSearch lower q
  else if v.searchQuery ≠ [] then v.renderSearch lower v.searchQuery
  else v.renderPanel

/-- The browse route once the data are there; `hashQuery` is the parameter `q` of the hash. -/
def View.switchTo (v : View) (categories : List Category) (hashQuery : Option Str) : View :=
  ({ v with searchValue := hashQuery.getD v.searchValue }.updateCategories categories).renderBrowse
    lower (hashQuery.getD [])

def emptyView (favorites : List Str) (searchValue : Str) : View where
  allCategories := []
  searchQuery := []
  activeCategory := 0
  sidebarCategories := []
  sidebarActive := 0
  panelCategories := []
  panelActive := 0
  searchCategories := []
  activeTags := []
  favorites := favorites
  headerTotal := 0
  sidebarCount := 0
  sidebar := []
  panelTitle := .empty
  bookmarkList := .empty
  searchValue := searchValue
  clearVisible := false

/-- `initBrowse` and the first `renderBrowse`. -/
def initBrowse (favorites : List Str) (searchValue : Str) (categories : List Category)
    (hashQuery : Option Str) : View :=
  ({ emptyView favorites (hashQuery.getD searchValue) with
    allCategories := categories
    sidebarCategories := categories
    panelCategories := categories
    searchCategories := categories }.updateHeaderCount.renderSidebar).renderBrowse
      lower (hashQuery.getD [])

inductive Event where
  /-- A click on the sidebar entry at `k`. -/
  | click (k : ℕ)
  /-- The star of a bookmark. -/
  | star (url : Str)
  /-- A tag of the tag bar. -/
  | toggleTag (tag : Str)
  /-- A tag on a card, of the panel or of the search results. -/
  | addTag (tag : Str)
  | clearTags
  | tagBarToggle
  | typed (value : Str)
  | searchInput
  | clearSearch
  | escape
  | switchTo (categories : List Category) (hashQuery : Option Str)

def exec (v : View) : Event → Option View
  | .click k => if k < v.sidebar.length then some (v.clickSidebar k) else none
  | .star url => some (v.toggleFavorite url)
  | .toggleTag tag => some (v.toggleTag tag)
  | .addTag tag => some (v.addTag tag)
  | .clearTags => some { v with activeTags := [] }.renderPanel
  | .tagBarToggle => some v.renderPanel
  | .typed value => some { v with searchValue := value }
  | .searchInput => some (v.searchInput lower)
  | .clearSearch => some v.onClearSearch
  | .escape => some v.escape
  | .switchTo categories hashQuery => some (v.switchTo lower categories hashQuery)

def Started (v : View) : Prop := ∃ favorites searchValue categories hashQuery,
  v = initBrowse lower favorites searchValue categories hashQuery

end

end LocalMarks.FrontEnd.Browse

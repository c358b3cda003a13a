import LocalMarks.FrontEnd.ActiveCategory

/-!
# What a switch of the database leaves behind

Two runs of the browse view that end with a switch to the same database are compared by what the
page shows then.
-/

namespace LocalMarks.FrontEnd.Browse
open LocalMarks.Lib

structure Display where
  headerTotal : ℕ
  sidebarCount : ℕ
  sidebar : List SidebarEntry
  bookmarkList : BookmarkList
  deriving DecidableEq

def View.display (v : View) : Display :=
  ⟨v.headerTotal, v.sidebarCount, v.sidebar, v.bookmarkList⟩

variable (lower : Str → Str)

/-- The view of the database that is loaded first. -/
def Loaded (categories : List Category) (v : View) : Prop := ∃ favorites searchValue hashQuery,
  v = initBrowse lower favorites searchValue categories hashQuery

/-- The tags left over let the same bookmarks of the first category through. For a database without
categories no panel is drawn, and the lists left over are equal. -/
def SameLeft (categories : List Category) (v w : View) : Prop :=
  categories.head?.elim (v.bookmarkList = w.bookmarkList) fun cat =>
    ∀ bm ∈ unique cat.bookmarks,
      (∀ t ∈ v.activeTags, t ∈ bm.tags) ↔ ∀ t ∈ w.activeTags, t ∈ bm.tags

/-! ### The categories of browse.js -/

variable {v v' : View}

@[simp] theorem renderPanel_allCategories : v.renderPanel.allCategories = v.allCategories := by
  rw [renderPanel_eq]

theorem selectCategory_allCategories (i : ℤ) :
    (v.selectCategory i).allCategories = v.allCategories := by
  unfold View.selectCategory
  dsimp only
  rw [renderPanel_allCategories]
  split
  · rfl
  · exact renderPanel_allCategories

theorem onFavoritesChanged_allCategories :
    v.onFavoritesChanged.allCategories = v.allCategories := by
  unfold View.onFavoritesChanged
  dsimp only [View.updateHeaderCount]
  split
  · exact renderPanel_allCategories
  · rfl

theorem searchInput_allCategories :
    (v.searchInput lower).allCategories = v.allCategories := by
  unfold View.searchInput
  dsimp only
  split
  · exact renderPanel_allCategories
  · rfl

theorem onClearSearch_allCategories : v.onClearSearch.allCategories = v.allCategories := by
  unfold View.onClearSearch
  dsimp only
  rw [renderPanel_allCategories]
  split <;> exact renderPanel_allCategories

theorem renderBrowse_allCategories (urlQuery : Str) :
    (v.renderBrowse lower urlQuery).allCategories = v.allCategories := by
  unfold View.renderBrowse
  generalize (if urlQuery ≠ [] then urlQuery else trim v.searchValue) = q
  dsimp only
  split
  · rfl
  · split
    · rfl
    · exact renderPanel_allCategories

theorem exec_allCategories {e : Event} (hst : exec lower v e = some v') :
    v'.allCategories = v.allCategories := by
  cases e with
  | click k =>
    obtain ⟨-, hst⟩ := Option.ite_none_right_eq_some.mp hst
    obtain rfl := Option.some.inj hst
    unfold View.clickSidebar
    split <;> exact selectCategory_allCategories _
  | star url =>
    obtain rfl := Option.some.inj hst
    exact onFavoritesChanged_allCategories
  | toggleTag _ | addTag _ | clearTags | tagBarToggle | escape =>
    obtain rfl := Option.some.inj hst
    exact renderPanel_allCategories
  | typed value =>
    obtain rfl := Option.some.inj hst
    rfl
  | searchInput =>
    obtain rfl := Option.some.inj hst
    exact searchInput_allCategories lower
  | clearSearch =>
    obtain rfl := Option.some.inj hst
    exact onClearSearch_allCategories
  | switchTo categories hashQuery =>
    obtain rfl := Option.some.inj hst
    exact (renderBrowse_allCategories lower _).trans renderPanel_allCategories

theorem run_allCategories {categories : List Category}
    (h : Reach (Loaded lower categories) (StepOf (exec lower)) v) :
    v.allCategories = categories := by
  induction h with
  | start hstart =>
    obtain ⟨favorites, searchValue, hashQuery, rfl⟩ := hstart
    exact renderBrowse_allCategories lower _
  | next e _ hstep ih => exact (exec_allCategories lower hstep).trans ih

/-! ### After the switch -/

/-- What `updateCategories` sets before it draws the panel. -/
def View.reset (v : View) (categories : List Category) : View :=
  { v with
    sidebarCategories := categories
    sidebarActive := 0
    panelCategories := categories
    panelActive := 0
    searchCategories := categories
    activeCategory := 0
    searchQuery := []
    clearVisible := false }.updateHeaderCount.renderSidebar

theorem updateCategories_eq (v : View) (categories : List Category) :
    v.updateCategories categories = (v.reset categories).renderPanel := rfl

theorem renderBrowse_updateCategories (categories : List Category) (hbox : v.searchValue = []) :
    (v.updateCategories categories).renderBrowse lower [] = v.updateCategories categories := by
  have hvalue : (v.updateCategories categories).searchValue = [] := by
    rw [updateCategories_eq, renderPanel_eq]
    exact hbox
  have hquery : (v.updateCategories categories).searchQuery = [] := by
    rw [updateCategories_eq, renderPanel_eq]
    rfl
  have hdraw : (v.updateCategories categories).renderBrowse lower [] =
      (v.updateCategories categories).renderPanel := by
    simp [View.renderBrowse, hvalue, hquery, trim]
  rw [hdraw, updateCategories_eq, renderPanel_idem]

theorem renderPanel_reset (categories : List Category) :
    (v.reset categories).renderPanel.bookmarkList =
      categories.head?.elim v.bookmarkList fun cat =>
        cardList (filterTags v.activeTags (unique cat.bookmarks)) := by
  have hactive : (v.reset categories).panelActive = 0 := rfl
  have hcategory : (v.reset categories).panelCategory = categories.head? := by
    rw [List.head?_eq_getElem?]
    rfl
  rw [View.renderPanel, if_neg (by rw [hactive]; decide), hcategory]
  cases categories <;> rfl

/-- Of the view before the switch, the header shows the first categories ever loaded, and the list
is filtered by the tags that are left over. -/
theorem updateCategories_display (v : View) (categories : List Category) :
    (v.updateCategories categories).display =
      { headerTotal := totalBookmarks v.allCategories
        sidebarCount := totalBookmarks categories
        sidebar := sidebarEntries categories (favoriteBookmarks v.favorites categories).length 0
        bookmarkList := categories.head?.elim v.bookmarkList fun cat =>
          cardList (filterTags v.activeTags (unique cat.bookmarks)) } := by
  rw [updateCategories_eq, ← renderPanel_reset, View.display, renderPanel_eq]
  rfl

theorem switchTo_eq (categories : List Category) {hashQuery : Option Str}
    (hbox : hashQuery.getD v.searchValue = []) :
    v.switchTo lower categories hashQuery =
      { v with searchValue := [] }.updateCategories categories := by
  have hurl : hashQuery.getD [] = [] := by
    cases hashQuery with
    | none => rfl
    | some query => exact hbox
  rw [View.switchTo, hurl, hbox, renderBrowse_updateCategories lower categories rfl]

theorem cardList_injective : Function.Injective cardList := by
  intro xs ys h
  unfold cardList at h
  split at h <;> split at h
  · rename_i hxs hys
    rw [hxs, hys]
  · cases h
  · cases h
  · exact BookmarkList.cards.inj h

theorem mem_filterTags {tags : List Str} {bm : Bookmark} {bookmarks : List Bookmark} :
    bm ∈ filterTags tags bookmarks ↔ bm ∈ bookmarks ∧ ∀ t ∈ tags, t ∈ bm.tags := by
  simp [filterTags]

theorem filterTags_eq_iff {tags tags' : List Str} {bookmarks : List Bookmark} :
    filterTags tags bookmarks = filterTags tags' bookmarks ↔
      ∀ bm ∈ bookmarks, (∀ t ∈ tags, t ∈ bm.tags) ↔ ∀ t ∈ tags', t ∈ bm.tags := by
  constructor
  · intro h bm hbm
    have hmem : bm ∈ filterTags tags bookmarks ↔ bm ∈ filterTags tags' bookmarks := by rw [h]
    rw [mem_filterTags, mem_filterTags] at hmem
    simpa only [hbm, true_and] using hmem
  · intro h
    apply List.filter_congr
    intro bm hbm
    have hsame := h bm hbm
    rw [Bool.eq_iff_iff]
    simpa using hsame

/-- The displays after the two switches are equal exactly when the first databases of the runs have
equally many bookmarks and the lists agree in what is left over. -/
theorem switchTo_display_iff {first first' categories : List Category}
    {hashQuery hashQuery' : Option Str}
    (h : Reach (Loaded lower first) (StepOf (exec lower)) v)
    (h' : Reach (Loaded lower first') (StepOf (exec lower)) v')
    (hbox : hashQuery.getD v.searchValue = []) (hbox' : hashQuery'.getD v'.searchValue = [])
    (hfav : v.favorites = v'.favorites) :
    (v.switchTo lower categories hashQuery).display =
        (v'.switchTo lower categories hashQuery').display ↔
      totalBookmarks first = totalBookmarks first' ∧ SameLeft categories v v' := by
  rw [switchTo_eq lower categories hbox, switchTo_eq lower categories hbox',
    updateCategories_display, updateCategories_display, Display.mk.injEq,
    run_allCategories lower h, run_allCategories lower h', hfav]
  simp only [true_and]
  cases categories with
  | nil => rfl
  | cons cat cats =>
    exact and_congr_right fun _ => cardList_injective.eq_iff.trans filterTags_eq_iff

def goCategories : List Category :=
  [⟨"go".toList, [⟨"Go".toList, "https://go.dev".toList, [], ["lang".toList]⟩, leanBook]⟩]

theorem switchTo_display_dev : ∃ v v' : View,
    Reach (Loaded id devCategories) (StepOf (exec id)) v ∧
    Reach (Loaded id goCategories) (StepOf (exec id)) v' ∧
    (v.switchTo id devCategories none).display = (v'.switchTo id devCategories none).display := by
  let v := initBrowse id [] [] devCategories none
  let start := initBrowse id [] [] goCategories none
  let v' := { start.addTag "lang".toList with activeTags := [] }.renderPanel
  have hrun : Reach (Loaded id devCategories) (StepOf (exec id)) v := .start ⟨_, _, _, rfl⟩
  have hstart : Reach (Loaded id goCategories) (StepOf (exec id)) start := .start ⟨_, _, _, rfl⟩
  have hrun' : Reach (Loaded id goCategories) (StepOf (exec id)) v' :=
    hstart.of_runList [.addTag "lang".toList, .clearTags] rfl
  refine ⟨v, v', hrun, hrun', ?_⟩
  have hleft : SameLeft devCategories v v' := fun _ _ => Iff.rfl
  exact (switchTo_display_iff id hrun hrun' rfl rfl rfl).mpr ⟨by decide +kernel, hleft⟩

theorem switched_display : ¬ ∀ lower first first' categories hashQuery hashQuery' v v',
    Reach (Loaded lower first) (StepOf (exec lower)) v →
    Reach (Loaded lower first') (StepOf (exec lower)) v' →
    hashQuery.getD v.searchValue = [] → hashQuery'.getD v'.searchValue = [] →
    v.favorites = v'.favorites →
    (v.switchTo lower categories hashQuery).display =
      (v'.switchTo lower categories hashQuery').display := by
  intro h
  let v := initBrowse id [] [] devCategories none
  let v' := initBrowse id [] [] [] none
  have hsame := h id devCategories [] devCategories none none v v'
    (.start ⟨_, _, _, rfl⟩) (.start ⟨_, _, _, rfl⟩) rfl rfl rfl
  exact absurd hsame (by decide +kernel)

end LocalMarks.FrontEnd.Browse

import LocalMarks.FrontEnd.ActiveCategory

/-!
# What a click on the sidebar opens

A handler knows of an entry only its place in the list, and counts the favourites anew to tell
what stands there. The list was drawn at some earlier event.
-/

namespace LocalMarks.FrontEnd.Browse
open LocalMarks.Lib

def SidebarEntry.told (e : SidebarEntry) : Option Str × ℕ := (e.category, e.badge)

def View.toTell (v : View) : List (Option Str × ℕ) :=
  (if v.favoritesCount = 0 then [] else [(none, v.favoritesCount)]) ++
    v.sidebarCategories.map fun cat => (some cat.category, cat.bookmarks.length)

/-- To draw the sidebar again would change none of its texts, and the modules have the same
categories. -/
structure View.UpToDate (v : View) : Prop where
  entries : v.sidebar.map (·.told) = v.toTell
  count : v.sidebarCount = totalBookmarks v.sidebarCategories
  panel : v.panelCategories = v.sidebarCategories
  search : v.searchCategories = v.sidebarCategories

/-- The panel shows what the entry says: so many favourites, or a category of that name with so
many bookmarks, of which it has one card for each URL. -/
def View.Shows (v : View) (e : SidebarEntry) : Prop :=
  match e.category with
  | none => v.panelTitle = .favorites e.badge ∧
      v.bookmarkList = .cards (favoriteBookmarks v.favorites v.sidebarCategories)
  | some name => ∃ cat ∈ v.sidebarCategories,
      cat.category = name ∧ cat.bookmarks.length = e.badge ∧
      v.panelTitle = .category name (unique cat.bookmarks).length (unique cat.bookmarks).length ∧
      v.bookmarkList = cardList (unique cat.bookmarks)

variable {v : View} {i : ℤ}

/-! ### What is drawn only by `renderSidebar` -/

def View.outline (v : View) :=
  (v.sidebarCategories, v.panelCategories, v.searchCategories, v.favorites, v.sidebarCount,
    v.sidebar.map (·.told))

theorem View.UpToDate.keep {w : View} (h : v.UpToDate) (hsame : w.outline = v.outline) :
    w.UpToDate := by
  simp only [View.outline, Prod.mk.injEq] at hsame
  obtain ⟨hcats, hpanel, hsearch, hfav, hcount, htold⟩ := hsame
  constructor
  · rw [htold, h.entries, View.toTell, View.toTell, View.favoritesCount, View.favoritesCount,
      hcats, hfav]
  · rw [hcount, hcats, h.count]
  · rw [hpanel, hcats, h.panel]
  · rw [hsearch, hcats, h.search]

theorem outline_favoritesCount {w : View} (h : w.outline = v.outline) :
    w.favoritesCount = v.favoritesCount := by
  simp only [View.outline, Prod.mk.injEq] at h
  rw [View.favoritesCount, View.favoritesCount, h.1, h.2.2.2.1]

theorem remark_told {f : SidebarEntry × ℕ → Bool} (entries : List SidebarEntry) :
    (entries.zipIdx.map fun p => { p.1 with active := f p }).map (·.told) =
      entries.map (·.told) := by
  rw [List.map_map]
  conv_rhs => rw [← List.zipIdx_map_fst 0 entries, List.map_map]
  rfl

theorem highlightSidebar_outline : (v.highlightSidebar i).outline = v.outline := by
  rw [View.outline, View.highlightSidebar, remark_told]
  rfl

theorem markFirst_outline : v.markFirst.outline = v.outline := by
  rw [View.outline, View.markFirst, remark_told]
  rfl

theorem unmark_outline : v.unmark.outline = v.outline := by
  rw [View.outline, View.unmark, List.map_map]
  rfl

theorem renderPanel_outline : v.renderPanel.outline = v.outline := by
  rw [renderPanel_eq]
  rfl

theorem onSearchCleared_outline : v.onSearchCleared.outline = v.outline :=
  renderPanel_outline.trans highlightSidebar_outline

theorem searchClear_outline : v.searchClear.outline = v.outline :=
  onSearchCleared_outline.trans markFirst_outline

theorem updateHeaderCount_outline : v.updateHeaderCount.outline = v.outline := rfl

def View.select (v : View) (i : ℤ) : View :=
  { { v with activeCategory := i }.sidebarSetActive i with
    panelActive := i, activeTags := [] }.highlightSidebar i

theorem select_outline : (v.select i).outline = v.outline :=
  highlightSidebar_outline.trans
    (highlightSidebar_outline (v := { v with activeCategory := i, sidebarActive := i }))

theorem selectCategory_eq (v : View) (i : ℤ) : ∃ w : View, w.outline = v.outline ∧
    v.selectCategory i = (w.select i).renderPanel := by
  by_cases hq : v.searchQuery = []
  · refine ⟨v, rfl, ?_⟩
    rw [View.selectCategory, if_pos hq]
    rfl
  · refine ⟨{ v.searchClear with searchQuery := [], clearVisible := false }, ?_, ?_⟩
    · exact searchClear_outline
    · rw [View.selectCategory, if_neg hq]
      rfl

theorem selectCategory_outline : (v.selectCategory i).outline = v.outline := by
  obtain ⟨w, hw, heq⟩ := selectCategory_eq v i
  rw [heq, renderPanel_outline, select_outline, hw]

theorem clickSidebar_outline (k : ℕ) : (v.clickSidebar k).outline = v.outline := by
  unfold View.clickSidebar
  split <;> exact selectCategory_outline

theorem renderSidebar_upToDate (hpanel : v.panelCategories = v.sidebarCategories)
    (hsearch : v.searchCategories = v.sidebarCategories) : v.renderSidebar.UpToDate where
  entries := by
    show (sidebarEntries v.sidebarCategories v.favoritesCount _).map (·.told) = v.toTell
    unfold sidebarEntries View.toTell
    rw [List.map_append, List.map_map]
    congr 1
    · split <;> rfl
    · conv_rhs => rw [← List.zipIdx_map_fst 0 v.sidebarCategories, List.map_map]
      rfl
  count := rfl
  panel := hpanel
  search := hsearch

/-! ### Events -/

theorem toggleFavorite_upToDate (h : v.UpToDate) (url : Str) : (v.toggleFavorite url).UpToDate := by
  have hdrawn : ({ v with favorites := toggled v.favorites url }.renderSidebar).UpToDate :=
    renderSidebar_upToDate h.panel h.search
  unfold View.toggleFavorite View.onFavoritesChanged
  dsimp only
  refine hdrawn.keep (updateHeaderCount_outline.trans ?_)
  split
  · exact renderPanel_outline
  · rfl

section
variable (lower : Str → Str)

theorem renderSearch_outline (query : Str) :
    (v.unmark.renderSearch lower query).outline = v.outline := by
  rw [← unmark_outline (v := v)]
  rfl

theorem searchInput_outline : (v.searchInput lower).outline = v.outline := by
  unfold View.searchInput
  dsimp only
  split
  · exact renderPanel_outline.trans highlightSidebar_outline
  · exact renderSearch_outline lower _

theorem onClearSearch_upToDate (h : v.UpToDate) : v.onClearSearch.UpToDate := by
  have hclear : { v.searchClear with searchQuery := [], activeTags := [] }.UpToDate :=
    h.keep searchClear_outline
  unfold View.onClearSearch
  dsimp only
  split
  · exact hclear.keep (renderPanel_outline.trans markFirst_outline)
  · exact (renderSidebar_upToDate hclear.panel hclear.search).keep renderPanel_outline

theorem renderBrowse_outline (urlQuery : Str) :
    (v.renderBrowse lower urlQuery).outline = v.outline := by
  unfold View.renderBrowse
  dsimp only
  generalize (if urlQuery ≠ [] then urlQuery else trim v.searchValue) = q
  split
  · exact renderSearch_outline lower q
  · split
    · rfl
    · exact renderPanel_outline

theorem updateCategories_upToDate (categories : List Category) :
    (v.updateCategories categories).UpToDate :=
  (renderSidebar_upToDate rfl rfl).keep renderPanel_outline

theorem switchTo_upToDate (categories : List Category) (hashQuery : Option Str) :
    (v.switchTo lower categories hashQuery).UpToDate :=
  (updateCategories_upToDate categories).keep (renderBrowse_outline lower _)

theorem initBrowse_upToDate (favorites : List Str) (searchValue : Str)
    (categories : List Category) (hashQuery : Option Str) :
    (initBrowse lower favorites searchValue categories hashQuery).UpToDate :=
  (renderSidebar_upToDate rfl rfl).keep (renderBrowse_outline lower _)

theorem exec_upToDate {v' : View} {e : Event} (h : v.UpToDate) (hst : exec lower v e = some v') :
    v'.UpToDate := by
  cases e with
  | click k =>
    obtain ⟨-, hst⟩ := Option.ite_none_right_eq_some.mp hst
    obtain rfl := Option.some.inj hst
    exact h.keep (clickSidebar_outline k)
  | star url =>
    obtain rfl := Option.some.inj hst
    exact toggleFavorite_upToDate h url
  | toggleTag _ | addTag _ | clearTags | tagBarToggle =>
    obtain rfl := Option.some.inj hst
    exact h.keep renderPanel_outline
  | typed value =>
    obtain rfl := Option.some.inj hst
    exact h.keep rfl
  | searchInput =>
    obtain rfl := Option.some.inj hst
    exact h.keep (searchInput_outline lower)
  | clearSearch =>
    obtain rfl := Option.some.inj hst
    exact onClearSearch_upToDate h
  | escape =>
    obtain rfl := Option.some.inj hst
    exact h.keep onSearchCleared_outline
  | switchTo categories hashQuery =>
    obtain rfl := Option.some.inj hst
    exact switchTo_upToDate lower categories hashQuery

theorem run_upToDate (h : Reach (Started lower) (StepOf (exec lower)) v) : v.UpToDate := by
  induction h with
  | start hstart =>
    obtain ⟨favorites, searchValue, categories, hashQuery, rfl⟩ := hstart
    exact initBrowse_upToDate lower favorites searchValue categories hashQuery
  | next e _ hstep ih => exact exec_upToDate lower ih hstep

end

/-! ### A click -/

theorem View.UpToDate.entry (h : v.UpToDate) {k : ℕ} {e : SidebarEntry}
    (he : v.sidebar[k]? = some e) :
    (v.indexOf k = -1 ∧ 0 < v.favoritesCount ∧ k = 0 ∧ e.told = (none, v.favoritesCount)) ∨
    ∃ j : ℕ, v.indexOf k = j ∧ ¬(0 < v.favoritesCount ∧ k = 0) ∧
      ∃ cat, v.sidebarCategories[j]? = some cat ∧
        e.told = (some cat.category, cat.bookmarks.length) := by
  have htold : v.toTell[k]? = some e.told := by
    rw [← h.entries, List.getElem?_map, he]
    rfl
  unfold View.toTell at htold
  unfold View.indexOf
  by_cases hfav : v.favoritesCount = 0
  · rw [if_pos hfav, List.nil_append, List.getElem?_map] at htold
    obtain ⟨cat, hcat, hcat'⟩ := Option.map_eq_some_iff.mp htold
    have hno : ¬0 < v.favoritesCount := by rw [hfav]; exact Nat.lt_irrefl 0
    exact Or.inr ⟨k, if_neg hno, fun hk => hno hk.1, cat, hcat, hcat'.symm⟩
  · rw [if_neg hfav] at htold
    have hpos : 0 < v.favoritesCount := Nat.pos_of_ne_zero hfav
    rw [if_pos hpos]
    cases k with
    | zero => exact Or.inl ⟨rfl, hpos, rfl, (Option.some.inj htold).symm⟩
    | succ j =>
      rw [List.singleton_append, List.getElem?_cons_succ, List.getElem?_map] at htold
      obtain ⟨cat, hcat, hcat'⟩ := Option.map_eq_some_iff.mp htold
      exact Or.inr ⟨j, by omega, by omega, cat, hcat, hcat'.symm⟩

theorem clickSidebar_eq (v : View) (k : ℕ) : v.clickSidebar k = v.selectCategory (v.indexOf k) := by
  unfold View.clickSidebar View.indexOf
  split
  · rename_i hk
    rw [if_pos hk.1, hk.2]
    rfl
  · rfl

theorem filterTags_nil (bookmarks : List Bookmark) : filterTags [] bookmarks = bookmarks :=
  List.filter_eq_self.mpr fun _ _ => rfl

theorem selectCategory_favorites (hpanel : v.panelCategories = v.sidebarCategories) :
    (v.selectCategory (-1)).panelTitle = .favorites v.favoritesCount ∧
      (v.selectCategory (-1)).bookmarkList =
        cardList (favoriteBookmarks v.favorites v.sidebarCategories) := by
  obtain ⟨w, hw, heq⟩ := selectCategory_eq v (-1)
  simp only [View.outline, Prod.mk.injEq] at hw
  obtain ⟨-, hwpanel, -, hfav, -⟩ := hw
  have hdrawn : v.selectCategory (-1) = (w.select (-1)).renderFavorites := heq
  rw [hdrawn]
  unfold View.renderFavorites View.renderCards View.favoritesCount
  rw [← hpanel, ← hwpanel, ← hfav]
  show PanelTitle.favorites (filterTags [] (favoriteBookmarks w.favorites w.panelCategories)).length
      = _ ∧ cardList (filterTags [] (favoriteBookmarks w.favorites w.panelCategories)) = _
  rw [filterTags_nil]
  exact ⟨rfl, rfl⟩

theorem selectCategory_category (hpanel : v.panelCategories = v.sidebarCategories) {j : ℕ}
    {cat : Category} (hcat : v.sidebarCategories[j]? = some cat) :
    (v.selectCategory j).panelTitle = .category cat.category (unique cat.bookmarks).length
        (unique cat.bookmarks).length ∧
      (v.selectCategory j).bookmarkList = cardList (unique cat.bookmarks) := by
  obtain ⟨w, hw, heq⟩ := selectCategory_eq v j
  simp only [View.outline, Prod.mk.injEq] at hw
  have hfound : (w.select j).panelCategory = some cat := by
    have hat : w.panelCategories[j]? = some cat := by rw [hw.2.1, hpanel, hcat]
    exact (if_pos (Int.natCast_nonneg j)).trans hat
  have hpos : (w.select j).panelActive ≠ -1 := by
    show (j : ℤ) ≠ -1
    omega
  rw [heq, View.renderPanel, if_neg hpos, hfound]
  show PanelTitle.category cat.category (filterTags [] (unique cat.bookmarks)).length _ = _ ∧
    cardList (filterTags [] (unique cat.bookmarks)) = _
  rw [filterTags_nil]
  exact ⟨rfl, rfl⟩

theorem selectCategory_inStep : (v.selectCategory i).InStep := by
  obtain ⟨w, -, heq⟩ := selectCategory_eq v i
  rw [heq, renderPanel_eq]
  exact ⟨rfl, rfl⟩

theorem selectCategory_marks {j : ℕ} {e : SidebarEntry}
    (he : (v.selectCategory i).sidebar[j]? = some e) : e.active = true ↔ v.indexOf j = i := by
  obtain ⟨w, hw, heq⟩ := selectCategory_eq v i
  rw [heq, renderPanel_eq] at he
  obtain ⟨a, ha⟩ := getElem?_remark he
  rw [ha, decide_eq_true_iff, View.indexOf, ← outline_favoritesCount hw]
  rfl

theorem indexOf_injective (v : View) : Function.Injective v.indexOf := by
  intro j k h
  unfold View.indexOf at h
  split at h <;> omega

variable {lower : Str → Str}

/-- Whatever has gone on before, a click on an entry of the sidebar opens what the entry says. It
marks this entry alone, changes no text of the sidebar, and the three copies of the active category
are equal again. -/
theorem sidebar_opens (h : Reach (Started lower) (StepOf (exec lower)) v) {k : ℕ}
    {e : SidebarEntry} (he : v.sidebar[k]? = some e) :
    ∃ w, exec lower v (.click k) = some w ∧ w.Shows e ∧ w.InStep ∧
      w.sidebar.map (·.told) = v.sidebar.map (·.told) ∧
      ∀ j e', w.sidebar[j]? = some e' → (e'.active = true ↔ j = k) := by
  have hup := run_upToDate lower h
  obtain ⟨hlt, -⟩ := List.getElem?_eq_some_iff.mp he
  have hout := clickSidebar_outline (v := v) k
  rw [clickSidebar_eq] at hout
  have hsame := hout
  simp only [View.outline, Prod.mk.injEq] at hsame
  obtain ⟨hcats, -, -, hfav, -, htold⟩ := hsame
  refine ⟨v.selectCategory (v.indexOf k), ?_, ?_, selectCategory_inStep, htold, ?_⟩
  · rw [exec, if_pos hlt, clickSidebar_eq]
  · unfold View.Shows
    rw [hcats, hfav]
    obtain ⟨hindex, hpos, -, htell⟩ | ⟨j, hindex, -, cat, hcat, htell⟩ := hup.entry he
    · obtain ⟨hnone, hbadge⟩ := Prod.mk.inj htell
      obtain ⟨htitle, hlist⟩ := selectCategory_favorites hup.panel
      rw [hnone, hindex, hbadge, htitle, hlist]
      have hsome : favoriteBookmarks v.favorites v.sidebarCategories ≠ [] :=
        List.ne_nil_of_length_pos hpos
      exact ⟨rfl, if_neg hsome⟩
    · obtain ⟨hname, hbadge⟩ := Prod.mk.inj htell
      obtain ⟨htitle, hlist⟩ := selectCategory_category hup.panel hcat
      rw [hname, hindex]
      exact ⟨cat, List.mem_of_getElem? hcat, rfl, hbadge.symm, htitle, hlist⟩
  · intro j e' he'
    rw [selectCategory_marks he']
    exact (indexOf_injective v).eq_iff

/-- After the only favourite was taken away in the Favorites view, where the copies differ. -/
def unstarredView : View :=
  ((initBrowse id [rustBook.url] [] devCategories none).clickSidebar 0).toggleFavorite rustBook.url

theorem unstarredView_reached : Reach (Started id) (StepOf (exec id)) unstarredView := by
  have hstart : Reach (Started id) (StepOf (exec id))
      (initBrowse id [rustBook.url] [] devCategories none) := .start ⟨_, _, _, _, rfl⟩
  exact hstart.of_runList [.click 0, .star rustBook.url] (by decide +kernel)

theorem sidebar_opens_unstarred : ∃ w, exec id unstarredView (.click 0) = some w ∧
    w.Shows ⟨some "dev".toList, 2, true⟩ ∧ w.InStep ∧
    w.sidebar.map (·.told) = unstarredView.sidebar.map (·.told) ∧
    ∀ j e', w.sidebar[j]? = some e' → (e'.active = true ↔ j = 0) :=
  sidebar_opens unstarredView_reached (by decide +kernel)

end LocalMarks.FrontEnd.Browse

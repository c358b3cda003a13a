import LocalMarks.FrontEnd.Browse
import Mathlib.Data.List.Basic

/-!
# Three copies of the active category

browse.js, sidebar.js and panel.js each have their own. The sidebar marks the entry of one copy
and the panel draws the category of another.
-/

namespace LocalMarks.FrontEnd.Browse
open LocalMarks.Lib

/-- The three copies are equal. -/
structure View.InStep (v : View) : Prop where
  sidebar : v.sidebarActive = v.activeCategory
  panel : v.panelActive = v.activeCategory

/-- The category that the title of the panel names, none for Favorites; there is none while search
results are shown. -/
def PanelTitle.shown : PanelTitle → Option (Option Str)
  | .category name _ _ => some (some name)
  | .favorites _ => some none
  | .empty | .results _ _ => none

/-- An entry of the sidebar that is marked is that of the category shown. -/
def View.MarksShown (v : View) : Prop :=
  ∀ e ∈ v.sidebar, e.active = true → ∀ c ∈ v.panelTitle.shown, e.category = c

/-- To draw the panel again would change nothing: it shows what its copy selects. -/
def View.Drawn (v : View) : Prop := v.panelTitle.shown ≠ none → v.renderPanel = v

/-- The last favourite is not taken away in the Favorites view. -/
def KeepsFavorite (v : View) : Event → Prop
  | .star url => v.sidebarActive = -1 →
      favoriteBookmarks (toggled v.favorites url) v.sidebarCategories ≠ []
  | _ => True

instance (v : View) (e : Event) : Decidable (KeepsFavorite v e) :=
  match e with
  | .star url => inferInstanceAs (Decidable (v.sidebarActive = -1 →
      favoriteBookmarks (toggled v.favorites url) v.sidebarCategories ≠ []))
  | .click _ | .toggleTag _ | .addTag _ | .clearTags | .tagBarToggle | .typed _ | .searchInput
  | .clearSearch | .escape | .switchTo _ _ => inferInstanceAs (Decidable True)

/-! ### The entries of the sidebar -/

def View.indexOf (v : View) (k : ℕ) : ℤ := if 0 < v.favoritesCount then (k : ℤ) - 1 else k

def View.labels (v : View) : List (Option Str) :=
  (if v.favoritesCount = 0 then [] else [none]) ++ v.sidebarCategories.map (some ·.category)

def View.Labeled (v : View) : Prop := v.sidebar.map (·.category) = v.labels

/-- The sidebar has an entry for each category, and only the one of the active one is marked. -/
structure View.Listed (v : View) : Prop where
  labels : v.Labeled
  marked : ∀ k e, v.sidebar[k]? = some e → e.active = true → v.indexOf k = v.sidebarActive

variable {v : View} {i : ℤ}

theorem View.Labeled.remark {f : SidebarEntry × ℕ → Bool} (h : v.Labeled) :
    (v.sidebar.zipIdx.map fun p => { p.1 with active := f p }).map (·.category) = v.labels := by
  refine Eq.trans ?_ h
  rw [List.map_map, ← List.zipIdx_map_fst 0 v.sidebar, List.map_map]
  simp [Function.comp_def]

theorem getElem?_remark {f : SidebarEntry × ℕ → Bool} {k : ℕ} {e : SidebarEntry}
    (h : (v.sidebar.zipIdx.map fun p => { p.1 with active := f p })[k]? = some e) :
    ∃ a, e.active = f (a, k) := by
  rw [List.getElem?_map, List.getElem?_zipIdx] at h
  obtain ⟨p, hp, rfl⟩ := Option.map_eq_some_iff.mp h
  obtain ⟨a, -, rfl⟩ := Option.map_eq_some_iff.mp hp
  exact ⟨a, by rw [Nat.zero_add]⟩

theorem highlightSidebar_labeled (h : v.Labeled) : (v.highlightSidebar i).Labeled :=
  h.remark

theorem highlightSidebar_listed (h : v.Labeled) (hi : i = v.sidebarActive) :
    (v.highlightSidebar i).Listed where
  labels := h.remark
  marked := by
    intro k e he hactive
    obtain ⟨a, ha⟩ := getElem?_remark he
    rw [ha] at hactive
    exact (of_decide_eq_true hactive).trans hi

theorem markFirst_labeled (h : v.Labeled) : v.markFirst.Labeled := h.remark

theorem markFirst_listed (h : v.Labeled) (hactive : v.sidebarActive = -1)
    (hfav : 0 < v.favoritesCount) : v.markFirst.Listed where
  labels := h.remark
  marked := by
    intro k e he hmark
    obtain ⟨a, ha⟩ := getElem?_remark he
    rw [ha] at hmark
    obtain rfl : k = 0 := of_decide_eq_true hmark
    show (if 0 < v.favoritesCount then ((0 : ℕ) : ℤ) - 1 else (0 : ℕ)) = v.sidebarActive
    rw [if_pos hfav, hactive]
    rfl

theorem unmark_listed (h : v.Labeled) : v.unmark.Listed where
  labels := by
    refine Eq.trans ?_ h
    rw [View.unmark, List.map_map]
    rfl
  marked := by
    intro k e he hactive
    obtain ⟨a, -, rfl⟩ := Option.map_eq_some_iff.mp (List.getElem?_map .. ▸ he)
    cases hactive

theorem renderSidebar_active (h : v.sidebarActive = -1 → 0 < v.favoritesCount) :
    v.renderSidebar.sidebarActive = v.sidebarActive := by
  refine if_neg fun hlast => ?_
  exact absurd (h hlast.1) (by rw [hlast.2]; exact Nat.lt_irrefl 0)

theorem renderSidebar_listed (h : v.sidebarActive = -1 → 0 < v.favoritesCount) :
    v.renderSidebar.Listed where
  labels := by
    show (sidebarEntries _ _ _).map (·.category) = v.labels
    unfold sidebarEntries View.labels
    rw [List.map_append, List.map_map]
    congr 1
    · split <;> rfl
    · rw [← List.zipIdx_map_fst 0 v.sidebarCategories, List.map_map]
      simp [Function.comp_def]
  marked := by
    intro k e he hactive
    have he' : (sidebarEntries v.sidebarCategories v.favoritesCount
        v.renderSidebar.sidebarActive)[k]? = some e := he
    rw [renderSidebar_active h] at he' ⊢
    show (if 0 < v.favoritesCount then (k : ℤ) - 1 else k) = v.sidebarActive
    -- the entry of the category at `j`
    have hcategory : ∀ j : ℕ, (v.sidebarCategories.zipIdx.map fun p : Category × ℕ =>
        (⟨some p.1.category, p.1.bookmarks.length, (p.2 : ℤ) = v.sidebarActive⟩ :
          SidebarEntry))[j]? = some e → (j : ℤ) = v.sidebarActive := by
      intro j hj
      rw [List.getElem?_map, List.getElem?_zipIdx] at hj
      obtain ⟨p, hp, rfl⟩ := Option.map_eq_some_iff.mp hj
      obtain ⟨a, -, rfl⟩ := Option.map_eq_some_iff.mp hp
      have hmark := of_decide_eq_true hactive
      rwa [Nat.zero_add] at hmark
    unfold sidebarEntries at he'
    by_cases hfav : v.favoritesCount = 0
    · rw [if_pos hfav, List.nil_append] at he'
      rw [if_neg (by omega)]
      exact hcategory k he'
    · rw [if_neg hfav] at he'
      rw [if_pos (by omega)]
      cases k with
      | zero =>
        obtain rfl := Option.some.inj he'
        exact (of_decide_eq_true hactive).symm
      | succ j =>
        have hj := hcategory j he'
        omega

/-! ### The panel -/

theorem renderPanel_eq (v : View) :
    v.renderPanel = { v with
      panelTitle := v.renderPanel.panelTitle
      bookmarkList := v.renderPanel.bookmarkList } := by
  unfold View.renderPanel
  split
  · rfl
  · cases v.panelCategory <;> rfl

theorem renderPanel_idem (v : View) : v.renderPanel.renderPanel = v.renderPanel := by
  rw [renderPanel_eq v]
  unfold View.renderPanel View.panelCategory
  split
  · rfl
  · cases (if 0 ≤ v.panelActive then v.panelCategories[v.panelActive.toNat]? else none) <;> rfl

theorem renderPanel_drawn (v : View) : v.renderPanel.Drawn := fun _ => renderPanel_idem v

/-- What the panel is drawn from, but for the favourites, and what is drawn. -/
def View.drawing (v : View) : List Category × ℤ × List Str × PanelTitle × BookmarkList :=
  (v.panelCategories, v.panelActive, v.activeTags, v.panelTitle, v.bookmarkList)

theorem View.Drawn.keep {w : View} (h : v.Drawn) (hsame : w.drawing = v.drawing)
    (hfav : v.panelActive = -1 → w.favorites = v.favorites) : w.Drawn := by
  simp only [View.drawing, Prod.mk.injEq] at hsame
  obtain ⟨hcats, hactive, htags, htitle, hlist⟩ := hsame
  intro hshown
  rw [htitle] at hshown
  have hv := h hshown
  have hdrawn : w.renderPanel.panelTitle = v.renderPanel.panelTitle ∧
      w.renderPanel.bookmarkList = v.renderPanel.bookmarkList := by
    unfold View.renderPanel View.panelCategory
    rw [hactive, hcats]
    split
    · rename_i hfavs
      simp only [View.renderFavorites, View.renderCards, hfav hfavs, htags, hcats, and_self]
    · cases (if 0 ≤ v.panelActive then v.panelCategories[v.panelActive.toNat]? else none) with
      | none => exact ⟨htitle, hlist⟩
      | some cat =>
        simp only [Option.elim_some, View.renderCategory, View.renderCards, htags, and_self]
  rw [renderPanel_eq w, hdrawn.1, hdrawn.2, hv, ← htitle, ← hlist]

/-! ### What every event keeps -/

/-- The variables that the entries and the panel are drawn from. -/
structure View.Core (v : View) : Prop where
  inStep : v.InStep
  categories : v.panelCategories = v.sidebarCategories
  favorites : v.sidebarActive = -1 → 0 < v.favoritesCount

structure View.Steady (v : View) : Prop where
  core : v.Core
  listed : v.Listed
  drawn : v.Drawn

/-- The copies of the active category and of the categories. -/
def View.copies (v : View) : ℤ × ℤ × ℤ × List Category × List Category :=
  (v.activeCategory, v.sidebarActive, v.panelActive, v.sidebarCategories, v.panelCategories)

theorem View.Core.same {w : View} (h : v.Core) (hsame : w.copies = v.copies)
    (hfav : v.sidebarActive = -1 → 0 < w.favoritesCount) : w.Core := by
  simp only [View.copies, Prod.mk.injEq] at hsame
  obtain ⟨hbrowse, hsidebar, hpanel, hcats, hpcats⟩ := hsame
  have hstep : w.InStep :=
    ⟨by rw [hsidebar, hbrowse, h.inStep.sidebar], by rw [hpanel, hbrowse, h.inStep.panel]⟩
  exact ⟨hstep, by rw [hpcats, hcats, h.categories], by rwa [hsidebar]⟩

theorem renderSidebar_core (h : v.Core) : v.renderSidebar.Core := by
  have hsame : v.renderSidebar.copies = v.copies := by
    rw [View.copies, renderSidebar_active h.favorites]
    rfl
  exact h.same hsame h.favorites

theorem renderPanel_steady (h : v.Core) (hl : v.Listed) : v.renderPanel.Steady where
  core := by
    rw [renderPanel_eq]
    exact h.same rfl h.favorites
  listed := by
    rw [renderPanel_eq]
    exact ⟨hl.labels, hl.marked⟩
  drawn := renderPanel_drawn v

theorem renderSearch_steady (lower : Str → Str) (query : Str) (h : v.Core) (hl : v.Listed) :
    (v.renderSearch lower query).Steady where
  core := h.same rfl h.favorites
  listed := ⟨hl.labels, hl.marked⟩
  drawn := fun hshown => absurd rfl hshown

def View.kept (v : View) :=
  (v.copies, v.drawing, v.sidebar, v.favorites)

theorem View.Steady.keep {w : View} (h : v.Steady) (hsame : w.kept = v.kept) : w.Steady := by
  simp only [View.kept, Prod.mk.injEq] at hsame
  obtain ⟨hcopies, hdrawing, hsidebar, hfav⟩ := hsame
  have hall := hcopies
  simp only [View.copies, Prod.mk.injEq] at hall
  obtain ⟨-, hactive, -, hcats, -⟩ := hall
  have hcount : w.favoritesCount = v.favoritesCount := by
    rw [View.favoritesCount, View.favoritesCount, hfav, hcats]
  constructor
  · exact h.core.same hcopies (by rw [hcount]; exact h.core.favorites)
  · constructor
    · rw [View.Labeled, View.labels, hcount, hcats, hsidebar]
      exact h.listed.labels
    · intro k e he hmark
      rw [hsidebar] at he
      rw [View.indexOf, hcount, hactive]
      exact h.listed.marked k e he hmark
  · exact h.drawn.keep hdrawing fun _ => hfav

theorem highlightSidebar_core (h : v.Core) : (v.highlightSidebar i).Core :=
  h.same rfl h.favorites

/-! ### Events -/

theorem onSearchCleared_steady (h : v.Core) (hl : v.Labeled) : v.onSearchCleared.Steady := by
  have hcore : { v with searchQuery := [] }.Core := h.same rfl h.favorites
  exact renderPanel_steady (highlightSidebar_core hcore)
    (highlightSidebar_listed hl h.inStep.sidebar.symm)

theorem searchClear_steady (h : v.Core) (hl : v.Labeled) : v.searchClear.Steady := by
  have hfirst : { v with searchValue := [], clearVisible := false }.markFirst.Core :=
    h.same rfl h.favorites
  exact onSearchCleared_steady hfirst (markFirst_labeled hl)

theorem selectCategory_steady (h : v.Steady) (hi : i = -1 → 0 < v.favoritesCount) :
    (v.selectCategory i).Steady := by
  obtain ⟨w, hw, hcount, heq⟩ : ∃ w : View, w.Steady ∧ w.favoritesCount = v.favoritesCount ∧
      v.selectCategory i =
        ({ { w with activeCategory := i }.sidebarSetActive i with
          panelActive := i, activeTags := [] }.highlightSidebar i).renderPanel := by
    by_cases hq : v.searchQuery = []
    · exact ⟨v, h, rfl, by rw [View.selectCategory, if_pos hq]⟩
    · have hclear := searchClear_steady h.core h.listed.labels
      refine ⟨{ v.searchClear with searchQuery := [], clearVisible := false }, ?_, ?_, ?_⟩
      · exact hclear.keep rfl
      · show View.favoritesCount v.searchClear = _
        rw [View.searchClear, View.onSearchCleared, renderPanel_eq]
        rfl
      · rw [View.selectCategory, if_neg hq]
  rw [heq]
  rw [← hcount] at hi
  refine renderPanel_steady ⟨⟨rfl, rfl⟩, hw.core.categories, hi⟩ ?_
  exact highlightSidebar_listed (highlightSidebar_labeled (v := w) hw.listed.labels) rfl

theorem clickSidebar_steady (h : v.Steady) (k : ℕ) : (v.clickSidebar k).Steady := by
  unfold View.clickSidebar
  split
  · rename_i hfav
    exact selectCategory_steady h fun _ => hfav.1
  · apply selectCategory_steady h
    intro hi
    split at hi <;> omega

theorem tags_steady (h : v.Steady) (tags : List Str) :
    ({ v with activeTags := tags }.renderPanel).Steady := by
  have hcore : { v with activeTags := tags }.Core :=
    h.core.same rfl h.core.favorites
  exact renderPanel_steady hcore ⟨h.listed.labels, h.listed.marked⟩

theorem toggleFavorite_steady (h : v.Steady) (url : Str) (hok : KeepsFavorite v (.star url)) :
    (v.toggleFavorite url).Steady := by
  let w : View := { v with favorites := toggled v.favorites url }
  have heq : v.toggleFavorite url =
      (if v.sidebarActive = -1 then w.renderSidebar.renderPanel
        else w.renderSidebar).updateHeaderCount := rfl
  have hfav : w.sidebarActive = -1 → 0 < w.favoritesCount :=
    fun hactive => List.length_pos_of_ne_nil (hok hactive)
  have hcore : w.renderSidebar.Core := renderSidebar_core (h.core.same rfl hfav)
  have hlisted := renderSidebar_listed hfav
  have hsteady : (if v.sidebarActive = -1 then w.renderSidebar.renderPanel
      else w.renderSidebar).Steady := by
    split
    · exact renderPanel_steady hcore hlisted
    · rename_i hcat
      refine ⟨hcore, hlisted, h.drawn.keep rfl fun hp => ?_⟩
      exact absurd (h.core.inStep.sidebar.trans (h.core.inStep.panel.symm.trans hp)) hcat
  rw [heq]
  exact hsteady.keep rfl

section
variable (lower : Str → Str)

theorem searchInput_steady (h : v.Steady) : (v.searchInput lower).Steady := by
  have hcore : ∀ visible query, { v with clearVisible := visible, searchQuery := query }.Core :=
    fun _ _ => h.core.same rfl h.core.favorites
  unfold View.searchInput
  dsimp only
  split
  · apply renderPanel_steady
    · exact highlightSidebar_core (hcore _ v.searchQuery)
    · exact highlightSidebar_listed h.listed.labels h.core.inStep.sidebar.symm
  · apply renderSearch_steady
    · exact (hcore _ _).same rfl h.core.favorites
    · exact unmark_listed (v := { v with clearVisible := _, searchQuery := _ }) h.listed.labels

theorem onClearSearch_steady (h : v.Steady) : v.onClearSearch.Steady := by
  let w : View := { v.searchClear with searchQuery := [], activeTags := [] }
  have hclear := searchClear_steady h.core h.listed.labels
  have hcore : w.Core := hclear.core.same rfl hclear.core.favorites
  show (if w.activeCategory = -1 then w.markFirst else w.renderSidebar).renderPanel.Steady
  split
  · rename_i hfav
    have hactive : w.sidebarActive = -1 := hcore.inStep.sidebar.trans hfav
    have hmarked := markFirst_listed (v := w) hclear.listed.labels hactive (hcore.favorites hactive)
    exact renderPanel_steady (hcore.same rfl hcore.favorites) hmarked
  · exact renderPanel_steady (renderSidebar_core hcore) (renderSidebar_listed hcore.favorites)

theorem escape_steady (h : v.Steady) : v.escape.Steady := by
  have hcore : { v with searchValue := [], clearVisible := false }.Core :=
    h.core.same rfl h.core.favorites
  exact onSearchCleared_steady hcore h.listed.labels

theorem renderSidebar_first (hzero : v.activeCategory = 0) (hs : v.sidebarActive = 0)
    (hp : v.panelActive = 0) (hcats : v.panelCategories = v.sidebarCategories) :
    v.renderSidebar.Core ∧ v.renderSidebar.Listed := by
  have hfav : v.sidebarActive = -1 → 0 < v.favoritesCount := by
    intro h
    rw [hs] at h
    cases h
  have hcore : v.Core := ⟨⟨hs.trans hzero.symm, hp.trans hzero.symm⟩, hcats, hfav⟩
  exact ⟨renderSidebar_core hcore, renderSidebar_listed hfav⟩

theorem updateCategories_steady (v : View) (categories : List Category) :
    (v.updateCategories categories).Steady := by
  have hfirst := renderSidebar_first (v := { v with
    sidebarCategories := categories
    sidebarActive := 0
    panelCategories := categories
    panelActive := 0
    searchCategories := categories
    activeCategory := 0
    searchQuery := []
    clearVisible := false }.updateHeaderCount) rfl rfl rfl rfl
  exact renderPanel_steady hfirst.1 hfirst.2

theorem renderBrowse_steady (h : v.Core) (hl : v.Listed) (urlQuery : Str) :
    (v.renderBrowse lower urlQuery).Steady := by
  unfold View.renderBrowse
  generalize (if urlQuery ≠ [] then urlQuery else trim v.searchValue) = q
  dsimp only
  split
  · apply renderSearch_steady
    · exact h.same rfl h.favorites
    · exact unmark_listed (v := { v with searchQuery := _, clearVisible := _, searchValue := _ })
        hl.labels
  · split
    · exact renderSearch_steady lower _ h hl
    · exact renderPanel_steady h hl

theorem switchTo_steady (v : View) (categories : List Category) (hashQuery : Option Str) :
    (v.switchTo lower categories hashQuery).Steady := by
  have hnew := updateCategories_steady { v with searchValue := hashQuery.getD v.searchValue }
    categories
  exact renderBrowse_steady lower hnew.core hnew.listed _

theorem initBrowse_steady (favorites : List Str) (searchValue : Str) (categories : List Category)
    (hashQuery : Option Str) :
    (initBrowse lower favorites searchValue categories hashQuery).Steady := by
  have hfirst := renderSidebar_first (v := { emptyView favorites (hashQuery.getD searchValue) with
    allCategories := categories
    sidebarCategories := categories
    panelCategories := categories
    searchCategories := categories }.updateHeaderCount) rfl rfl rfl rfl
  exact renderBrowse_steady lower hfirst.1 hfirst.2 _

theorem exec_steady {v' : View} {e : Event} (h : v.Steady) (hok : KeepsFavorite v e)
    (hs : exec lower v e = some v') : v'.Steady := by
  cases e with
  | click k =>
    obtain ⟨-, hs⟩ := Option.ite_none_right_eq_some.mp hs
    obtain rfl := Option.some.inj hs
    exact clickSidebar_steady h k
  | star url =>
    obtain rfl := Option.some.inj hs
    exact toggleFavorite_steady h url hok
  | toggleTag tag =>
    obtain rfl := Option.some.inj hs
    exact tags_steady h _
  | addTag tag =>
    obtain rfl := Option.some.inj hs
    exact tags_steady h _
  | clearTags =>
    obtain rfl := Option.some.inj hs
    exact tags_steady h []
  | tagBarToggle =>
    obtain rfl := Option.some.inj hs
    exact tags_steady h v.activeTags
  | typed value =>
    obtain rfl := Option.some.inj hs
    exact h.keep rfl
  | searchInput =>
    obtain rfl := Option.some.inj hs
    exact searchInput_steady lower h
  | clearSearch =>
    obtain rfl := Option.some.inj hs
    exact onClearSearch_steady h
  | escape =>
    obtain rfl := Option.some.inj hs
    exact escape_steady h
  | switchTo categories hashQuery =>
    obtain rfl := Option.some.inj hs
    exact switchTo_steady lower v categories hashQuery

theorem run_steady (h : Reach (Started lower) (Guarded (StepOf (exec lower)) KeepsFavorite) v) :
    v.Steady := by
  induction h with
  | start hstart =>
    obtain ⟨favorites, searchValue, categories, hashQuery, rfl⟩ := hstart
    exact initBrowse_steady lower favorites searchValue categories hashQuery
  | next e _ hstep ih => exact exec_steady lower ih hstep.1 hstep.2

theorem unstar_outOfStep {v' : View} {e : Event} (h : v.InStep) (hst : exec lower v e = some v')
    (hlast : ¬ KeepsFavorite v e) : ¬ v'.InStep := by
  cases e with
  | star url =>
    obtain rfl := Option.some.inj hst
    obtain ⟨hactive, hnone⟩ := Classical.not_imp.mp hlast
    let w : View := { v with favorites := toggled v.favorites url }
    have hmoved : w.renderSidebar.sidebarActive = 0 :=
      if_pos ⟨hactive, List.length_eq_zero_iff.mpr (Classical.not_not.mp hnone)⟩
    have heq : v.toggleFavorite url = w.renderSidebar.renderPanel.updateHeaderCount := by
      show (if v.sidebarActive = -1 then w.renderSidebar.renderPanel
        else w.renderSidebar).updateHeaderCount = _
      rw [if_pos hactive]
    intro hstep
    rw [heq, renderPanel_eq] at hstep
    have hzero : (0 : ℤ) = -1 := hmoved.symm.trans (hstep.sidebar.trans (h.sidebar ▸ hactive))
    cases hzero
  | click _ | toggleTag _ | addTag _ | clearTags | tagBarToggle | typed _ | searchInput
  | clearSearch | escape | switchTo _ _ => exact absurd trivial hlast

/-! ### What the user sees -/

theorem View.Steady.marksShown (h : v.Steady) : v.MarksShown := by
  intro e he hmark c hc
  obtain ⟨k, hk⟩ := List.mem_iff_getElem?.mp he
  have hindex : v.indexOf k = v.panelActive :=
    (h.listed.marked k e hk hmark).trans
      (h.core.inStep.sidebar.trans h.core.inStep.panel.symm)
  have hlabel : v.labels[k]? = some e.category := by
    rw [← h.listed.labels, List.getElem?_map, hk]
    rfl
  have hpanel : v.renderPanel = v := by
    apply h.drawn
    rw [hc]
    exact Option.some_ne_none c
  rw [← hpanel] at hc
  unfold View.indexOf at hindex
  unfold View.labels at hlabel
  by_cases hfavs : v.panelActive = -1
  · have hcount : 0 < v.favoritesCount := h.core.favorites
      (h.core.inStep.sidebar.trans (h.core.inStep.panel.symm.trans hfavs))
    rw [if_pos hcount] at hindex
    rw [if_neg (by omega)] at hlabel
    obtain rfl : k = 0 := by omega
    rw [View.renderPanel, if_pos hfavs] at hc
    exact (Option.some.inj hlabel).symm.trans (Option.some.inj hc)
  · obtain ⟨j, hj, hcat⟩ : ∃ j : ℕ, v.panelActive = j ∧
        (v.sidebarCategories.map (some ·.category))[j]? = some e.category := by
      by_cases hcount : v.favoritesCount = 0
      · rw [if_neg (by omega)] at hindex
        rw [if_pos hcount] at hlabel
        exact ⟨k, hindex.symm, hlabel⟩
      · rw [if_pos (by omega)] at hindex
        rw [if_neg hcount] at hlabel
        cases k with
        | zero => omega
        | succ j => exact ⟨j, by omega, hlabel⟩
    rw [List.getElem?_map] at hcat
    obtain ⟨cat, hcat, heq⟩ := Option.map_eq_some_iff.mp hcat
    have hshown : v.panelCategory = some cat := by
      rw [View.panelCategory, hj, if_pos (Int.natCast_nonneg j), Int.toNat_natCast,
        h.core.categories, hcat]
    rw [View.renderPanel, if_neg hfavs, hshown] at hc
    exact heq.symm.trans (Option.some.inj hc)

/-- As long as the last favourite stays while the Favorites are shown, the copies are equal, the
marked entry of the sidebar is the one in the title of the panel, and the panel is drawn for its
copy. -/
theorem inStep_when_kept
    (h : Reach (Started lower) (Guarded (StepOf (exec lower)) KeepsFavorite) v) :
    v.InStep ∧ v.MarksShown ∧ v.Drawn := by
  have hsteady := run_steady lower h
  exact ⟨hsteady.core.inStep, hsteady.marksShown, hsteady.drawn⟩

end

def rustBook : Bookmark := ⟨"Rust".toList, "https://rust.org".toList, [], []⟩

def leanBook : Bookmark := ⟨"Lean".toList, "https://lean.org".toList, [], []⟩

def devCategories : List Category := [⟨"dev".toList, [rustBook, leanBook]⟩]

theorem inStep_favorites : ∃ v : View, v.sidebarActive = -1 ∧
    Reach (Started id) (Guarded (StepOf (exec id)) KeepsFavorite) v ∧
    v.InStep ∧ v.MarksShown ∧ v.Drawn := by
  let v := initBrowse id [rustBook.url, leanBook.url] [] devCategories none
  have hstart : Reach (Started id) (Guarded (StepOf (exec id)) KeepsFavorite) v :=
    .start ⟨_, _, _, _, rfl⟩
  have hrun : Reach (Started id) (Guarded (StepOf (exec id)) KeepsFavorite)
      ((v.clickSidebar 0).toggleFavorite rustBook.url) :=
    hstart.of_runGuarded [.click 0, .star rustBook.url] (by decide +kernel)
  exact ⟨_, by decide +kernel, hrun, inStep_when_kept id hrun⟩

theorem unstarred_outOfStep :
    ¬ ∀ lower v, Reach (Started lower) (StepOf (exec lower)) v → v.InStep := by
  intro h
  let v := initBrowse id [rustBook.url] [] devCategories none
  have hstart : Reach (Started id) (StepOf (exec id)) v := .start ⟨_, _, _, _, rfl⟩
  have hrun : Reach (Started id) (StepOf (exec id))
      ((v.clickSidebar 0).toggleFavorite rustBook.url) :=
    hstart.of_runList [.click 0, .star rustBook.url] (by decide +kernel)
  exact absurd (h id _ hrun).sidebar (by decide +kernel)

end LocalMarks.FrontEnd.Browse

import LocalMarks.FrontEnd.Browse
import LocalMarks.FrontEnd.Escape
import Mathlib.Algebra.Group.Prod

/-!
# The HTML of the panel title (panel.js, search.js, sidebar.js, info.js)

The texts that are assigned to `innerHTML` where the name of a category or a query goes in. All of
them but one escape it.
-/

namespace LocalMarks.FrontEnd
open LocalMarks.Lib

def decimal (n : ℕ) : JsString := utf16 (Nat.toDigits 10 n)

/-- The numbers of `<` and `>` in a text. -/
def markup (text : JsString) : ℕ × ℕ := (text.count ltSign, text.count gtSign)

/-! ### The texts -/

def countLabel (shown total : ℕ) : JsString :=
  if shown ≠ total then decimal shown ++ js " of " ++ decimal total else decimal shown

/-- The title of a category: its name goes in as it is. -/
def categoryTitle (category : JsString) (shown total : ℕ) : JsString :=
  js "\n\t\t📋 " ++ category ++ js "\n\t\t<span class=\"panel-count\">(" ++ countLabel shown total ++
    js ")</span>\n\t"

def favoritesTitle (shown : ℕ) : JsString :=
  js "⭐ Favorites <span class=\"panel-count\">(" ++ decimal shown ++ js ")</span>"

def resultsTitle (query : JsString) (count : ℕ) : JsString :=
  js "\n\t\t🔍 Results for <em style=\"color:var(--accent)\">\"" ++ esc (some query) ++
    js "\"</em>\n\t\t<span class=\"panel-count\">(" ++ decimal count ++ js ")</span>\n\t"

def sidebarItem (category : JsString) (badge : ℕ) : JsString :=
  js "\n\t\t\t<span class=\"cat-label\">📋 " ++ esc (some category) ++
    js "</span>\n\t\t\t<span class=\"cat-badge\">" ++ decimal badge ++ js "</span>\n\t\t"

/-- A row of the chart, with the width of its bar in percent. -/
def categoryRow (category : JsString) (pct count : ℕ) : JsString :=
  js "\n\t\t\t<div class=\"cat-row-name\" title=\"" ++ esc (some category) ++ js "\">📋 " ++
    esc (some category) ++
    js "</div>\n\t\t\t<div class=\"cat-row-track\">\n\t\t\t\t" ++
    js "<div class=\"cat-row-bar\" style=\"width:" ++ decimal pct ++
    js "%\"></div>\n\t\t\t</div>\n\t\t\t<div class=\"cat-row-num\">" ++ decimal count ++
    js "</div>\n\t\t"

/-- What stands in `panelTitleEl.innerHTML`. -/
def Browse.PanelTitle.html : Browse.PanelTitle → JsString
  | .empty => []
  | .category name shown total => categoryTitle (utf16 name) shown total
  | .favorites shown => favoritesTitle shown
  | .results query count => resultsTitle (utf16 query) count

/-! ### Counting -/

@[simp] theorem markup_append (s t : JsString) : markup (s ++ t) = markup s + markup t := by
  simp only [markup, List.count_append, Prod.mk_add_mk]

theorem markup_eq_zero {s : JsString} : markup s = (0, 0) ↔ ltSign ∉ s ∧ gtSign ∉ s := by
  rw [markup, Prod.mk.injEq, List.count_eq_zero, List.count_eq_zero]

theorem mem_utf16 {c : Char} (hc : c.toNat < 0xD800) (s : Str) :
    UInt16.ofNat c.toNat ∈ utf16 s ↔ c ∈ s := by
  have hunit : ∀ n : ℕ, n < 2 ^ 16 → UInt16.ofNat c.toNat = UInt16.ofNat n → c.toNat = n := by
    intro n hn h
    have hnat := congrArg UInt16.toNat h
    rwa [UInt16.toNat_ofNat', UInt16.toNat_ofNat', Nat.mod_eq_of_lt (by omega),
      Nat.mod_eq_of_lt hn] at hnat
  rw [utf16, List.mem_flatMap]
  constructor
  · rintro ⟨d, hd, hmem⟩
    unfold unitsOf at hmem
    split at hmem
    · rename_i hbmp
      rw [List.mem_singleton] at hmem
      rwa [Char.toNat_inj.mp (hunit _ hbmp hmem)]
    · -- both halves of a pair are surrogates
      have hvalid : d.toNat < 0x110000 := by
        rcases d.valid with h | h
        · exact Nat.lt_trans h (by decide)
        · exact h.2
      rw [List.mem_cons, List.mem_singleton] at hmem
      rcases hmem with h | h
      · have := hunit _ (by omega) h
        omega
      · have := hunit _ (by omega) h
        omega
  · intro h
    refine ⟨c, h, ?_⟩
    rw [unitsOf, if_pos (by omega)]
    exact List.mem_singleton_self _

theorem markup_utf16 (s : Str) : markup (utf16 s) = (0, 0) ↔ '<' ∉ s ∧ '>' ∉ s := by
  have hlt := mem_utf16 (c := '<') (by decide) s
  have hgt := mem_utf16 (c := '>') (by decide) s
  rw [markup_eq_zero, ← hlt, ← hgt]
  rfl

@[simp] theorem markup_decimal (n : ℕ) : markup (decimal n) = (0, 0) := by
  have hdigit : ∀ c ∈ Nat.toDigits 10 n, c.isDigit = true := fun c hc =>
    Nat.isDigit_of_mem_toDigits (by decide) (by decide) hc
  rw [decimal, markup_utf16]
  constructor <;> exact fun hc => absurd (hdigit _ hc) (by decide)

@[simp] theorem markup_esc (s : JsString) : markup (esc (some s)) = (0, 0) := by
  obtain ⟨hlt, hgt, -⟩ := not_mem_esc s
  exact markup_eq_zero.mpr ⟨hlt, hgt⟩

@[simp] theorem markup_countLabel (shown total : ℕ) : markup (countLabel shown total) = (0, 0) := by
  have hof : markup (js " of ") = (0, 0) := by decide
  unfold countLabel
  split
  · rw [markup_append, markup_append, hof, markup_decimal, markup_decimal]
    rfl
  · exact markup_decimal shown

/-! ### Which texts keep the markup of their template -/

/-- Where a name or a query is escaped, the markup does not depend on it. -/
theorem escaped_markup (text : JsString) (m n : ℕ) :
    markup (sidebarItem text m) = (4, 4) ∧ markup (categoryRow text m n) = (8, 8) ∧
      markup (resultsTitle text m) = (4, 4) := by
  refine ⟨?_, ?_, ?_⟩
  · simp only [sidebarItem, markup_append, markup_esc, markup_decimal]
    decide +kernel
  · simp only [categoryRow, markup_append, markup_esc, markup_decimal]
    decide +kernel
  · simp only [resultsTitle, markup_append, markup_esc, markup_decimal]
    decide +kernel

theorem categoryTitle_markup (category : JsString) (shown total : ℕ) :
    markup (categoryTitle category shown total) = markup category + (2, 2) := by
  have hbefore : markup (js "\n\t\t📋 ") = (0, 0) := by decide +kernel
  have hspan : markup (js "\n\t\t<span class=\"panel-count\">(") = (1, 1) := by decide +kernel
  have hend : markup (js ")</span>\n\t") = (1, 1) := by decide +kernel
  simp only [categoryTitle, markup_append, markup_countLabel, hbefore, hspan, hend]
  cases markup category with
  | mk lt gt => simp only [Prod.mk_add_mk, Nat.zero_add, Nat.add_zero, Nat.add_assoc]

namespace Browse

theorem View.renderPanel_title {v : View} {cat : Category} (h : v.panelCategory = some cat) :
    v.renderPanel.panelTitle = .category cat.category
      (filterTags v.activeTags (unique cat.bookmarks)).length (unique cat.bookmarks).length := by
  have hactive : v.panelActive ≠ -1 := by
    intro hneg
    rw [View.panelCategory, if_neg (by omega)] at h
    cases h
  rw [View.renderPanel, if_neg hactive, h]
  rfl

/-- The title of the active category has the markup of its template exactly when there is none in
the name of the category. -/
theorem panelTitle_markup_iff (v : View) (cat : Category) (h : v.panelCategory = some cat) :
    markup v.renderPanel.panelTitle.html = markup (PanelTitle.category [] 0 0).html ↔
      '<' ∉ cat.category ∧ '>' ∉ cat.category := by
  have hempty : markup (utf16 []) = (0, 0) := rfl
  rw [View.renderPanel_title h, PanelTitle.html, PanelTitle.html, categoryTitle_markup,
    categoryTitle_markup, hempty, ← markup_utf16]
  cases markup (utf16 cat.category) with
  | mk lt gt =>
    simp only [Prod.mk_add_mk, Prod.mk.injEq]
    omega

/-- The page after the start with one category, of the given name. -/
def oneCategory (name : Str) : View := initBrowse id [] [] [⟨name, []⟩] none

theorem panelTitle_markup_plain :
    markup (oneCategory ['C', '+', '+']).renderPanel.panelTitle.html =
      markup (PanelTitle.category [] 0 0).html :=
  (panelTitle_markup_iff (oneCategory ['C', '+', '+']) ⟨['C', '+', '+'], []⟩ rfl).mpr (by decide)

theorem panelTitle_markup_bold : ¬ ∀ (v : View) (cat : Category), v.panelCategory = some cat →
    markup v.renderPanel.panelTitle.html = markup (PanelTitle.category [] 0 0).html := by
  intro h
  have hbold := h (oneCategory ['<', 'b', '>']) ⟨['<', 'b', '>'], []⟩ rfl
  exact absurd hbold (by decide +kernel)

/-! ### The sidebar -/

def SidebarEntry.html (e : SidebarEntry) : JsString :=
  match e.category with
  | some name => sidebarItem (utf16 name) e.badge
  | none =>
    js "<span class=\"cat-label\">⭐ Favorites</span><span class=\"cat-badge\">" ++
      decimal e.badge ++ js "</span>"

theorem SidebarEntry.html_markup (e : SidebarEntry) : markup e.html = (4, 4) := by
  unfold SidebarEntry.html
  cases e.category with
  | some name => exact (escaped_markup (utf16 name) e.badge 0).1
  | none =>
    simp only [markup_append, markup_decimal]
    decide +kernel

end Browse

end LocalMarks.FrontEnd

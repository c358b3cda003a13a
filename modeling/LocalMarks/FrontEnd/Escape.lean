import LocalMarks.FrontEnd.Text
import LocalMarks.Lib.Entities

/-!
# Text in HTML (data.js)

A JavaScript string is a sequence of 16-bit units, which need not be valid UTF-16.
-/

namespace LocalMarks.FrontEnd
open LocalMarks.Lib

abbrev JsString := List UInt16

/-- A character, as a unit or as a surrogate pair. -/
def unitsOf (c : Char) : JsString :=
  if c.toNat < 0x10000 then [UInt16.ofNat c.toNat]
  else [UInt16.ofNat (0xD800 + (c.toNat - 0x10000) / 0x400),
    UInt16.ofNat (0xDC00 + (c.toNat - 0x10000) % 0x400)]

def utf16 (s : Str) : JsString := s.flatMap unitsOf

def js (s : String) : JsString := utf16 s.toList

/-! ### Escaping -/

def ltSign : UInt16 := 60
def gtSign : UInt16 := 62
def quotMark : UInt16 := 34
def ampersand : UInt16 := 38

/-- `esc`; without a string (null, undefined) the text is empty. -/
def esc (str : Option JsString) : JsString :=
  replaceAll quotMark (js "&quot;") (replaceAll gtSign (js "&gt;")
    (replaceAll ltSign (js "&lt;") (replaceAll ampersand (js "&amp;") (str.getD []))))

/-- The symbols in the order in which they are replaced. -/
def entities : List (UInt16 × JsString) :=
  [(ampersand, js "&amp;"), (ltSign, js "&lt;"), (gtSign, js "&gt;"), (quotMark, js "&quot;")]

theorem entities_table : EntityTable ampersand entities where
  marked := by
    simp only [entities, List.forall_mem_cons]
    exact ⟨⟨js "amp;", rfl, by decide⟩, ⟨js "lt;", rfl, by decide⟩, ⟨js "gt;", rfl, by decide⟩,
      ⟨js "quot;", rfl, by decide⟩, nofun⟩
  escaped := ⟨_, List.mem_cons_self .., rfl⟩
  prefixFree := by decide

/-- The four replacements, one after the other, are one: only the first of them meets an `&` of
the text, and none meets a symbol that an earlier one has written. -/
theorem esc_eq (s : JsString) : esc (some s) = escapeWith entities s := by
  have horder : entities.Pairwise fun p q => q.1 ∉ p.2 := by decide
  exact foldl_replaceAll horder s

theorem not_mem_esc (s : JsString) :
    ltSign ∉ esc (some s) ∧ gtSign ∉ esc (some s) ∧ quotMark ∉ esc (some s) := by
  have hkey : ∀ p ∈ entities, p.1 ≠ ampersand → p.1 ∉ esc (some s) := by
    intro p hp hne
    rw [esc_eq]
    exact entities_table.not_mem hp hne s
  exact ⟨hkey (ltSign, js "&lt;") (by decide) (by decide),
    hkey (gtSign, js "&gt;") (by decide) (by decide),
    hkey (quotMark, js "&quot;") (by decide) (by decide)⟩

/-- An escaped text has no `<`, no `>` and no `"`, every `&` in it begins one of the four
entities, and with these read back it is the text again. -/
theorem esc_safe :
    (∀ s : JsString, ltSign ∉ esc (some s) ∧ gtSign ∉ esc (some s) ∧ quotMark ∉ esc (some s) ∧
      (∀ pre post, esc (some s) = pre ++ ampersand :: post →
        ∃ p ∈ entities, p.2 <+: ampersand :: post) ∧
      unescapeWith entities (esc (some s)) = s) ∧
    ∀ s t : JsString, esc (some s) = esc (some t) → s = t := by
  constructor
  · intro s
    obtain ⟨hlt, hgt, hquot⟩ := not_mem_esc s
    refine ⟨hlt, hgt, hquot, ?_, ?_⟩
    · intro pre post h
      rw [esc_eq] at h
      exact entities_table.mark_begins h
    · rw [esc_eq]
      exact entities_table.unescape_escape s
  · intro s t h
    rw [esc_eq, esc_eq] at h
    exact entities_table.escape_injective h

-- A text that looks escaped is escaped again.
example : esc (some (js "&lt;<")) = js "&amp;lt;&lt;" := by decide

end LocalMarks.FrontEnd

import LocalMarks.Marks2json.Parse
import Mathlib.Data.List.TakeWhile

/-!
# Writing a bookmark as a line

What `parse_bookmark_line` makes of a line that a bookmark was written to in the format
`title | url | description | tags`.
-/

namespace LocalMarks.Marks2json
open LocalMarks.Lib

/-! ### Stripping -/

def rstrip (s : Str) : Str := (lstrip s.reverse).reverse

theorem strip_eq (s : Str) : strip s = rstrip (lstrip s) := rfl

def Blank (s : Str) : Prop := ∀ c ∈ s, isSpace c = true

theorem lstrip_pad {p : Str} (s : Str) (hp : Blank p) : lstrip (p ++ s) = lstrip s :=
  List.dropWhile_append_of_pos hp

theorem lstrip_blank {p : Str} (hp : Blank p) : lstrip p = [] := by
  have h := lstrip_pad [] hp
  rwa [List.append_nil] at h

theorem rstrip_pad {q : Str} (s : Str) (hq : Blank q) : rstrip (s ++ q) = rstrip s := by
  have hrev : Blank q.reverse := fun c hc => hq c (List.mem_reverse.mp hc)
  rw [rstrip, List.reverse_append, lstrip_pad _ hrev, rstrip]

theorem strip_pad {p q : Str} (s : Str) (hp : Blank p) (hq : Blank q) :
    strip (p ++ (s ++ q)) = strip s := by
  rw [strip_eq, lstrip_pad _ hp, strip_eq]
  by_cases hs : lstrip s = []
  · have hall : lstrip (s ++ q) = [] := by
      unfold lstrip at hs ⊢
      rw [List.dropWhile_append, hs]
      exact lstrip_blank hq
    rw [hall, hs]
  · have hkeep : lstrip (s ++ q) = lstrip s ++ q := by
      unfold lstrip at hs ⊢
      rw [List.dropWhile_append, if_neg (by simpa using hs)]
    rw [hkeep, rstrip_pad _ hq]

theorem lstrip_split (s : Str) : ∃ p, Blank p ∧ s = p ++ lstrip s :=
  ⟨s.takeWhile isSpace, fun _ hc => List.mem_takeWhile_imp hc,
    List.takeWhile_append_dropWhile.symm⟩

theorem strip_lstrip (s : Str) : strip (lstrip s) = strip s := by
  obtain ⟨p, hp, hs⟩ := lstrip_split s
  have h := strip_pad (q := []) (lstrip s) hp nofun
  rw [List.append_nil, ← hs] at h
  exact h.symm

theorem strip_rstrip (s : Str) : strip (rstrip s) = strip s := by
  obtain ⟨p, hp, hs⟩ := lstrip_split s.reverse
  have hq : Blank p.reverse := fun c hc => hp c (List.mem_reverse.mp hc)
  have hsplit : s = rstrip s ++ p.reverse := by
    rw [rstrip, ← List.reverse_append, ← hs, List.reverse_reverse]
  have h := strip_pad (p := []) (rstrip s) nofun hq
  rw [List.nil_append, ← hsplit] at h
  exact h.symm

theorem lstrip_append_cons {c : Char} (a b : Str) (hc : isSpace c = false) :
    lstrip (a ++ c :: b) = lstrip a ++ c :: b := by
  induction a with
  | nil => simp [lstrip, hc]
  | cons d ds ih =>
    unfold lstrip at ih ⊢
    rw [List.cons_append, List.dropWhile_cons, List.dropWhile_cons]
    split
    · exact ih
    · rfl

theorem rstrip_append_cons {c : Char} (a b : Str) (hc : isSpace c = false) :
    rstrip (a ++ c :: b) = a ++ c :: rstrip b := by
  unfold rstrip
  rw [List.reverse_append, List.reverse_cons, List.append_assoc, List.singleton_append,
    lstrip_append_cons _ _ hc, List.reverse_append, List.reverse_cons, List.reverse_reverse,
    List.append_assoc, List.singleton_append]

theorem strip_of_ends {s : Str} (hfirst : ∀ c ∈ s.head?, isSpace c = false)
    (hlast : ∀ c ∈ s.getLast?, isSpace c = false) : strip s = s := by
  have hkeep : ∀ l : Str, (∀ c ∈ l.head?, isSpace c = false) → lstrip l = l := by
    intro l hl
    cases l with
    | nil => rfl
    | cons c cs => rw [lstrip, List.dropWhile_cons, hl c rfl, if_neg Bool.false_ne_true]
  rw [strip_eq, hkeep s hfirst, rstrip, hkeep s.reverse, List.reverse_reverse]
  intro c hc
  rw [List.head?_reverse] at hc
  exact hlast c hc

theorem strip_of_chars {s : Str} (h : ∀ c ∈ s, isSpace c = false) : strip s = s :=
  strip_of_ends (fun c hc => h c (List.mem_of_mem_head? hc))
    fun c hc => h c (List.mem_of_mem_getLast? hc)

theorem strip_head {s : Str} (h : strip s = s) : ∀ c ∈ s.head?, isSpace c = false := by
  intro c hc
  obtain ⟨cs, rfl⟩ := List.head?_eq_some_iff.mp hc
  by_contra hspace
  rw [Bool.not_eq_false] at hspace
  have hlen := congrArg List.length h
  have hdrop : lstrip (c :: cs) = lstrip cs := by
    rw [lstrip, List.dropWhile_cons, if_pos hspace, lstrip]
  have hle : (lstrip cs).length ≤ cs.length := (List.dropWhile_sublist _).length_le
  have hle' : (lstrip (lstrip cs).reverse).length ≤ (lstrip cs).reverse.length :=
    (List.dropWhile_sublist _).length_le
  rw [strip_eq, hdrop, rstrip, List.length_reverse, List.length_cons] at hlen
  rw [List.length_reverse] at hle'
  omega

/-! ### The line -/

/-- `#` and characters that are no blanks. -/
def TagText (t : Str) : Prop := ∃ w, t = '#' :: w ∧ w ≠ [] ∧ ∀ c ∈ w, isSpace c = false

/-- A title or a description that is not taken for another field. -/
def PlainText (s : Str) : Prop := ¬ ['#'] <+: s ∧ startsWithScheme s = false

/-- A bookmark that can be written as a line: every field is stripped and has no bar, the URL has
its scheme, and neither text looks like a URL or a tag. -/
structure Fields.Writable (f : Fields) : Prop where
  url : startsWithScheme f.url = true
  title : PlainText f.title
  description : PlainText f.description
  stripped : ∀ x ∈ [f.title, f.url, f.description], strip x = x ∧ '|' ∉ x
  tags : ∀ t ∈ f.tags, TagText t ∧ '|' ∉ t

def tagsText (tags : List Str) : Str := [' '].intercalate tags

/-- The line `title | url | description | tags`. -/
def Fields.line (f : Fields) : Str :=
  " | ".toList.intercalate [f.title, f.url, f.description, tagsText f.tags]

theorem TagText.chars {t : Str} (h : TagText t) : t ≠ [] ∧ ∀ c ∈ t, isSpace c = false := by
  obtain ⟨w, rfl, -, hw⟩ := h
  refine ⟨List.cons_ne_nil _ _, fun c hc => ?_⟩
  rcases List.mem_cons.mp hc with rfl | hc
  · decide
  · exact hw c hc

theorem tagsText_cons {t u : Str} {tags : List Str} :
    tagsText (t :: u :: tags) = t ++ ' ' :: tagsText (u :: tags) := by
  simp [tagsText, List.intercalate]

theorem tagsText_single (t : Str) : tagsText [t] = t := by simp [tagsText, List.intercalate]

theorem words_tagsText {tags : List Str} (h : ∀ t ∈ tags, TagText t) :
    words (tagsText tags) = tags := by
  have hsplit : tags ≠ [] → (tagsText tags).splitOnP isSpace = tags := by
    intro hnil
    induction tags with
    | nil => exact absurd rfl hnil
    | cons t tags ih =>
      have ht := (h t (List.mem_cons_self ..)).chars.2
      cases tags with
      | nil => rw [tagsText_single, List.splitOnP_eq_singleton ht]
      | cons u tags =>
        rw [tagsText_cons, List.splitOnP_append_cons _ _ (by decide), List.splitOnP_eq_singleton ht,
          ih (fun t ht => h t (List.mem_cons_of_mem _ ht)) (List.cons_ne_nil _ _)]
        rfl
  by_cases hnil : tags = []
  · rw [hnil]
    rfl
  · rw [words, hsplit hnil, List.filter_eq_self]
    exact fun t ht => decide_eq_true (h t ht).chars.1

theorem tagsText_eq_nil {tags : List Str} (h : ∀ t ∈ tags, TagText t) :
    tagsText tags = [] ↔ tags = [] := by
  constructor
  · intro hnil
    have hwords := words_tagsText h
    rw [hnil] at hwords
    exact hwords.symm
  · intro hnil
    rw [hnil]
    rfl

theorem tagsText_ends {tags : List Str} (h : ∀ t ∈ tags, TagText t) :
    (∀ c ∈ (tagsText tags).head?, c = '#') ∧
      ∀ c ∈ (tagsText tags).getLast?, isSpace c = false := by
  induction tags with
  | nil => exact ⟨nofun, nofun⟩
  | cons t tags ih =>
    have ht := h t (List.mem_cons_self ..)
    have hchars := ht.chars
    obtain ⟨w, hw, -, -⟩ := ht
    cases tags with
    | nil =>
      rw [tagsText_single]
      refine ⟨fun c hc => ?_, fun c hc => hchars.2 c (List.mem_of_mem_getLast? hc)⟩
      rw [hw] at hc
      exact (Option.some.inj hc).symm
    | cons u tags =>
      have htail : ∀ t ∈ u :: tags, TagText t := fun t ht => h t (List.mem_cons_of_mem _ ht)
      obtain ⟨-, hlast⟩ := ih htail
      rw [tagsText_cons]
      refine ⟨fun c hc => ?_, fun c hc => ?_⟩
      · rw [hw] at hc
        exact (Option.some.inj hc).symm
      · have hne : tagsText (u :: tags) ≠ [] := fun hnil =>
          List.cons_ne_nil _ _ ((tagsText_eq_nil htail).mp hnil)
        rw [List.getLast?_append_of_ne_nil _ (List.cons_ne_nil _ _),
          List.getLast?_cons_of_ne_nil hne] at hc
        exact hlast c hc

theorem tagsText_strip {tags : List Str} (h : ∀ t ∈ tags, TagText t) :
    strip (tagsText tags) = tagsText tags := by
  obtain ⟨hfirst, hlast⟩ := tagsText_ends h
  refine strip_of_ends (fun c hc => ?_) hlast
  rw [hfirst c hc]
  decide

theorem tagsText_bar {tags : List Str} (h : ∀ t ∈ tags, '|' ∉ t) : '|' ∉ tagsText tags := by
  induction tags with
  | nil => exact List.not_mem_nil
  | cons t tags ih =>
    have ht := h t (List.mem_cons_self ..)
    cases tags with
    | nil => rwa [tagsText_single]
    | cons u tags =>
      have htail := ih fun t ht => h t (List.mem_cons_of_mem _ ht)
      rw [tagsText_cons]
      simp [ht, htail]

namespace Fields

theorem line_eq (f : Fields) : f.line = (f.title ++ [' ']) ++ '|' ::
    (([' '] ++ (f.url ++ [' '])) ++ '|' :: (([' '] ++ (f.description ++ [' '])) ++ '|' ::
      ([' '] ++ tagsText f.tags))) := by
  simp [line, List.intercalate]

theorem strip_line (f : Fields) : strip f.line = lstrip (f.title ++ [' ']) ++ '|' ::
    (([' '] ++ (f.url ++ [' '])) ++ '|' :: (([' '] ++ (f.description ++ [' '])) ++ '|' ::
      rstrip ([' '] ++ tagsText f.tags))) := by
  have hbar : isSpace '|' = false := by decide
  rw [line_eq, strip_eq, lstrip_append_cons _ _ hbar, rstrip_append_cons _ _ hbar,
    rstrip_append_cons _ _ hbar, rstrip_append_cons _ _ hbar]

variable {f : Fields}

theorem Writable.lineParts (h : f.Writable) : lineParts f.line =
    [f.title, f.url, f.description, tagsText f.tags].filter fun x => x ≠ [] := by
  have hblank : Blank [' '] := List.all_eq_true.mp rfl
  obtain ⟨htitle, htitle_bar⟩ := h.stripped f.title (by simp)
  obtain ⟨hurl, hurl_bar⟩ := h.stripped f.url (by simp)
  obtain ⟨hdesc, hdesc_bar⟩ := h.stripped f.description (by simp)
  have htags := tagsText_strip fun t ht => (h.tags t ht).1
  have htags_bar := tagsText_bar fun t ht => (h.tags t ht).2
  have hfirst : '|' ∉ lstrip (f.title ++ [' ']) := by
    intro hmem
    have := (List.dropWhile_sublist _).mem hmem
    simp [htitle_bar] at this
  have hlast : '|' ∉ rstrip ([' '] ++ tagsText f.tags) := by
    intro hmem
    have := (List.dropWhile_sublist _).mem (List.mem_reverse.mp hmem)
    simp [htags_bar] at this
  have hsplit : (strip f.line).splitOn '|' = [lstrip (f.title ++ [' ']),
      [' '] ++ (f.url ++ [' ']), [' '] ++ (f.description ++ [' ']),
      rstrip ([' '] ++ tagsText f.tags)] := by
    rw [strip_line, List.splitOn_append_cons_self_of_not_mem hfirst,
      List.splitOn_append_cons_self_of_not_mem (by simp [hurl_bar]),
      List.splitOn_append_cons_self_of_not_mem (by simp [hdesc_bar]),
      List.splitOn_eq_singleton hlast]
  have htitle' : strip (f.title ++ [' ']) = f.title :=
    (strip_pad (p := []) f.title nofun hblank).trans htitle
  have htags' : strip ([' '] ++ tagsText f.tags) = tagsText f.tags := by
    have hpad := strip_pad (q := []) (tagsText f.tags) hblank nofun
    rw [List.append_nil] at hpad
    exact hpad.trans htags
  have hmap : ((strip f.line).splitOn '|').map strip =
      [f.title, f.url, f.description, tagsText f.tags] := by
    rw [hsplit, List.map_cons, List.map_cons, List.map_cons, List.map_cons, strip_lstrip,
      strip_rstrip, strip_pad _ hblank hblank, strip_pad _ hblank hblank, htitle', hurl, hdesc,
      htags']
    rfl
  rw [Marks2json.lineParts, ← hmap, List.filter_map]
  rfl

end Fields

/-! ### The parts in their order -/

theorem TagText.isTag {t : Str} (h : TagText t) : isTag t = true := by
  obtain ⟨w, rfl, hne, hw⟩ := h
  have hpre : ['#'] <+: '#' :: w := ⟨w, rfl⟩
  have hrest : removePrefix ['#'] ('#' :: w) = w := by rw [removePrefix, if_pos hpre]; rfl
  simp [Marks2json.isTag, hrest, strip_of_chars hw, hne]

theorem readTags_tagsText {tags : List Str} (h : ∀ t ∈ tags, TagText t) :
    readTags (tagsText tags) = tags := by
  rw [readTags, words_tagsText h, List.filter_eq_self.mpr fun t ht => (h t ht).isTag]
  have hstrip : tags.map strip = tags.map id :=
    List.map_congr_left fun t ht => strip_of_chars (h t ht).chars.2
  rw [hstrip, List.map_id]

theorem startsWithScheme_head {s : Str} (h : startsWithScheme s = true) :
    s.head? = some 'h' := by
  have hhttp : httpScheme.head? = some 'h' := by decide
  have hhttps : httpsScheme.head? = some 'h' := by decide
  simp only [startsWithScheme, Bool.or_eq_true, decide_eq_true_eq] at h
  rcases h with ⟨rest, rfl⟩ | ⟨rest, rfl⟩
  · rw [List.head?_append, hhttp, Option.some_or]
  · rw [List.head?_append, hhttps, Option.some_or]

theorem hash_no_scheme {s : Str} (h : ['#'] <+: s) : startsWithScheme s = false := by
  obtain ⟨rest, rfl⟩ := h
  by_contra hscheme
  have hhead := startsWithScheme_head (Bool.not_eq_false _ ▸ hscheme)
  exact absurd (Option.some.inj hhead) (by decide)

namespace Fields

theorem readPart_plain (f : Fields) {x : Str} (h : PlainText x) :
    f.readPart x = if f.title = [] then { f with title := x }
      else if f.description = [] then { f with description := x } else f := by
  rw [readPart, h.2, if_neg Bool.false_ne_true, if_neg h.1]

theorem readPart_url (f : Fields) {x : Str} (h : startsWithScheme x = true) :
    f.readPart x = { f with url := x } := by
  rw [readPart, if_pos h]

theorem readPart_tags (f : Fields) {tags : List Str} (h : ∀ t ∈ tags, TagText t)
    (hne : tags ≠ []) : f.readPart (tagsText tags) = { f with tags := f.tags ++ tags } := by
  have hhash : ['#'] <+: tagsText tags := by
    cases hs : tagsText tags with
    | nil => exact absurd ((tagsText_eq_nil h).mp hs) hne
    | cons c cs =>
      obtain rfl := (tagsText_ends h).1 c (by rw [hs]; rfl)
      exact ⟨cs, rfl⟩
  rw [readPart, hash_no_scheme hhash, if_neg Bool.false_ne_true, if_pos hhash,
    readTags_tagsText h]

/-- The fields that are read from the line: without a title the description takes its place. -/
def shifted (f : Fields) : Fields :=
  if f.title = [] then { f with title := f.description, description := [] } else f

theorem Writable.url_ne_nil {f : Fields} (h : f.Writable) : f.url ≠ [] := fun hnil => by
  have hhead := startsWithScheme_head h.url
  rw [hnil] at hhead
  cases hhead

theorem Writable.foldl_parts {f : Fields} (h : f.Writable) :
    (Marks2json.lineParts f.line).foldl readPart .empty = f.shifted := by
  have htags : ∀ t ∈ f.tags, TagText t := fun t ht => (h.tags t ht).1
  rw [h.lineParts, List.foldl_filter]
  simp only [List.foldl_cons, List.foldl_nil, decide_eq_true_eq, ne_eq, tagsText_eq_nil htags]
  have htitle : (if ¬ f.title = [] then empty.readPart f.title else empty) =
      ⟨f.title, [], [], []⟩ := by
    by_cases hnil : f.title = []
    · rw [if_neg (not_not.mpr hnil), hnil]
      rfl
    · rw [if_pos hnil, readPart_plain _ h.title]
      rfl
  rw [htitle, if_pos h.url_ne_nil, readPart_url _ h.url]
  have hdesc : (if ¬ f.description = [] then
      readPart ⟨f.title, f.url, [], []⟩ f.description else ⟨f.title, f.url, [], []⟩) =
        { f.shifted with tags := [] } := by
    rw [readPart_plain _ h.description, shifted]
    by_cases hd : f.description = []
    · rw [if_neg (not_not.mpr hd)]
      split <;> simp [*]
    · rw [if_pos hd]
      split <;> rfl
  rw [hdesc]
  have hkeep : ∀ (g : Fields) (tags : List Str), g.tags = tags → { g with tags := tags } = g := by
    intro g tags hg
    rw [← hg]
  have hshift : f.shifted.tags = f.tags := by
    rw [shifted]
    split <;> rfl
  by_cases hnil : f.tags = []
  · rw [if_neg (not_not.mpr hnil)]
    exact hkeep _ _ (hshift.trans hnil)
  · rw [if_pos hnil, readPart_tags _ htags hnil, List.nil_append]
    exact hkeep _ _ hshift

theorem Writable.no_comment {f : Fields} (h : f.Writable) : ¬ ['#'] <+: strip f.line := by
  intro hhash
  rw [strip_line] at hhash
  cases htitle : f.title with
  | nil =>
    have hfirst : lstrip (f.title ++ [' ']) = [] := by rw [htitle]; decide
    rw [hfirst] at hhash
    obtain ⟨rest, heq⟩ := hhash
    cases heq
  | cons c cs =>
    have hspace := strip_head (h.stripped f.title (by simp)).1 c (by rw [htitle]; rfl)
    have hfirst : lstrip (f.title ++ [' ']) = c :: (cs ++ [' ']) := by
      rw [htitle, List.cons_append, lstrip, List.dropWhile_cons, hspace,
        if_neg Bool.false_ne_true]
    rw [hfirst] at hhash
    obtain ⟨rest, heq⟩ := hhash
    have hc := (List.cons.inj heq).1
    refine h.title.1 ⟨cs, ?_⟩
    rw [htitle, ← hc]
    rfl

/-- What is read from the line is the bookmark, but for a description without a title. -/
theorem Writable.readFields {f : Fields} (h : f.Writable) :
    readFields f.line = some f.shifted := by
  have hurl_line : f.url <:+: f.line := by
    rw [line_eq]
    exact ⟨f.title ++ [' '] ++ ['|'] ++ [' '], _, by simp only [List.append_assoc]; rfl⟩
  have hscheme := h.url
  have hline : ¬ (¬ httpScheme <:+: f.line ∧ ¬ httpsScheme <:+: f.line) := by
    simp only [startsWithScheme, Bool.or_eq_true, decide_eq_true_eq] at hscheme
    rcases hscheme with hpre | hpre
    · exact fun hno => hno.1 (hpre.isInfix.trans hurl_line)
    · exact fun hno => hno.2 (hpre.isInfix.trans hurl_line)
  have hne : ¬ (f.line = [] ∨ ['#'] <+: strip f.line) := by
    rintro (hnil | hhash)
    · rw [line_eq] at hnil
      simp at hnil
    · exact h.no_comment hhash
  have hcount : ¬ 4 < (Marks2json.lineParts f.line).length := by
    rw [h.lineParts]
    exact not_lt.mpr (List.length_filter_le _ _)
  have hurl : f.shifted.url ≠ [] := by
    have hsame : f.shifted.url = f.url := by
      rw [shifted]
      split <;> rfl
    rw [hsame]
    exact h.url_ne_nil
  rw [Marks2json.readFields, if_neg hne, if_neg hline, if_neg hcount, h.foldl_parts]
  exact if_neg hurl

end Fields

/-! ### The round trip -/

def Bookmark.fields (bm : Bookmark) : Fields := ⟨bm.title, bm.url, bm.description, bm.tags⟩

theorem parseBookmarkLine_fields (env : ParseEnv) (line : Str) (st : ParseState) :
    (parseBookmarkLine env line st).1.map Bookmark.fields = readFields line := by
  unfold parseBookmarkLine
  cases readFields line with
  | none => rfl
  | some f =>
    obtain ⟨icon, hicon⟩ := addIcon_entry env (f.entry env.lib)
      { st with counters := countBookmark st.counters (f.entry env.lib) }
    dsimp only
    rw [Option.map_some, hicon]
    rfl

/-- Whatever the run, the line that a bookmark is written to is read back as this bookmark. -/
def RoundTrips (f : Fields) : Prop :=
  ∀ env st, (parseBookmarkLine env f.line st).1.map Bookmark.fields = some f

/-- A bookmark is read back from its line exactly when it has a title or no description. -/
theorem roundTrips_iff {f : Fields} (h : f.Writable) :
    RoundTrips f ↔ f.title ≠ [] ∨ f.description = [] := by
  have hread : RoundTrips f ↔ f.shifted = f := by
    have hline : ∀ env st, (parseBookmarkLine env f.line st).1.map Bookmark.fields =
        some f.shifted := fun env st => (parseBookmarkLine_fields ..).trans h.readFields
    simp only [RoundTrips, hline, Option.some.injEq]
    exact ⟨fun hall => hall ⟨⟨id, id, fun _ => none⟩, false, fun _ => none, fun _ _ => .failed⟩
      (.start ∅), fun heq _ _ => heq⟩
  rw [hread, Fields.shifted]
  by_cases htitle : f.title = []
  · rw [if_pos htitle]
    constructor
    · intro heq
      exact Or.inr (congrArg Fields.description heq).symm
    · intro hdesc
      have hd := hdesc.resolve_left (not_not.mpr htitle)
      cases f
      cases htitle
      cases hd
      rfl
  · rw [if_neg htitle]
    exact iff_of_true rfl (Or.inl htitle)

/-- A bookmark with all its fields, and one with a description and no title. -/
def rustBook : Fields :=
  ⟨"Rust".toList, "https://rust.org".toList, "a note".toList, ["#lang".toList, "#doc".toList]⟩

def untitled : Fields := ⟨[], "https://rust.org".toList, "a note".toList, []⟩

theorem rustBook_writable : rustBook.Writable where
  url := by decide
  title := by unfold PlainText; decide
  description := by unfold PlainText; decide
  stripped := by decide
  tags := by
    intro t ht
    rcases List.mem_pair.mp ht with rfl | rfl
    · exact ⟨⟨"lang".toList, rfl, by decide, by simp [isSpace]⟩, by decide⟩
    · exact ⟨⟨"doc".toList, rfl, by decide, by simp [isSpace]⟩, by decide⟩

theorem untitled_writable : untitled.Writable where
  url := by decide
  title := by unfold PlainText; decide
  description := by unfold PlainText; decide
  stripped := by decide
  tags := nofun

theorem roundTrips_rustBook : RoundTrips rustBook ↔
    rustBook.title ≠ [] ∨ rustBook.description = [] := roundTrips_iff rustBook_writable

theorem untitled_shifted : untitled.Writable ∧ ¬ RoundTrips untitled := by
  refine ⟨untitled_writable, fun h => ?_⟩
  have hread := h ⟨⟨id, id, fun _ => none⟩, false, fun _ => none, fun _ _ => .failed⟩ (.start ∅)
  rw [parseBookmarkLine_fields, untitled_writable.readFields] at hread
  exact absurd hread (by decide)

end LocalMarks.Marks2json

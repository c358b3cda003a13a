import LocalMarks.Lib.JsonPrint
import LocalMarks.Marks2json.Counters

/-!
# The database file

`json.dumps(final_data, indent=…, ensure_ascii=False)` and `json.loads`. The keys of the two hashes
are printed in whatever order the dictionaries have. Strings of a JSON value are in UTF-8; all that
is printed between them is ASCII.
-/

namespace LocalMarks.Marks2json
open LocalMarks.Lib

/-! ### Strings -/

def utf8Bytes (s : Str) : Bytes := s.flatMap String.utf8EncodeChar

def utf8Text (b : Bytes) : Option Str := b.toByteArray.utf8Decode?.map Array.toList

theorem utf8Text_utf8Bytes (s : Str) : utf8Text (utf8Bytes s) = some s := by
  have h : (utf8Bytes s).toByteArray = s.utf8Encode := rfl
  rw [utf8Text, h, List.utf8Decode?_utf8Encode, Option.map_some]

def jsonStr (s : Str) : Json := .string (utf8Bytes s)

def strOf : Json → Option Str
  | .string b => utf8Text b
  | _ => none

theorem strOf_jsonStr (s : Str) : strOf (jsonStr s) = some s := utf8Text_utf8Bytes s

/-! ### What is dumped -/

/-- The entries of a dictionary from text to numbers, in its own order. -/
abbrev Entries := List (Sigma fun _ : Str => ℤ)

def Bookmark.json (bm : Bookmark) : Json := .object
  ([(ascii "title", jsonStr bm.title), (ascii "url", jsonStr bm.url),
    (ascii "description", jsonStr bm.description), (ascii "tags", .array (bm.tags.map jsonStr)),
    (ascii "domain", jsonStr bm.domain)] ++
    (bm.icon.map fun icon => (ascii "icon", jsonStr icon)).toList)

def Category.json (cat : Category) : Json := .object
  [(ascii "category", jsonStr cat.category),
    (ascii "bookmarks", .array (cat.bookmarks.map Bookmark.json))]

def entriesJson (entries : Entries) : Json :=
  .object (entries.map fun e => (utf8Bytes e.1, .number e.2 0))

def finalData (bookMarks : List Category) (domains tags : Entries) : Json := .object
  [(ascii "book_Marks", .array (bookMarks.map Category.json)),
    (ascii "book_mark_domain_hash", entriesJson domains),
    (ascii "book_mark_tag_hash", entriesJson tags)]

/-- `indent=2` of create and update, `indent="\t"` of find-dead. -/
def indentTwo : Indent := ⟨ascii "  ", all_bytes rfl⟩
def indentTab : Indent := ⟨[9], all_bytes rfl⟩

/-- What write_text is given. -/
def fileText (ind : Indent) (bookMarks : List Category) (domains tags : Entries) : Bytes :=
  printJson ind 0 (finalData bookMarks domains tags) ++ [10]

/-- The file holds the database, with its hashes in some order. -/
def Holds (ind : Indent) (db : Database) (file : Bytes) : Prop :=
  ∃ domains tags : Entries, domains.Perm db.bookMarkDomainHash.entries ∧
    tags.Perm db.bookMarkTagHash.entries ∧ file = fileText ind db.bookMarks domains tags

/-! ### What is loaded -/

/-- The value of a key; of members with the same key the last counts. -/
def dictGet (ms : List (Bytes × Json)) (key : Bytes) : Option Json :=
  (ms.reverse.find? (·.1 = key)).map (·.2)

def listOf : Json → Option (List Json)
  | .array vs => some vs
  | _ => none

def intOf : Json → Option ℤ
  | .number m 0 => some m
  | _ => none

def Bookmark.ofJson : Json → Option Bookmark
  | .object ms =>
    ((dictGet ms (ascii "title")).bind strOf).bind fun title =>
      ((dictGet ms (ascii "url")).bind strOf).bind fun url =>
        ((dictGet ms (ascii "description")).bind strOf).bind fun description =>
          (((dictGet ms (ascii "tags")).bind listOf).bind (·.mapM strOf)).bind fun tags =>
            ((dictGet ms (ascii "domain")).bind strOf).map fun domain =>
              ⟨title, url, description, tags, domain, (dictGet ms (ascii "icon")).bind strOf⟩
  | _ => none

def Category.ofJson : Json → Option Category
  | .object ms =>
    ((dictGet ms (ascii "category")).bind strOf).bind fun category =>
      (((dictGet ms (ascii "bookmarks")).bind listOf).bind (·.mapM Bookmark.ofJson)).map
        fun bookmarks => ⟨category, bookmarks⟩
  | _ => none

/-- A dictionary of the pairs, a later one overriding an earlier one. -/
def dictOf (entries : Entries) : Tally Str := entries.foldl (fun t e => t.insert e.1 e.2) ∅

def entryOf (m : Bytes × Json) : Option (Sigma fun _ : Str => ℤ) :=
  (utf8Text m.1).bind fun k => (intOf m.2).map fun n => ⟨k, n⟩

def hashOf : Json → Option (Tally Str)
  | .object ms => (ms.mapM entryOf).map dictOf
  | _ => none

def Database.ofJson : Json → Option Database
  | .object ms =>
    (((dictGet ms (ascii "book_Marks")).bind listOf).bind (·.mapM Category.ofJson)).bind
      fun bookMarks =>
        ((dictGet ms (ascii "book_mark_domain_hash")).bind hashOf).bind fun domains =>
          ((dictGet ms (ascii "book_mark_tag_hash")).bind hashOf).map fun tags =>
            ⟨bookMarks, domains, tags⟩
  | _ => none

/-- What read_text makes of line ends. -/
def readNewlines : Bytes → Bytes
  | 13 :: 10 :: b => 10 :: readNewlines b
  | 13 :: b => 10 :: readNewlines b
  | c :: b => c :: readNewlines b
  | [] => []

def loadDatabase (file : Bytes) : Option Database :=
  (parseJson (readNewlines file)).bind Database.ofJson

/-- The same categories, and the same hashes as maps. -/
structure SameData (db db' : Database) : Prop where
  bookMarks : db.bookMarks = db'.bookMarks
  domains : ∀ k, db.bookMarkDomainHash.lookup k = db'.bookMarkDomainHash.lookup k
  tags : ∀ k, db.bookMarkTagHash.lookup k = db'.bookMarkTagHash.lookup k

/-! ### A round trip of each part -/

theorem mapM_of_view {α β γ : Type} {f : α → β} {g : β → Option γ} {view : α → γ}
    (h : ∀ a, g (f a) = some (view a)) (l : List α) : (l.map f).mapM g = some (l.map view) := by
  induction l with
  | nil => rfl
  | cons a l ih =>
    rw [List.map_cons, List.mapM_cons, h, ih]
    rfl

theorem mapM_of_inverse {α β : Type} {f : α → β} {g : β → Option α} (h : ∀ a, g (f a) = some a)
    (l : List α) : (l.map f).mapM g = some l := by
  have hview : ∀ a, g (f a) = some (id a) := h
  rw [mapM_of_view hview, List.map_id]

theorem Bookmark.ofJson_json (bm : Bookmark) : Bookmark.ofJson bm.json = some bm := by
  obtain ⟨title, url, description, tags, domain, icon⟩ := bm
  have htags := mapM_of_inverse strOf_jsonStr tags
  cases icon with
  | none =>
    show ((strOf (jsonStr title)).bind fun title => (strOf (jsonStr url)).bind fun url =>
      (strOf (jsonStr description)).bind fun description =>
        ((tags.map jsonStr).mapM strOf).bind fun tags => (strOf (jsonStr domain)).map fun domain =>
          (⟨title, url, description, tags, domain, none⟩ : Bookmark)) = _
    simp only [strOf_jsonStr, htags, Option.bind_some, Option.map_some]
  | some icon =>
    show ((strOf (jsonStr title)).bind fun title => (strOf (jsonStr url)).bind fun url =>
      (strOf (jsonStr description)).bind fun description =>
        ((tags.map jsonStr).mapM strOf).bind fun tags => (strOf (jsonStr domain)).map fun domain =>
          (⟨title, url, description, tags, domain, strOf (jsonStr icon)⟩ : Bookmark)) = _
    simp only [strOf_jsonStr, htags, Option.bind_some, Option.map_some]

theorem Category.ofJson_json (cat : Category) : Category.ofJson cat.json = some cat := by
  have hbookmarks := mapM_of_inverse Bookmark.ofJson_json cat.bookmarks
  show ((strOf (jsonStr cat.category)).bind fun category =>
    ((cat.bookmarks.map Bookmark.json).mapM Bookmark.ofJson).map fun bookmarks =>
      (⟨category, bookmarks⟩ : Category)) = _
  rw [strOf_jsonStr, Option.bind_some, hbookmarks, Option.map_some]

theorem entryOf_entry (e : Sigma fun _ : Str => ℤ) :
    entryOf (utf8Bytes e.1, .number e.2 0) = some e := by
  rw [entryOf, utf8Text_utf8Bytes, Option.bind_some, intOf, Option.map_some]

theorem hashOf_entriesJson (entries : Entries) :
    hashOf (entriesJson entries) = some (dictOf entries) := by
  rw [entriesJson, hashOf, mapM_of_inverse entryOf_entry, Option.map_some]

theorem lookup_foldl_insert {entries : Entries} (h : entries.NodupKeys) (t : Tally Str) (k : Str) :
    (entries.foldl (fun t e => t.insert e.1 e.2) t).lookup k =
      (entries.dlookup k).or (t.lookup k) := by
  induction entries generalizing t with
  | nil => rfl
  | cons e entries ih =>
    obtain ⟨hnew, hrest⟩ := List.nodupKeys_cons.mp h
    rw [List.foldl_cons, ih hrest]
    by_cases hk : k = e.1
    · subst hk
      rw [AList.lookup_insert, List.dlookup_eq_none.mpr hnew, List.dlookup_cons_eq]
      rfl
    · rw [AList.lookup_insert_ne hk, List.dlookup_cons_ne entries e hk]

theorem lookup_dictOf {t : Tally Str} {entries : Entries} (h : entries.Perm t.entries) (k : Str) :
    (dictOf entries).lookup k = t.lookup k := by
  have hnodup : entries.NodupKeys := (List.perm_nodupKeys h).mpr t.nodupKeys
  rw [dictOf, lookup_foldl_insert hnodup, AList.lookup_empty, Option.or_none]
  exact List.perm_dlookup k hnodup h

theorem Database.ofJson_finalData (bookMarks : List Category) (domains tags : Entries) :
    Database.ofJson (finalData bookMarks domains tags) =
      some ⟨bookMarks, dictOf domains, dictOf tags⟩ := by
  have hcategories := mapM_of_inverse Category.ofJson_json bookMarks
  show (((bookMarks.map Category.json).mapM Category.ofJson).bind fun bookMarks =>
    (hashOf (entriesJson domains)).bind fun domains => (hashOf (entriesJson tags)).map fun tags =>
      (⟨bookMarks, domains, tags⟩ : Database)) = _
  rw [hcategories, Option.bind_some, hashOf_entriesJson, Option.bind_some, hashOf_entriesJson,
    Option.map_some]

/-! ### A round trip of the file -/

theorem jsonStr_whole (s : Str) : (jsonStr s).Whole := Json.Whole.string _

theorem Bookmark.json_whole (bm : Bookmark) : bm.json.Whole := by
  refine Json.Whole.object fun m hm => ?_
  rcases List.mem_append.mp hm with hm | hm
  · have htags : (Json.array (bm.tags.map jsonStr)).Whole := by
      refine Json.Whole.array fun v hv => ?_
      obtain ⟨tag, -, rfl⟩ := List.mem_map.mp hv
      exact jsonStr_whole tag
    simp only [List.mem_cons, List.not_mem_nil, or_false] at hm
    rcases hm with rfl | rfl | rfl | rfl | rfl
    · exact jsonStr_whole _
    · exact jsonStr_whole _
    · exact jsonStr_whole _
    · exact htags
    · exact jsonStr_whole _
  · obtain ⟨icon, -, rfl⟩ := Option.map_eq_some_iff.mp (Option.mem_toList.mp hm)
    exact jsonStr_whole icon

theorem Category.json_whole (cat : Category) : cat.json.Whole := by
  have hbookmarks : (Json.array (cat.bookmarks.map Bookmark.json)).Whole := by
    refine Json.Whole.array fun v hv => ?_
    obtain ⟨bm, -, rfl⟩ := List.mem_map.mp hv
    exact bm.json_whole
  refine Json.Whole.object fun m hm => ?_
  simp only [List.mem_cons, List.not_mem_nil, or_false] at hm
  rcases hm with rfl | rfl
  · exact jsonStr_whole _
  · exact hbookmarks

theorem entriesJson_whole (entries : Entries) : (entriesJson entries).Whole := by
  refine Json.Whole.object fun m hm => ?_
  obtain ⟨e, -, rfl⟩ := List.mem_map.mp hm
  exact Json.Whole.number e.2

theorem finalData_whole (bookMarks : List Category) (domains tags : Entries) :
    (finalData bookMarks domains tags).Whole := by
  have hcategories : (Json.array (bookMarks.map Category.json)).Whole := by
    refine Json.Whole.array fun v hv => ?_
    obtain ⟨cat, -, rfl⟩ := List.mem_map.mp hv
    exact cat.json_whole
  refine Json.Whole.object fun m hm => ?_
  simp only [List.mem_cons, List.not_mem_nil, or_false] at hm
  rcases hm with rfl | rfl | rfl
  · exact hcategories
  · exact entriesJson_whole domains
  · exact entriesJson_whole tags

theorem readNewlines_plain {b : Bytes} (h : 13 ∉ b) : readNewlines b = b := by
  induction b with
  | nil => rfl
  | cons c b ih =>
    obtain ⟨hc, hb⟩ := List.ne_and_not_mem_of_not_mem_cons h
    rw [readNewlines.eq_3 c b (fun _ hcr _ => hc hcr.symm) (fun hcr => hc hcr.symm), ih hb]

theorem fileText_noReturn {ind : Indent} (hind : 13 ∉ ind.unit) (bookMarks : List Category)
    (domains tags : Entries) : 13 ∉ fileText ind bookMarks domains tags := by
  intro h
  rcases List.mem_append.mp h with h | h
  · exact printJson_noReturn hind 0 _ h
  · exact absurd h (by decide)

/-- What a command writes is loaded by the next: the same categories and bookmarks in the same
order and the same hashes, whatever characters the strings have. -/
theorem loadDatabase_holds {ind : Indent} (hind : 13 ∉ ind.unit) {db : Database} {file : Bytes}
    (h : Holds ind db file) : ∃ db', loadDatabase file = some db' ∧ SameData db' db := by
  obtain ⟨domains, tags, hdomains, htags, rfl⟩ := h
  refine ⟨⟨db.bookMarks, dictOf domains, dictOf tags⟩, ?_, rfl, lookup_dictOf hdomains,
    lookup_dictOf htags⟩
  rw [loadDatabase, readNewlines_plain (fileText_noReturn hind _ _ _), fileText,
    parseJson_printJson ind (finalData_whole _ _ _), Option.bind_some,
    Database.ofJson_finalData]

end LocalMarks.Marks2json

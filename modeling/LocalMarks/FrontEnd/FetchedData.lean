import LocalMarks.FrontEnd.Browse
import LocalMarks.Marks2json.Store

/-!
# What the page makes of a database (data.js, browse.js)

`fetchBookmarks` parses the body of the response, and the browse view takes the categories from it.
A database that marks2json has printed arrives with all its bookmarks.
-/

namespace LocalMarks.FrontEnd.Browse
open LocalMarks.Lib
open LocalMarks.Marks2json (Database Entries Holds dictGet listOf strOf jsonStr utf8Bytes finalData
  fileText mapM_of_inverse mapM_of_view strOf_jsonStr utf8Text_utf8Bytes finalData_whole)

/-- The path that `fetchBookmarks` asks for, without its leading slash. -/
def bookmarksPath (index : ℕ) : Bytes :=
  if 0 < index then ascii "bookmarks/" ++ (numeral 10 index ++ ascii ".json")
  else ascii "bookmarks.json"

/-- A value for which `value || other` is `value`. -/
def truthy : Json → Bool
  | .null => false
  | .bool b => b
  | .number m _ => m != 0
  | .string s => s != []
  | .array _ | .object _ => true

def memberOr (ms : List (Bytes × Json)) (key : String) : Option Json :=
  (dictGet ms (ascii key)).filter truthy

def textOf (ms : List (Bytes × Json)) (key : String) : Option Str :=
  (memberOr ms key).elim (some []) strOf

def Bookmark.ofJson : Json → Option Bookmark
  | .object ms =>
    (textOf ms "title").bind fun title =>
      ((dictGet ms (ascii "url")).bind strOf).bind fun url =>
        (textOf ms "description").bind fun description =>
          ((memberOr ms "tags").elim (some []) fun v => (listOf v).bind (·.mapM strOf)).map
            fun tags => ⟨title, url, description, tags⟩
  | _ => none

def Category.ofJson : Json → Option Category
  | .object ms =>
    ((dictGet ms (ascii "category")).bind strOf).bind fun category =>
      ((memberOr ms "bookmarks").elim (some []) fun v =>
        (listOf v).bind (·.mapM Bookmark.ofJson)).map fun bookmarks => ⟨category, bookmarks⟩
  | _ => none

/-- `data.book_Marks || data.categories || []`, as far as it has the form of a database. -/
def categoriesOf : Json → Option (List Category)
  | .object ms =>
    ((memberOr ms "book_Marks").or (memberOr ms "categories")).elim (some []) fun v =>
      (listOf v).bind (·.mapM Category.ofJson)
  | _ => none

/-- The categories in the body of a response. -/
def fetchedCategories (body : Bytes) : Option (List Category) :=
  (parseJson body).bind categoriesOf

/-! ### Stored bookmarks -/

/-- The part of a stored bookmark that the page looks at. -/
def ofStored (bm : Marks2json.Bookmark) : Bookmark :=
  ⟨bm.title, bm.url, bm.description, bm.tags⟩

def ofStoredCategory (cat : Marks2json.Category) : Category :=
  ⟨cat.category, cat.bookmarks.map ofStored⟩

theorem textOf_jsonStr (s : Str) :
    ((some (jsonStr s)).filter truthy).elim (some []) strOf = some s := by
  cases s with
  | nil => rfl
  | cons c cs =>
    have htruthy : truthy (jsonStr (c :: cs)) = true := by
      show (utf8Bytes (c :: cs) != []) = true
      rw [bne_iff_ne]
      intro hnil
      have hback := utf8Text_utf8Bytes (c :: cs)
      rw [hnil] at hback
      exact List.cons_ne_nil c cs (Option.some.inj hback).symm
    rw [Option.filter_some_pos htruthy]
    exact strOf_jsonStr _

theorem Bookmark.ofJson_json (bm : Marks2json.Bookmark) :
    Bookmark.ofJson bm.json = some (ofStored bm) := by
  obtain ⟨title, url, description, tags, domain, icon⟩ := bm
  have htags := mapM_of_inverse strOf_jsonStr tags
  have hread : (((some (jsonStr title)).filter truthy).elim (some []) strOf).bind (fun title =>
      (strOf (jsonStr url)).bind fun url =>
        (((some (jsonStr description)).filter truthy).elim (some []) strOf).bind
          fun description => ((tags.map jsonStr).mapM strOf).map fun tags =>
            (⟨title, url, description, tags⟩ : Bookmark)) =
      some ⟨title, url, description, tags⟩ := by
    rw [textOf_jsonStr, textOf_jsonStr, strOf_jsonStr, htags]
    rfl
  cases icon <;> exact hread

theorem Category.ofJson_json (cat : Marks2json.Category) :
    Category.ofJson cat.json = some (ofStoredCategory cat) := by
  have hbookmarks := mapM_of_view Bookmark.ofJson_json cat.bookmarks
  show ((strOf (jsonStr cat.category)).bind fun category =>
    ((cat.bookmarks.map Marks2json.Bookmark.json).mapM Bookmark.ofJson).map fun bookmarks =>
      (⟨category, bookmarks⟩ : Category)) = _
  rw [strOf_jsonStr, Option.bind_some, hbookmarks]
  rfl

theorem categoriesOf_finalData (bookMarks : List Marks2json.Category) (domains tags : Entries) :
    categoriesOf (finalData bookMarks domains tags) = some (bookMarks.map ofStoredCategory) :=
  mapM_of_view Category.ofJson_json bookMarks

theorem fetchedCategories_holds {ind : Indent} {db : Database} {file : Bytes}
    (h : Holds ind db file) :
    fetchedCategories file = some (db.bookMarks.map ofStoredCategory) := by
  obtain ⟨domains, tags, -, -, rfl⟩ := h
  rw [fetchedCategories, fileText, parseJson_printJson ind (finalData_whole _ _ _),
    Option.bind_some, categoriesOf_finalData]

end LocalMarks.FrontEnd.Browse

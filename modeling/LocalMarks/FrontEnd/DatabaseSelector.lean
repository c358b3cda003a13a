import LocalMarks.FrontEnd.FetchedData

/-!
# The database selector (databases.js)

The page lists the databases that the server tells it of, and a card of the list opens its
database by the place that this has in the whole list, however few of them the filter leaves.
-/

namespace LocalMarks.FrontEnd.Selector
open LocalMarks.Lib
open LocalMarks.FrontEnd.Browse (memberOr)
open LocalMarks.Marks2json (listOf)

structure ListedDb where
  fileName : Bytes
  absolutePath : Bytes
  deriving DecidableEq

def bytesOr (ms : List (Bytes × Json)) (key : String) : Option Bytes :=
  (memberOr ms key).elim (some []) fun
    | .string s => some s
    | _ => none

def ListedDb.ofJson : Json → Option ListedDb
  | .object ms =>
    (bytesOr ms "file_name").bind fun fileName =>
      (bytesOr ms "absolute_path").map fun absolutePath => ⟨fileName, absolutePath⟩
  | _ => none

/-- `payload.databases || []`, as far as it has the form of a list of databases. -/
def databasesOf : Json → Option (List ListedDb)
  | .object ms =>
    (memberOr ms "databases").elim (some []) fun v => (listOf v).bind (·.mapM ListedDb.ofJson)
  | _ => none

/-- The databases in the body of a response. -/
def fetchedDatabases (body : Bytes) : Option (List ListedDb) := (parseJson body).bind databasesOf

section
variable (text : Bytes → Str) (lower : Str → Str)

/-- The databases that match, each with its place in the whole list. -/
def filterDatabases (dbs : List ListedDb) (query : Str) : List (ListedDb × ℕ) :=
  dbs.zipIdx.filter fun d =>
    query <:+: lower (text d.1.fileName) ∨ query <:+: lower (text d.1.absolutePath)

end

/-- `path.split('/').slice(-2, -1)[0]`. -/
def parentDir (path : Bytes) : Option Bytes := (path.splitOn 47).dropLast.getLast?

/-- A name that several cards would have is shown with its directory. -/
def displayName (shown : List (ListedDb × ℕ)) (db : ListedDb) : Bytes :=
  if 1 < shown.countP (fun d => d.1.fileName = db.fileName) ∧ db.absolutePath ≠ [] then
    match parentDir db.absolutePath with
    | some (c :: cs) => c :: cs ++ 47 :: db.fileName
    | _ => db.fileName
  else db.fileName

structure DbCard where
  displayName : Bytes
  idx : ℕ
  isActive : Bool
  deriving DecidableEq

def renderCards (activeIdx : Option ℕ) (shown : List (ListedDb × ℕ)) : List DbCard :=
  shown.map fun d => ⟨displayName shown d.1, d.2, activeIdx = some d.2⟩

/-- The active database after a click on a card. -/
def selectDatabase (activeIdx : Option ℕ) (card : DbCard) : Option ℕ :=
  if card.isActive then activeIdx else some card.idx

theorem displayName_suffix (shown : List (ListedDb × ℕ)) (db : ListedDb) :
    db.fileName <:+ displayName shown db := by
  unfold displayName
  split
  · split
    · exact (List.suffix_cons ..).trans (List.suffix_append ..)
    · exact List.suffix_rfl
  · exact List.suffix_rfl

theorem card_selects {text : Bytes → Str} {lower : Str → Str} {dbs : List ListedDb} {query : Str}
    {activeIdx : Option ℕ} {card : DbCard}
    (hcard : card ∈ renderCards activeIdx (filterDatabases text lower dbs query)) :
    selectDatabase activeIdx card = some card.idx ∧
      ∃ db, dbs[card.idx]? = some db ∧ db.fileName <:+ card.displayName := by
  obtain ⟨⟨db, i⟩, hshown, rfl⟩ := List.mem_map.mp hcard
  constructor
  · unfold selectDatabase
    split
    · rename_i hactive
      exact of_decide_eq_true hactive
    · rfl
  · have hdb := List.mem_zipIdx_iff_getElem?.mp (List.mem_of_mem_filter hshown)
    exact ⟨db, hdb, displayName_suffix _ db⟩

end LocalMarks.FrontEnd.Selector

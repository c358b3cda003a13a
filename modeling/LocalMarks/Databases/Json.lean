import LocalMarks.Databases.Escape
import LocalMarks.Databases.Meta
import LocalMarks.Lib.JsonValue

/-!
# The JSON text of the metadata table (databases_meta.c)

`build_databases_json` escapes the four strings of each entry into arrays on its stack and prints
whatever these hold then.
-/

namespace LocalMarks.Databases
open LocalMarks.Lib
open LocalMarks.BookmarkCache

/-- `g_db_meta` with `g_db_meta_count`. -/
structure DbMetaTable where
  entries : List JsonDbMetaData
  count_le : entries.length ≤ maxBookmarkFiles

def escPathSize : ℕ := pathMax * 2
def escNameSize : ℕ := 512

structure EscapeBuffers where
  escPath : CharArray escPathSize
  escName : CharArray escNameSize
  escUser : CharArray escNameSize
  escGroup : CharArray escNameSize

/-- The calls of json_escape_string; their results are not looked at. -/
def EscapeBuffers.fill (e : EscapeBuffers) (m : JsonDbMetaData) : EscapeBuffers where
  escPath := (jsonEscapeString e.escPath m.absolutePath.bytes).1
  escName := (jsonEscapeString e.escName m.fileName.bytes).1
  escUser := (jsonEscapeString e.escUser m.user.bytes).1
  escGroup := (jsonEscapeString e.escGroup m.group.bytes).1

structure EscapedStrings where
  path : Bytes
  name : Bytes
  user : Bytes
  group : Bytes

def EscapeBuffers.strings (e : EscapeBuffers) : Option EscapedStrings :=
  e.escPath.str.bind fun path => e.escName.str.bind fun name => e.escUser.str.bind fun user =>
    e.escGroup.str.map fun group => ⟨path, name, user, group⟩

def databaseText (m : JsonDbMetaData) (e : EscapedStrings) : Bytes :=
  ascii "\x7b\"mode\":\"" ++ paddedNumeral 8 4 m.mode.toNat ++ ascii "\"," ++
    ascii "\"absolute_path\":\"" ++ e.path ++ ascii "\"," ++
    ascii "\"file_name\":\"" ++ e.name ++ ascii "\"," ++
    ascii "\"file_size\":" ++ numeral 10 m.fileSize.toNat ++ ascii "," ++
    ascii "\"cTime\":" ++ signedNumeral m.cTime.toInt ++ ascii "," ++
    ascii "\"bTime\":" ++ signedNumeral m.bTime.toInt ++ ascii "," ++
    ascii "\"user\":\"" ++ e.user ++ ascii "\"," ++
    ascii "\"group\":\"" ++ e.group ++ ascii "\"," ++
    ascii "\"mTime_sec\":" ++ signedNumeral m.mTimeSec.toInt ++ ascii "," ++
    ascii "\"mTime_nsec\":" ++ signedNumeral m.mTimeNsec.toInt ++ ascii "\x7d"

/-- A text, NULL, or a read past the end of one of the arrays. -/
inductive BuildResult where
  | text (b : Bytes)
  | null
  | overrun

/-- One checked snprintf at the end of the text so far. -/
def appendText (bufSize : ℕ) (out s : Bytes) : Option Bytes :=
  if bufSize ≤ out.length + s.length then none else some (out ++ s)

def databasesLoop (bufSize : ℕ) : List JsonDbMetaData → Bool → EscapeBuffers → Bytes → BuildResult
  | [], _, _, out => .text out
  | m :: ms, first, bufs, out =>
    let bufs := bufs.fill m
    match if first then some out else appendText bufSize out (ascii ",") with
    | none => .null
    | some out =>
      match bufs.strings with
      | none => .overrun
      | some e =>
        match appendText bufSize out (databaseText m e) with
        | none => .null
        | some out => databasesLoop bufSize ms false bufs out

def databasesBufSize (count : ℕ) : ℕ := 1024 + count * (pathMax * 2 + 2048)

def databasesOpen : Bytes := ascii "\x7b\"databases\":["
def databasesClose (count : ℕ) : Bytes := ascii "],\"count\":" ++ numeral 10 count ++ ascii "\x7d"

/-- `build_databases_json`, with the arrays as it finds them. -/
def buildDatabasesJson (t : DbMetaTable) (bufs : EscapeBuffers) (mallocOk : Bool) : BuildResult :=
  let bufSize := databasesBufSize t.entries.length
  if mallocOk then
    match databasesLoop bufSize t.entries true bufs databasesOpen with
    | .text out =>
      match appendText bufSize out (databasesClose t.entries.length) with
      | none => .null
      | some out => .text out
    | r => r
  else .null

/-! ### What the text should say -/

def metaJson (m : JsonDbMetaData) : Json := .object
  [(ascii "mode", .string (paddedNumeral 8 4 m.mode.toNat)),
    (ascii "absolute_path", .string m.absolutePath.bytes),
    (ascii "file_name", .string m.fileName.bytes),
    (ascii "file_size", .number m.fileSize.toNat 0),
    (ascii "cTime", .number m.cTime.toInt 0),
    (ascii "bTime", .number m.bTime.toInt 0),
    (ascii "user", .string m.user.bytes),
    (ascii "group", .string m.group.bytes),
    (ascii "mTime_sec", .number m.mTimeSec.toInt 0),
    (ascii "mTime_nsec", .number m.mTimeNsec.toInt 0)]

theorem metaJson_mode (m : JsonDbMetaData) :
    numeralValue 8 (paddedNumeral 8 4 m.mode.toNat) = m.mode.toNat :=
  numeralValue_paddedNumeral 4 m.mode.toNat (by decide) (by decide)

def tableJson (t : DbMetaTable) : Json := .object
  [(ascii "databases", .array (t.entries.map metaJson)),
    (ascii "count", .number t.entries.length 0)]

/-- The text is valid JSON and says exactly what the table holds. -/
def Tells (t : DbMetaTable) (r : BuildResult) : Prop :=
  ∃ b, r = .text b ∧ parseJson b = some (tableJson t)

/-- The four strings of an entry fit into their arrays when they are escaped. -/
structure EscapesFit (m : JsonDbMetaData) : Prop where
  path : (escape m.absolutePath.bytes).length < escPathSize
  name : (escape m.fileName.bytes).length < escNameSize
  user : (escape m.user.bytes).length < escNameSize
  group : (escape m.group.bytes).length < escNameSize

def escapedStrings (m : JsonDbMetaData) : EscapedStrings where
  path := escape m.absolutePath.bytes
  name := escape m.fileName.bytes
  user := escape m.user.bytes
  group := escape m.group.bytes

/-! ### The arrays -/

theorem fill_strings {m : JsonDbMetaData} (h : EscapesFit m) (bufs : EscapeBuffers) :
    (bufs.fill m).strings = some (escapedStrings m) := by
  unfold EscapeBuffers.strings EscapeBuffers.fill
  rw [jsonEscapeString_str _ m.absolutePath.nul_free h.path, Option.bind_some,
    jsonEscapeString_str _ m.fileName.nul_free h.name, Option.bind_some,
    jsonEscapeString_str _ m.user.nul_free h.user, Option.bind_some,
    jsonEscapeString_str _ m.group.nul_free h.group, Option.map_some]
  rfl

/-- What is printed for one string: shorter than the array, and right if it fits. -/
def Printed (size : ℕ) (src b : Bytes) : Prop :=
  b.length < size ∧ ((escape src).length < size → b = escape src)

theorem printed_of_str {n : ℕ} {dst : CharArray n} {src b : Bytes} (h0 : (0 : Byte) ∉ src)
    (h : (jsonEscapeString dst src).1.str = some b) : Printed n src b := by
  refine ⟨CharArray.str_length h, fun hfits => ?_⟩
  rw [jsonEscapeString_str dst h0 hfits] at h
  exact (Option.some.inj h).symm

structure PrintedStrings (m : JsonDbMetaData) (e : EscapedStrings) : Prop where
  path : Printed escPathSize m.absolutePath.bytes e.path
  name : Printed escNameSize m.fileName.bytes e.name
  user : Printed escNameSize m.user.bytes e.user
  group : Printed escNameSize m.group.bytes e.group

theorem fill_printed {m : JsonDbMetaData} {bufs : EscapeBuffers} {e : EscapedStrings}
    (h : (bufs.fill m).strings = some e) : PrintedStrings m e := by
  unfold EscapeBuffers.strings EscapeBuffers.fill at h
  obtain ⟨p, hp, h⟩ := Option.bind_eq_some_iff.mp h
  obtain ⟨n, hn, h⟩ := Option.bind_eq_some_iff.mp h
  obtain ⟨u, hu, h⟩ := Option.bind_eq_some_iff.mp h
  obtain ⟨g, hg, rfl⟩ := Option.map_eq_some_iff.mp h
  exact ⟨printed_of_str m.absolutePath.nul_free hp, printed_of_str m.fileName.nul_free hn,
    printed_of_str m.user.nul_free hu, printed_of_str m.group.nul_free hg⟩

end LocalMarks.Databases

import LocalMarks.Databases.Json

/-!
# Room for the JSON text of the metadata table

The buffer of `build_databases_json` has a share for each entry. Once the strings of an entry fit
into their arrays its object takes less than that, so no snprintf is ever short of room.
-/

namespace LocalMarks.Databases
open LocalMarks.Lib
open LocalMarks.BookmarkCache

/-! ### Printing with offsets -/

/-- The text so far, with the value of `offset` after each snprintf. -/
structure Printing where
  out : Bytes
  offsets : List ℕ

def Printing.append (bufSize : ℕ) (p : Printing) (s : Bytes) : Option Printing :=
  (appendText bufSize p.out s).map fun out => ⟨out, out.length :: p.offsets⟩

/-- The loop over the entries, and what is printed when it ends. -/
def printLoop (bufSize : ℕ) : List JsonDbMetaData → Bool → EscapeBuffers → Printing →
    BuildResult × Printing
  | [], _, _, p => (.text p.out, p)
  | m :: ms, first, bufs, p =>
    let bufs := bufs.fill m
    match if first then some p else p.append bufSize (ascii ",") with
    | none => (.null, p)
    | some p =>
      match bufs.strings with
      | none => (.overrun, p)
      | some e =>
        match p.append bufSize (databaseText m e) with
        | none => (.null, p)
        | some p => printLoop bufSize ms false bufs p

/-- `build_databases_json` on a table of any length, when malloc succeeds. -/
def printDatabases (ms : List JsonDbMetaData) (bufs : EscapeBuffers) : BuildResult × Printing :=
  let bufSize := databasesBufSize ms.length
  match printLoop bufSize ms true bufs ⟨databasesOpen, [databasesOpen.length]⟩ with
  | (.text _, p) =>
    match p.append bufSize (databasesClose ms.length) with
    | none => (.null, p)
    | some p => (.text p.out, p)
  | r => r

theorem Printing.append_out (bufSize : ℕ) (p : Printing) (s : Bytes) :
    appendText bufSize p.out s = (p.append bufSize s).map Printing.out := by
  unfold Printing.append
  rw [Option.map_map]
  exact Option.map_id_apply.symm

theorem printLoop_result (bufSize : ℕ) (ms : List JsonDbMetaData) (first : Bool)
    (bufs : EscapeBuffers) (p : Printing) :
    (printLoop bufSize ms first bufs p).1 = databasesLoop bufSize ms first bufs p.out ∧
      ∀ out, (printLoop bufSize ms first bufs p).1 = .text out →
        (printLoop bufSize ms first bufs p).2.out = out := by
  induction ms generalizing first bufs p with
  | nil => exact ⟨rfl, fun out h => BuildResult.text.inj h⟩
  | cons m ms ih =>
    have hcomma : (if first then some p.out else appendText bufSize p.out (ascii ",")) =
        (if first then some p else p.append bufSize (ascii ",")).map Printing.out := by
      cases first with
      | true => rfl
      | false => exact p.append_out bufSize (ascii ",")
    unfold printLoop databasesLoop
    rw [hcomma]
    cases (if first then some p else p.append bufSize (ascii ",")) with
    | none => exact ⟨rfl, nofun⟩
    | some p =>
      rw [Option.map_some]
      dsimp only
      cases (bufs.fill m).strings with
      | none => exact ⟨rfl, nofun⟩
      | some e =>
        dsimp only
        rw [p.append_out bufSize]
        cases p.append bufSize (databaseText m e) with
        | none => exact ⟨rfl, nofun⟩
        | some p => exact ih false (bufs.fill m) p

theorem printDatabases_result (t : DbMetaTable) (bufs : EscapeBuffers) :
    (printDatabases t.entries bufs).1 = buildDatabasesJson t bufs true := by
  obtain ⟨hloop, hout⟩ := printLoop_result (databasesBufSize t.entries.length) t.entries true bufs
    ⟨databasesOpen, [databasesOpen.length]⟩
  unfold printDatabases buildDatabasesJson
  dsimp only at hloop ⊢
  rw [if_pos rfl, ← hloop]
  generalize hrun : printLoop (databasesBufSize t.entries.length) t.entries true bufs
    ⟨databasesOpen, [databasesOpen.length]⟩ = run at hout ⊢
  obtain ⟨r, p⟩ := run
  cases r with
  | text out =>
    dsimp only
    rw [← hout out rfl, p.append_out]
    cases p.append (databasesBufSize t.entries.length) (databasesClose t.entries.length) with
    | none => rfl
    | some p => rfl
  | null => rfl
  | overrun => rfl

/-! ### Lengths -/

theorem int64_signedNumeral_length (z : Int64) : (signedNumeral z.toInt).length ≤ 20 := by
  have hlo := z.le_toInt
  have hhi := z.toInt_lt
  have hlen : (numeral 10 z.toInt.natAbs).length ≤ 19 :=
    numeral_length_le (by decide) (by decide) (by omega)
  unfold signedNumeral
  split
  · rw [List.length_append, show (ascii "-").length = 1 by decide]
    omega
  · omega

theorem mode_length (mode : UInt32) : (paddedNumeral 8 4 mode.toNat).length ≤ 11 := by
  have hlen : (numeral 8 mode.toNat).length ≤ 11 :=
    numeral_length_le (by decide) (by decide) (by have := mode.toNat_lt; omega)
  rw [paddedNumeral, List.length_append, List.length_replicate]
  omega

theorem databaseText_size (m : JsonDbMetaData) (e : EscapedStrings) :
    (databaseText m e).length = 124 + (paddedNumeral 8 4 m.mode.toNat).length + e.path.length +
      e.name.length + (numeral 10 m.fileSize.toNat).length + (signedNumeral m.cTime.toInt).length +
      (signedNumeral m.bTime.toInt).length + e.user.length + e.group.length +
      (signedNumeral m.mTimeSec.toInt).length + (signedNumeral m.mTimeNsec.toInt).length := by
  have h1 : (ascii "\x7b\"mode\":\"").length = 9 := by decide
  have h2 : (ascii "\"absolute_path\":\"").length = 17 := by decide
  have h3 : (ascii "\"file_name\":\"").length = 13 := by decide
  have h4 : (ascii "\"file_size\":").length = 12 := by decide
  have h5 : (ascii "\"cTime\":").length = 8 := by decide
  have h6 : (ascii "\"bTime\":").length = 8 := by decide
  have h7 : (ascii "\"user\":\"").length = 8 := by decide
  have h8 : (ascii "\"group\":\"").length = 9 := by decide
  have h9 : (ascii "\"mTime_sec\":").length = 12 := by decide
  have h10 : (ascii "\"mTime_nsec\":").length = 13 := by decide
  have hquote : (ascii "\",").length = 2 := by decide
  have hcomma : (ascii ",").length = 1 := by decide
  have hbrace : (ascii "\x7d").length = 1 := by decide
  unfold databaseText
  simp only [List.length_append, h1, h2, h3, h4, h5, h6, h7, h8, h9, h10, hquote, hcomma, hbrace]
  omega

theorem databaseText_length (m : JsonDbMetaData) (e : EscapedStrings) :
    (databaseText m e).length ≤
      e.path.length + e.name.length + e.user.length + e.group.length + 235 := by
  have hmode := mode_length m.mode
  have hsize : (numeral 10 m.fileSize.toNat).length ≤ 20 :=
    numeral_length_le (by decide) (by decide) (by have := m.fileSize.toNat_lt; omega)
  have hctime := int64_signedNumeral_length m.cTime
  have hbtime := int64_signedNumeral_length m.bTime
  have hsec := int64_signedNumeral_length m.mTimeSec
  have hnsec := int64_signedNumeral_length m.mTimeNsec
  rw [databaseText_size]
  omega

/-- The bytes of the buffer that are set aside for one entry. -/
def entryShare : ℕ := pathMax * 2 + 2048

theorem entryShare_eq : entryShare = 10240 := by decide

theorem databaseText_share {m : JsonDbMetaData} (h : EscapesFit m) :
    (databaseText m (escapedStrings m)).length + 2 ≤ entryShare := by
  have hlen := databaseText_length m (escapedStrings m)
  have hpath : (escapedStrings m).path.length < 8192 := h.path
  have hname : (escapedStrings m).name.length < 512 := h.name
  have huser : (escapedStrings m).user.length < 512 := h.user
  have hgroup : (escapedStrings m).group.length < 512 := h.group
  rw [entryShare_eq]
  omega

theorem appendText_room {size : ℕ} {out : Bytes} (s : Bytes) (h : out.length + s.length < size) :
    appendText size out s = some (out ++ s) := if_neg (by omega)

/-! ### Room -/

def Printing.Below (p : Printing) (bufSize : ℕ) : Prop := ∀ o ∈ p.offsets, o < bufSize

theorem Printing.append_room {bufSize : ℕ} {p : Printing} (h : p.Below bufSize) (s : Bytes)
    (hroom : p.out.length + s.length < bufSize) :
    ∃ p', p.append bufSize s = some p' ∧ p'.Below bufSize ∧
      p'.out.length = p.out.length + s.length := by
  have hlen : (p.out ++ s).length = p.out.length + s.length := List.length_append
  refine ⟨⟨p.out ++ s, (p.out ++ s).length :: p.offsets⟩, ?_, ?_, hlen⟩
  · rw [Printing.append, appendText_room s hroom, Option.map_some]
  · intro o ho
    rcases List.mem_cons.mp ho with rfl | ho
    · rwa [hlen]
    · exact h o ho

theorem printLoop_room {bufSize : ℕ} {ms : List JsonDbMetaData} (first : Bool)
    (bufs : EscapeBuffers) {p : Printing} (hfit : ∀ m ∈ ms, EscapesFit m) (h : p.Below bufSize)
    (hroom : p.out.length + ms.length * (entryShare - 1) < bufSize) :
    ∃ p', printLoop bufSize ms first bufs p = (.text p'.out, p') ∧ p'.Below bufSize ∧
      p'.out.length ≤ p.out.length + ms.length * (entryShare - 1) := by
  induction ms generalizing first bufs p with
  | nil => exact ⟨p, rfl, h, Nat.le_add_right _ _⟩
  | cons m ms ih =>
    have hm := hfit m (List.mem_cons_self ..)
    have hlen := databaseText_share hm
    rw [List.length_cons, Nat.succ_mul] at *
    -- the comma and the object both fit
    have hcomma : ∃ p1, (if first then some p else p.append bufSize (ascii ",")) = some p1 ∧
        p1.Below bufSize ∧ p1.out.length ≤ p.out.length + 1 := by
      cases first with
      | true => exact ⟨p, rfl, h, Nat.le_succ _⟩
      | false =>
        have h1 : (ascii ",").length = 1 := by decide
        obtain ⟨p1, hp1, hbelow, hlen1⟩ := p.append_room h (ascii ",") (by omega)
        exact ⟨p1, hp1, hbelow, by omega⟩
    obtain ⟨p1, hp1, hbelow1, hlen1⟩ := hcomma
    obtain ⟨p2, hp2, hbelow2, hlen2⟩ :=
      p1.append_room hbelow1 (databaseText m (escapedStrings m)) (by omega)
    obtain ⟨p', hrun, hbelow, hlen'⟩ := ih false (bufs.fill m)
      (fun x hx => hfit x (List.mem_cons_of_mem m hx)) hbelow2 (by omega)
    refine ⟨p', ?_, hbelow, by omega⟩
    unfold printLoop
    rw [hp1]
    dsimp only
    rw [fill_strings hm]
    dsimp only
    rw [hp2]
    exact hrun

theorem databasesClose_length (count : ℕ) : (databasesClose count).length ≤ count + 12 := by
  have hlen : (numeral 10 count).length ≤ count + 1 := by
    apply numeral_length_le (by decide) (Nat.succ_pos count)
    exact Nat.lt_trans (Nat.lt_succ_self count) (Nat.lt_pow_self (by decide))
  have hkey : (ascii "],\"count\":").length = 10 := by decide
  have hbrace : (ascii "\x7d").length = 1 := by decide
  unfold databasesClose
  rw [List.length_append, List.length_append, hkey, hbrace]
  omega

theorem escapesFit_iff (m : JsonDbMetaData) (bufs : EscapeBuffers) : EscapesFit m ↔
    (jsonEscapeString bufs.escPath m.absolutePath.bytes).2.isSome ∧
      (jsonEscapeString bufs.escName m.fileName.bytes).2.isSome ∧
      (jsonEscapeString bufs.escUser m.user.bytes).2.isSome ∧
      (jsonEscapeString bufs.escGroup m.group.bytes).2.isSome := by
  rw [jsonEscapeString_isSome, jsonEscapeString_isSome, jsonEscapeString_isSome,
    jsonEscapeString_isSome]
  exact ⟨fun h => ⟨h.path, h.name, h.user, h.group⟩, fun ⟨h1, h2, h3, h4⟩ => ⟨h1, h2, h3, h4⟩⟩

theorem printDatabases_room {ms : List JsonDbMetaData} (bufs : EscapeBuffers)
    (hfit : ∀ m ∈ ms, EscapesFit m) :
    (printDatabases ms bufs).2.Below (databasesBufSize ms.length) ∧
      ∃ b, (printDatabases ms bufs).1 = .text b := by
  have hopen : databasesOpen.length = 14 := by decide
  have hclose := databasesClose_length ms.length
  have hsize : databasesBufSize ms.length = 1024 + ms.length * 10240 := rfl
  have hstart : Printing.Below ⟨databasesOpen, [databasesOpen.length]⟩
      (databasesBufSize ms.length) := by
    intro o ho
    rw [List.mem_singleton.mp ho]
    omega
  obtain ⟨p, hrun, hbelow, hlen⟩ := printLoop_room true bufs hfit hstart
    (show databasesOpen.length + _ < _ by rw [entryShare_eq]; omega)
  rw [entryShare_eq] at hlen
  dsimp only at hlen
  obtain ⟨p', hp', hbelow', -⟩ := p.append_room hbelow (databasesClose ms.length) (by omega)
  unfold printDatabases
  dsimp only
  rw [hrun]
  dsimp only
  rw [hp']
  exact ⟨hbelow', _, rfl⟩

/-- Whatever the number of entries, if the strings of each are escaped successfully the offset
stays inside the buffer at every step and a text is returned. -/
theorem databases_offsets_below (ms : List JsonDbMetaData) (bufs : EscapeBuffers)
    (hfit : ∀ m ∈ ms, EscapesFit m) :
    (∀ o ∈ (printDatabases ms bufs).2.offsets, o < databasesBufSize ms.length) ∧
      ∃ b, (printDatabases ms bufs).1 = .text b :=
  printDatabases_room bufs hfit

def zeroArray (n : ℕ) : CharArray n := ⟨List.replicate n 0, List.length_replicate⟩

def zeroBuffers : EscapeBuffers := ⟨zeroArray _, zeroArray _, zeroArray _, zeroArray _⟩

def marksFile (path : Bytes) : JsonDbMetaData where
  mode := 420
  absolutePath := fieldOf pathMax pathMax_pos path
  fileName := fieldOf nameFieldSize nameFieldSize_pos (ascii "marks.json")
  fileSize := 2
  cTime := -1
  bTime := 0
  user := fieldOf nameFieldSize nameFieldSize_pos (ascii "root")
  group := fieldOf nameFieldSize nameFieldSize_pos (ascii "root")
  mTimeSec := 0
  mTimeNsec := 0

theorem marksFile_fits : EscapesFit (marksFile (ascii "/marks.json")) ∧
    EscapesFit (marksFile (ascii "/more/marks.json")) :=
  ⟨⟨by decide +kernel, by decide +kernel, by decide +kernel, by decide +kernel⟩,
    ⟨by decide +kernel, by decide +kernel, by decide +kernel, by decide +kernel⟩⟩

def twoMarks : List JsonDbMetaData :=
  [marksFile (ascii "/marks.json"), marksFile (ascii "/more/marks.json")]

theorem databases_offsets_below_marks :
    (∀ o ∈ (printDatabases twoMarks zeroBuffers).2.offsets, o < databasesBufSize 2) ∧
    ∃ b, (printDatabases twoMarks zeroBuffers).1 = .text b := by
  refine databases_offsets_below twoMarks zeroBuffers fun m hm => ?_
  rcases List.mem_cons.mp hm with rfl | hm
  · exact marksFile_fits.1
  · rw [List.mem_singleton.mp hm]
    exact marksFile_fits.2

end LocalMarks.Databases

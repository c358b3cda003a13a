import LocalMarks.Databases.Telling

/-!
# The JSON text of one database (databases_meta.c)

`build_database_json` prints one object of the list into a buffer of its own, which is much smaller
than the share that an entry has in the list.
-/

namespace LocalMarks.Databases
open LocalMarks.Lib
open LocalMarks.BookmarkCache

def databaseBufSize : ℕ := 1024

/-- `build_database_json`, with the arrays as it finds them. -/
def buildDatabaseJson (t : DbMetaTable) (index : ℤ) (bufs : EscapeBuffers) (mallocOk : Bool) :
    BuildResult :=
  if index < 0 ∨ (t.entries.length : ℤ) ≤ index then .null
  else
    match t.entries[index.toNat]? with
    | none => .null
    | some m =>
      if mallocOk then
        match (bufs.fill m).strings with
        | none => .overrun
        | some e =>
          let text := databaseText m e
          if databaseBufSize ≤ text.length then .null else .text text
      else .null

/-- The elements of the array `databases`, as they stand in the text. -/
def databasesElements (b : Bytes) : List Bytes :=
  if databasesOpen.isPrefixOf b then elementTexts b.length (b.drop databasesOpen.length) else []

/-- Both texts are returned, and the one of the database is its element of the list. -/
def SingleAgrees (t : DbMetaTable) (i : Fin t.entries.length) (listBufs bufs : EscapeBuffers) :
    Prop :=
  ∃ b text, buildDatabasesJson t listBufs true = .text b ∧
    buildDatabaseJson t i.val bufs true = .text text ∧ (databasesElements b)[i.val]? = some text

/-! ### The list -/

theorem readValue_printed (m : JsonDbMetaData) {c : Byte} (t : Bytes) :
    readValue ((databaseText m (escapedStrings m) ++ c :: t).length + 1)
      (databaseText m (escapedStrings m) ++ c :: t) = some (metaJson m, c :: t) := by
  have hsize := databaseText_size m (escapedStrings m)
  obtain ⟨n, hn⟩ : ∃ n, (databaseText m (escapedStrings m) ++ c :: t).length + 1 = n + 12 := by
    refine ⟨(databaseText m (escapedStrings m) ++ c :: t).length + 1 - 12, ?_⟩
    rw [List.length_append]
    omega
  rw [hn, readValue_databaseText]

theorem elementTexts_body {n : ℕ} {m : JsonDbMetaData} {ms : List JsonDbMetaData} {body : Bytes}
    (hfit : ∀ x ∈ m :: ms, EscapesFit x) (h : Body true (m :: ms) body) (t : Bytes) :
    elementTexts (n + ms.length + 1) (body ++ 93 :: t) =
      (m :: ms).map fun x => databaseText x (escapedStrings x) := by
  induction ms generalizing m body with
  | nil =>
    cases h with
    | first hp hrest =>
      cases hrest
      rw [hp.eq_escaped (hfit m (List.mem_cons_self ..)), List.append_nil]
      exact elementTexts_last (readValue_printed m t)
  | cons m' ms ih =>
    cases h with
    | first hp hrest =>
      cases hrest with
      | @next _ _ e' rest' hp' hrest' =>
        have hmore := elementTexts_more (n := n + ms.length + 1)
          (readValue_printed m (c := 44) (databaseText m' e' ++ rest' ++ 93 :: t))
        rw [ih (fun x hx => hfit x (List.mem_cons_of_mem m hx)) (.first hp' hrest')] at hmore
        rw [hp.eq_escaped (hfit m (List.mem_cons_self ..)), List.append_assoc, List.cons_append]
        exact hmore

theorem databasesElements_eq {t : DbMetaTable} {bufs : EscapeBuffers} {b : Bytes}
    (hfit : ∀ m ∈ t.entries, EscapesFit m) (hne : t.entries ≠ [])
    (h : buildDatabasesJson t bufs true = .text b) :
    databasesElements b = t.entries.map fun m => databaseText m (escapedStrings m) := by
  obtain ⟨body, hbody, rfl⟩ := buildDatabasesJson_text h
  obtain ⟨m, ms, hms⟩ := List.exists_cons_of_ne_nil hne
  rw [hms] at hfit hbody ⊢
  have hcount := hbody.length
  obtain ⟨rest, hclose⟩ : ∃ rest, databasesClose (m :: ms).length = 93 :: rest := ⟨_, rfl⟩
  unfold databasesElements
  rw [List.append_assoc, if_pos (List.isPrefixOf_iff_prefix.mpr (List.prefix_append _ _)),
    List.drop_left, hclose]
  have hle : ms.length + 1 ≤ (databasesOpen ++ (body ++ 93 :: rest)).length := by
    rw [List.length_cons] at hcount
    rw [List.length_append, List.length_append]
    omega
  obtain ⟨n, hn⟩ := Nat.exists_eq_add_of_le' hle
  rw [hn]
  exact elementTexts_body hfit hbody rest

/-! ### One entry -/

/-- The length of the object, from its strings and numbers. -/
def databaseTextSize (m : JsonDbMetaData) : ℕ :=
  124 + (paddedNumeral 8 4 m.mode.toNat).length + (escape m.absolutePath.bytes).length +
    (escape m.fileName.bytes).length + (numeral 10 m.fileSize.toNat).length +
    (signedNumeral m.cTime.toInt).length + (signedNumeral m.bTime.toInt).length +
    (escape m.user.bytes).length + (escape m.group.bytes).length +
    (signedNumeral m.mTimeSec.toInt).length + (signedNumeral m.mTimeNsec.toInt).length

theorem buildDatabaseJson_eq {t : DbMetaTable} {i : ℕ} {m : JsonDbMetaData}
    (hi : t.entries[i]? = some m) (hfit : EscapesFit m) (bufs : EscapeBuffers) :
    buildDatabaseJson t i bufs true =
      if databaseTextSize m < databaseBufSize then .text (databaseText m (escapedStrings m))
      else .null := by
  have hlt := (List.getElem?_eq_some_iff.mp hi).1
  have hsize : (databaseText m (escapedStrings m)).length = databaseTextSize m :=
    databaseText_size m (escapedStrings m)
  unfold buildDatabaseJson
  rw [if_neg (by omega), Int.toNat_natCast, hi]
  dsimp only
  rw [if_pos rfl, fill_strings hfit]
  dsimp only
  rw [hsize]
  by_cases hroom : databaseTextSize m < databaseBufSize
  · rw [if_pos hroom, if_neg (Nat.not_le.mpr hroom)]
  · rw [if_neg hroom, if_pos (Nat.not_lt.mp hroom)]

/-- The object of one database is its element of the list exactly if it is shorter than the 1024
bytes of its own buffer; in the list there is room for it whatever its length. -/
theorem singleAgrees_iff (t : DbMetaTable) (hfit : ∀ m ∈ t.entries, EscapesFit m)
    (i : Fin t.entries.length) (listBufs bufs : EscapeBuffers) :
    SingleAgrees t i listBufs bufs ↔ databaseTextSize t.entries[i] < 1024 := by
  have hi : t.entries[i.val]? = some t.entries[i] := List.getElem?_eq_getElem i.isLt
  have hsingle := buildDatabaseJson_eq hi (hfit _ (List.getElem_mem i.isLt)) bufs
  have hne : t.entries ≠ [] := List.length_pos_iff.mp (Nat.lt_of_le_of_lt (Nat.zero_le _) i.isLt)
  constructor
  · rintro ⟨b, text, -, htext, -⟩
    rw [hsingle] at htext
    split at htext
    · rename_i hroom
      exact hroom
    · cases htext
  · intro hroom
    obtain ⟨-, b, hb⟩ := printDatabases_room listBufs hfit
    rw [printDatabases_result] at hb
    refine ⟨b, _, hb, hsingle.trans (if_pos hroom), ?_⟩
    rw [databasesElements_eq hfit hne hb, List.getElem?_map, hi, Option.map_some]

def oneTable (path : Bytes) : DbMetaTable := ⟨[marksFile path], Nat.succ_pos 9⟩

theorem singleAgrees_marks :
    SingleAgrees (oneTable (ascii "/marks.json")) ⟨0, Nat.one_pos⟩ zeroBuffers zeroBuffers ↔
      databaseTextSize (marksFile (ascii "/marks.json")) < 1024 :=
  singleAgrees_iff (oneTable (ascii "/marks.json")) (by
    intro m hm
    rw [List.mem_singleton.mp hm]
    exact marksFile_fits.1) ⟨0, Nat.one_pos⟩ zeroBuffers zeroBuffers

/-- The list has the object of a file with a path of a thousand bytes, but it is not printed
alone. -/
theorem thousand_not_single :
    (∀ m ∈ (oneTable (List.replicate 1000 97)).entries, EscapesFit m) ∧
      ¬ SingleAgrees (oneTable (List.replicate 1000 97)) ⟨0, Nat.one_pos⟩ zeroBuffers
        zeroBuffers := by
  have hfit : EscapesFit (marksFile (List.replicate 1000 97)) :=
    ⟨by decide +kernel, by decide +kernel, by decide +kernel, by decide +kernel⟩
  have hsize : ¬ databaseTextSize (marksFile (List.replicate 1000 97)) < databaseBufSize := by
    decide +kernel
  constructor
  · intro m hm
    rw [List.mem_singleton.mp hm]
    exact hfit
  · rintro ⟨b, text, -, htext, -⟩
    rw [buildDatabaseJson_eq (m := marksFile (List.replicate 1000 97)) rfl hfit, if_neg hsize]
      at htext
    cases htext

end LocalMarks.Databases

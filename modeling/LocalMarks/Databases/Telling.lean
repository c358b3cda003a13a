import LocalMarks.Databases.Decode
import LocalMarks.Databases.Offsets

/-!
# When the JSON text of the metadata table is right
-/

namespace LocalMarks.Databases
open LocalMarks.Lib
open LocalMarks.BookmarkCache

/-! ### Reading the document -/

def documentText (body : Bytes) (count : ℕ) : Bytes :=
  34 :: (escape (ascii "databases") ++ 34 :: 58 :: 91 :: (body ++ 93 :: 44 ::
    numberMember (ascii "count") count [125]))

theorem document_eq (body : Bytes) (count : ℕ) :
    databasesOpen ++ body ++ databasesClose count = 123 :: documentText body count := by
  have hopen : databasesOpen = 123 :: 34 :: (escape (ascii "databases") ++ [34, 58, 91]) := by
    decide
  have hclose : ascii "],\"count\":" = 93 :: 44 :: 34 :: (escape (ascii "count") ++ [34, 58]) := by
    decide
  have hbrace : ascii "\x7d" = [125] := by decide
  unfold databasesClose documentText numberMember
  rw [hopen, hclose, hbrace, signedNumeral_natCast]
  simp only [List.append_assoc, List.cons_append, List.nil_append]

theorem readValue_document (n : ℕ) (body : Bytes) (count : ℕ) :
    readValue (n + 1) (123 :: documentText body count) =
      (readMembers n (documentText body count)).map fun (ms, r) => (.object ms, r) :=
  readValue_object n (by decide) (by decide) _

theorem parseJson_document {body : Bytes} {count n : ℕ} {vs : List Json}
    (hn : (documentText body count).length = n + 3)
    (hv : readValue (n + 3) (91 :: (body ++ 93 :: 44 :: numberMember (ascii "count") count [125])) =
      some (.array vs, 44 :: numberMember (ascii "count") count [125])) :
    parseJson (databasesOpen ++ body ++ databasesClose count) =
      some (.object [(ascii "databases", .array vs), (ascii "count", .number count 0)]) := by
  have hmembers : readMembers (n + 4) (documentText body count) =
      some ([(ascii "databases", .array vs), (ascii "count", .number count 0)], []) := by
    unfold documentText
    rw [readMembers_more hv, readMembers_numberMember_last, Option.map_some]
  rw [document_eq, parseJson, List.length_cons, hn, readValue_document, hmembers]
  rfl

theorem readValue_of_parseJson {body : Bytes} {count n : ℕ} {v : Json} {c : Bytes × Json}
    (hn : (documentText body count).length = n + 3)
    (h : parseJson (databasesOpen ++ body ++ databasesClose count) =
      some (.object [(ascii "databases", v), c])) : ∃ r,
      readValue (n + 3) (91 :: (body ++ 93 :: 44 :: numberMember (ascii "count") count [125])) =
        some (v, r) := by
  rw [document_eq, parseJson, List.length_cons, hn, readValue_document] at h
  obtain ⟨⟨j, r⟩, hread, h⟩ := Option.bind_eq_some_iff.mp h
  dsimp only at h
  split at h
  · cases h
    obtain ⟨⟨ms, r'⟩, hms, heq⟩ := Option.map_eq_some_iff.mp hread
    cases heq
    exact readMembers_key_inv hms
  · cases h

/-! ### The whole text -/

theorem escapesFit_of_elements {n : ℕ} {m : JsonDbMetaData} {ms : List JsonDbMetaData}
    {body t r : Bytes} (hbody : Body true (m :: ms) body)
    (h : readElements (n + ms.length + 13) (body ++ 93 :: t) =
      some ((m :: ms).map metaJson, r)) : ∀ x ∈ m :: ms, EscapesFit x := by
  induction ms generalizing m body with
  | nil =>
    cases hbody with
    | first hp hrest =>
      rw [List.append_assoc] at h
      obtain ⟨r', hv⟩ := readElements_inv h
      intro x hx
      rw [List.mem_singleton.mp hx]
      exact escapesFit_of_read (n := n + 0) hp hv
  | cons m' ms ih =>
    cases hbody with
    | @first _ _ e rest hp hrest =>
      rw [List.append_assoc] at h
      obtain ⟨r', hv⟩ := readElements_inv h
      have hm := escapesFit_of_read (n := n + ms.length + 1) hp hv
      cases hrest with
      | @next _ _ e' rest' hp' hrest' =>
        have hvalue := readValue_databaseText (n + ms.length + 1) m
          (44 :: (databaseText m' e' ++ rest' ++ 93 :: t))
        rw [← hp.eq_escaped hm] at hvalue
        have helements := readElements_more hvalue
        rw [List.cons_append] at h
        have htail := cons_inv (helements.symm.trans h)
        intro x hx
        rcases List.mem_cons.mp hx with rfl | hx
        · exact hm
        · exact ih (.first hp' hrest') htail x hx

theorem Body.length {first : Bool} {ms : List JsonDbMetaData} {body : Bytes}
    (h : Body first ms body) : ms.length ≤ body.length := by
  have hobject : ∀ m e, 1 ≤ (databaseText m e).length := by
    intro m e
    have := congrArg List.length (databaseText_append m e [])
    rw [List.append_nil, List.length_cons] at this
    omega
  induction h with
  | nil => exact le_rfl
  | @first m ms e rest _ _ ih =>
    have := hobject m e
    rw [List.length_cons, List.length_append]
    omega
  | @next m ms e rest _ _ ih =>
    have := hobject m e
    rw [List.length_cons, List.length_cons, List.length_append]
    omega

theorem readValue_body (n : ℕ) {m : JsonDbMetaData} {ms : List JsonDbMetaData} {body : Bytes}
    (h : Body true (m :: ms) body) (t : Bytes) : readValue (n + 1) (91 :: (body ++ t)) =
      (readElements n (body ++ t)).map fun (vs, r) => (.array vs, r) := by
  cases h with
  | @first _ _ e rest _ _ =>
    rw [List.append_assoc, databaseText_append]
    exact readValue_array n (by decide) (by decide) _

theorem documentText_length (body : Bytes) (count : ℕ) :
    ∃ n, (documentText body count).length = n + body.length + 14 := by
  have hkey : (escape (ascii "databases")).length = 9 := by decide
  unfold documentText numberMember
  simp only [List.length_cons, List.length_append, List.length_nil, hkey]
  exact ⟨(escape (ascii "count")).length + (signedNumeral count).length + 5, by omega⟩

theorem buildDatabasesJson_text {t : DbMetaTable} {bufs : EscapeBuffers} {b : Bytes}
    (h : buildDatabasesJson t bufs true = .text b) : ∃ body, Body true t.entries body ∧
      b = databasesOpen ++ body ++ databasesClose t.entries.length := by
  unfold buildDatabasesJson at h
  rw [if_pos rfl] at h
  cases hloop : databasesLoop (databasesBufSize t.entries.length) t.entries true bufs
    databasesOpen with
  | text out =>
    rw [hloop] at h
    obtain ⟨body, rfl, hbody⟩ := databasesLoop_body hloop
    dsimp only at h
    split at h
    · cases h
    · rename_i out' hout
      cases h
      exact ⟨body, hbody, appendText_some hout⟩
  | null =>
    rw [hloop] at h
    cases h
  | overrun =>
    rw [hloop] at h
    cases h

theorem escapesFit_of_tells {t : DbMetaTable} {bufs : EscapeBuffers}
    (h : Tells t (buildDatabasesJson t bufs true)) : ∀ m ∈ t.entries, EscapesFit m := by
  obtain ⟨b, hb, hparse⟩ := h
  obtain ⟨body, hbody, rfl⟩ := buildDatabasesJson_text hb
  obtain ⟨n, hn⟩ := documentText_length body t.entries.length
  have hcount := hbody.length
  unfold tableJson at hparse
  cases hentries : t.entries with
  | nil => nofun
  | cons m ms =>
    rw [hentries] at hbody hparse hn hcount
    rw [List.length_cons] at hcount
    obtain ⟨k, hk⟩ : ∃ k, n + body.length + 14 = k + ms.length + 11 + 3 :=
      ⟨n + body.length - ms.length, by omega⟩
    obtain ⟨r, hread⟩ := readValue_of_parseJson (hn.trans hk) hparse
    rw [readValue_body _ hbody] at hread
    obtain ⟨⟨vs, r'⟩, helements, heq⟩ := Option.map_eq_some_iff.mp hread
    cases heq
    exact escapesFit_of_elements hbody helements

theorem tells_of_escapesFit {t : DbMetaTable} (bufs : EscapeBuffers)
    (h : ∀ m ∈ t.entries, EscapesFit m) : Tells t (buildDatabasesJson t bufs true) := by
  obtain ⟨-, b, hb⟩ := printDatabases_room bufs h
  rw [printDatabases_result] at hb
  obtain ⟨body, hbody, rfl⟩ := buildDatabasesJson_text hb
  refine ⟨_, hb, ?_⟩
  obtain ⟨n, hn⟩ := documentText_length body t.entries.length
  unfold tableJson
  cases hentries : t.entries with
  | nil =>
    rw [hentries] at hbody hn
    cases hbody
    exact parseJson_document (n := n + 11) hn (readValue_emptyArray _ _)
  | cons m ms =>
    have hcount := hbody.length
    rw [hentries] at hbody h hn hcount
    rw [List.length_cons] at hcount
    obtain ⟨k, hk⟩ : ∃ k, n + body.length + 14 = k + ms.length + 11 + 3 :=
      ⟨n + body.length - ms.length, by omega⟩
    apply parseJson_document (hn.trans hk)
    rw [readValue_body _ hbody, readElements_body h hbody]
    rfl

/-- The JSON text of the metadata table is valid and says what the table holds, whatever the
arrays on the stack held before, exactly when the strings of all entries fit into these arrays
once they are escaped. -/
theorem databases_json_iff (t : DbMetaTable) (bufs : EscapeBuffers) :
    Tells t (buildDatabasesJson t bufs true) ↔ ∀ m ∈ t.entries, EscapesFit m :=
  ⟨escapesFit_of_tells, tells_of_escapesFit bufs⟩

def controlName : JsonDbMetaData where
  mode := 420
  absolutePath := fieldOf pathMax pathMax_pos (ascii "/marks.json")
  fileName := fieldOf nameFieldSize nameFieldSize_pos (List.replicate 86 1)
  fileSize := 2
  cTime := 0
  bTime := 0
  user := fieldOf nameFieldSize nameFieldSize_pos (ascii "root")
  group := fieldOf nameFieldSize nameFieldSize_pos (ascii "root")
  mTimeSec := 0
  mTimeNsec := 0

theorem controlName_untold : ¬ Tells ⟨[controlName], by decide⟩ (buildDatabasesJson
    ⟨[controlName], by decide⟩ ⟨zeroArray _, zeroArray _, zeroArray _, zeroArray _⟩ true) := by
  intro h
  have hname := (escapesFit_of_tells h controlName (List.mem_singleton_self _)).name
  have hlen : (escape controlName.fileName.bytes).length = 516 := by decide +kernel
  rw [hlen] at hname
  exact absurd hname (by decide)

end LocalMarks.Databases

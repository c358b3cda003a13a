import LocalMarks.Databases.Json

/-!
# What the JSON text of the metadata table says

The text is read back member by member. A string that did not fit into its array is printed
shorter than any JSON text of it, so the reader does not find it.
-/

namespace LocalMarks.Databases
open LocalMarks.Lib
open LocalMarks.BookmarkCache

theorem escape_isDigit {s : Bytes} (h : ∀ c ∈ s, isDigit c = true) : escape s = s := by
  induction s with
  | nil => rfl
  | cons c cs ih =>
    have hc := h c (List.mem_cons_self ..)
    have hne : ∀ d : Byte, isDigit d = false → c ≠ d := by
      rintro d hd rfl
      exact absurd (hc.symm.trans hd) (by decide)
    have hplain : escapeByte c = [c] := by
      apply escapeByte_plain
      · unfold isDigit at hc
        simp only [Bool.and_eq_true, decide_eq_true_eq, UInt8.le_iff_toNat_le] at hc
        rw [UInt8.lt_iff_toNat_lt]
        have h48 : (48 : Byte).toNat = 48 := rfl
        have h32 : (32 : Byte).toNat = 32 := rfl
        omega
      · exact hne 34 (by decide)
      · exact hne 92 (by decide)
    rw [escape_cons, hplain, ih fun d hd => h d (List.mem_cons_of_mem _ hd), List.singleton_append]

theorem escape_paddedNumeral (n : ℕ) : escape (paddedNumeral 8 4 n) = paddedNumeral 8 4 n := by
  apply escape_isDigit
  intro c hc
  rcases List.mem_append.mp hc with hc | hc
  · rw [(List.mem_replicate.mp hc).2]
    decide
  · exact numeral_isDigit n (by decide) (by decide) c hc

theorem signedNumeral_natCast (n : ℕ) : signedNumeral n = numeral 10 n := by
  rw [signedNumeral, if_neg (by omega), Int.natAbs_natCast]

/-! ### One database -/

def fromTimes (m : JsonDbMetaData) (t : Bytes) : Bytes :=
  numberMember (ascii "mTime_sec") m.mTimeSec.toInt
    (44 :: numberMember (ascii "mTime_nsec") m.mTimeNsec.toInt (125 :: t))

def fromUser (m : JsonDbMetaData) (e : EscapedStrings) (t : Bytes) : Bytes :=
  stringMember (ascii "user") e.user (44 :: stringMember (ascii "group") e.group
    (44 :: fromTimes m t))

def fromSize (m : JsonDbMetaData) (e : EscapedStrings) (t : Bytes) : Bytes :=
  numberMember (ascii "file_size") m.fileSize.toNat (44 :: numberMember (ascii "cTime")
    m.cTime.toInt (44 :: numberMember (ascii "bTime") m.bTime.toInt (44 :: fromUser m e t)))

def fromMode (m : JsonDbMetaData) (e : EscapedStrings) (t : Bytes) : Bytes :=
  stringMember (ascii "mode") (escape (paddedNumeral 8 4 m.mode.toNat))
    (44 :: stringMember (ascii "absolute_path") e.path
      (44 :: stringMember (ascii "file_name") e.name (44 :: fromSize m e t)))

theorem databaseText_append (m : JsonDbMetaData) (e : EscapedStrings) (t : Bytes) :
    databaseText m e ++ t = 123 :: fromMode m e t := by
  have h1 : ascii "\x7b\"mode\":\"" = 123 :: 34 :: (escape (ascii "mode") ++ [34, 58, 34]) := by
    decide
  have h2 : ascii "\"absolute_path\":\"" =
      34 :: (escape (ascii "absolute_path") ++ [34, 58, 34]) := by decide
  have h3 : ascii "\"file_name\":\"" = 34 :: (escape (ascii "file_name") ++ [34, 58, 34]) := by
    decide
  have h4 : ascii "\"file_size\":" = 34 :: (escape (ascii "file_size") ++ [34, 58]) := by decide
  have h5 : ascii "\"cTime\":" = 34 :: (escape (ascii "cTime") ++ [34, 58]) := by decide
  have h6 : ascii "\"bTime\":" = 34 :: (escape (ascii "bTime") ++ [34, 58]) := by decide
  have h7 : ascii "\"user\":\"" = 34 :: (escape (ascii "user") ++ [34, 58, 34]) := by decide
  have h8 : ascii "\"group\":\"" = 34 :: (escape (ascii "group") ++ [34, 58, 34]) := by decide
  have h9 : ascii "\"mTime_sec\":" = 34 :: (escape (ascii "mTime_sec") ++ [34, 58]) := by decide
  have h10 : ascii "\"mTime_nsec\":" = 34 :: (escape (ascii "mTime_nsec") ++ [34, 58]) := by
    decide
  have hquote : ascii "\"," = [34, 44] := by decide
  have hcomma : ascii "," = [44] := by decide
  have hbrace : ascii "\x7d" = [125] := by decide
  unfold databaseText fromMode fromSize fromUser fromTimes stringMember numberMember
  rw [h1, h2, h3, h4, h5, h6, h7, h8, h9, h10, hquote, hcomma, hbrace, escape_paddedNumeral,
    signedNumeral_natCast]
  simp only [List.append_assoc, List.cons_append, List.nil_append]

theorem fromTimes_starts (m : JsonDbMetaData) (t : Bytes) : StartsMember (fromTimes m t) :=
  startsMember_number ⟨109, ascii "Time_sec", by decide⟩ ..

theorem fromSize_starts (m : JsonDbMetaData) (e : EscapedStrings) (t : Bytes) :
    StartsMember (fromSize m e t) :=
  startsMember_number ⟨102, ascii "ile_size", by decide⟩ ..

theorem readMembers_fromTimes (n : ℕ) (m : JsonDbMetaData) (t : Bytes) :
    readMembers (n + 3) (fromTimes m t) =
      some ([(ascii "mTime_sec", .number m.mTimeSec.toInt 0),
        (ascii "mTime_nsec", .number m.mTimeNsec.toInt 0)], t) := by
  rw [fromTimes, readMembers_numberMember, readMembers_numberMember_last, Option.map_some]

theorem readMembers_fromSize (n : ℕ) (m : JsonDbMetaData) (e : EscapedStrings) (t : Bytes) :
    readMembers (n + 8) (fromSize m e t) =
      (readMembers (n + 5) (fromUser m e t)).map fun (ms, r) =>
        ((ascii "file_size", .number m.fileSize.toNat 0) ::
          (ascii "cTime", .number m.cTime.toInt 0) ::
          (ascii "bTime", .number m.bTime.toInt 0) :: ms, r) := by
  rw [fromSize, readMembers_numberMember, readMembers_numberMember, readMembers_numberMember,
    Option.map_map, Option.map_map]
  rfl

theorem readValue_fromMode (n : ℕ) (m : JsonDbMetaData) (e : EscapedStrings) (t : Bytes) :
    readValue (n + 12) (databaseText m e ++ t) =
      (readMembers (n + 11) (fromMode m e t)).map fun (ms, r) => (.object ms, r) := by
  rw [databaseText_append]
  exact readValue_object (n + 11) (by decide) (by decide) _

theorem readValue_databaseText (n : ℕ) (m : JsonDbMetaData) (t : Bytes) :
    readValue (n + 12) (databaseText m (escapedStrings m) ++ t) = some (metaJson m, t) := by
  have huser : readMembers (n + 5) (fromUser m (escapedStrings m) t) =
      some ([(ascii "user", .string m.user.bytes), (ascii "group", .string m.group.bytes),
        (ascii "mTime_sec", .number m.mTimeSec.toInt 0),
        (ascii "mTime_nsec", .number m.mTimeNsec.toInt 0)], t) := by
    unfold fromUser escapedStrings
    rw [readMembers_stringMember, readMembers_stringMember, readMembers_fromTimes, Option.map_some,
      Option.map_some]
  rw [readValue_fromMode, fromMode]
  unfold escapedStrings at *
  rw [readMembers_stringMember, readMembers_stringMember, readMembers_stringMember,
    readMembers_fromSize, huser]
  rfl

/-- The object is read back as it should be only if the strings fit. -/
theorem escapesFit_of_read {n : ℕ} {m : JsonDbMetaData} {e : EscapedStrings} {t r : Bytes}
    (hp : PrintedStrings m e) (h : readValue (n + 12) (databaseText m e ++ t) =
      some (metaJson m, r)) : EscapesFit m := by
  have hname_key : KeyText (ascii "file_name") := ⟨102, ascii "ile_name", by decide⟩
  have hgroup_key : KeyText (ascii "group") := ⟨103, ascii "roup", by decide⟩
  rw [readValue_fromMode] at h
  obtain ⟨⟨ms, r'⟩, hms, heq⟩ := Option.map_eq_some_iff.mp h
  cases heq
  rw [fromMode, readMembers_stringMember] at hms
  obtain ⟨hpath, hms⟩ := readMembers_printed hp.path.1 hp.path.2
    (startsMember_string hname_key ..) (cons_inv hms)
  obtain ⟨hname, hms⟩ := readMembers_printed hp.name.1 hp.name.2
    (fromSize_starts m e t) hms
  rw [readMembers_fromSize] at hms
  obtain ⟨⟨ms, r'⟩, hms, heq⟩ := Option.map_eq_some_iff.mp hms
  cases heq
  rw [fromUser] at hms
  obtain ⟨huser, hms⟩ := readMembers_printed hp.user.1 hp.user.2
    (startsMember_string hgroup_key ..) hms
  obtain ⟨hgroup, _⟩ := readMembers_printed hp.group.1 hp.group.2
    (fromTimes_starts m t) hms
  exact ⟨hpath, hname, huser, hgroup⟩

theorem PrintedStrings.eq_escaped {m : JsonDbMetaData} {e : EscapedStrings}
    (hp : PrintedStrings m e) (h : EscapesFit m) : e = escapedStrings m := by
  obtain ⟨path, name, user, group⟩ := e
  unfold escapedStrings
  rw [← hp.path.2 h.path, ← hp.name.2 h.name, ← hp.user.2 h.user, ← hp.group.2 h.group]

/-! ### The entries -/

/-- What the loop prints, from the first entry on or after another one. -/
inductive Body : Bool → List JsonDbMetaData → Bytes → Prop where
  | nil (first : Bool) : Body first [] []
  | first {m : JsonDbMetaData} {ms : List JsonDbMetaData} {e : EscapedStrings} {rest : Bytes}
      (hp : PrintedStrings m e) (hrest : Body false ms rest) :
      Body true (m :: ms) (databaseText m e ++ rest)
  | next {m : JsonDbMetaData} {ms : List JsonDbMetaData} {e : EscapedStrings} {rest : Bytes}
      (hp : PrintedStrings m e) (hrest : Body false ms rest) :
      Body false (m :: ms) (44 :: (databaseText m e ++ rest))

theorem appendText_some {size : ℕ} {out s out' : Bytes} (h : appendText size out s = some out') :
    out' = out ++ s := by
  unfold appendText at h
  split at h
  · cases h
  · exact (Option.some.inj h).symm

theorem databasesLoop_body {size : ℕ} {ms : List JsonDbMetaData} {first : Bool}
    {bufs : EscapeBuffers} {out out' : Bytes}
    (h : databasesLoop size ms first bufs out = .text out') :
    ∃ body, out' = out ++ body ∧ Body first ms body := by
  induction ms generalizing first bufs out with
  | nil =>
    cases h
    exact ⟨[], (List.append_nil _).symm, .nil first⟩
  | cons m ms ih =>
    rw [databasesLoop] at h
    split at h
    · cases h
    · rename_i out1 hcomma
      split at h
      · cases h
      · rename_i e he
        split at h
        · cases h
        · rename_i out2 htext
          obtain ⟨rest, hout, hrest⟩ := ih h
          rw [appendText_some htext] at hout
          have hp := fill_printed he
          cases first with
          | true =>
            obtain rfl : out = out1 := Option.some.inj hcomma
            refine ⟨databaseText m e ++ rest, ?_, .first hp hrest⟩
            rw [hout, List.append_assoc]
          | false =>
            rw [appendText_some hcomma] at hout
            refine ⟨44 :: (databaseText m e ++ rest), ?_, .next hp hrest⟩
            rw [hout, List.append_assoc, List.append_assoc]
            exact congrArg (out ++ ·) List.singleton_append

theorem readElements_body {n : ℕ} {m : JsonDbMetaData} {ms : List JsonDbMetaData} {body t : Bytes}
    (hfit : ∀ x ∈ m :: ms, EscapesFit x) (h : Body true (m :: ms) body) :
    readElements (n + ms.length + 13) (body ++ 93 :: t) = some ((m :: ms).map metaJson, t) := by
  induction ms generalizing m body with
  | nil =>
    cases h with
    | first hp hrest =>
      cases hrest
      rw [hp.eq_escaped (hfit m (List.mem_cons_self ..)), List.append_nil]
      exact readElements_last (readValue_databaseText (n + 0) m (93 :: t))
  | cons m' ms ih =>
    cases h with
    | first hp hrest =>
      cases hrest with
      | @next _ _ e' rest' hp' hrest' =>
        have hvalue := readValue_databaseText (n + ms.length + 1) m
          (44 :: (databaseText m' e' ++ rest' ++ 93 :: t))
        rw [hp.eq_escaped (hfit m (List.mem_cons_self ..)), List.append_assoc, List.cons_append]
        have helements := readElements_more hvalue
        rw [ih (fun x hx => hfit x (List.mem_cons_of_mem m hx)) (.first hp' hrest')] at helements
        exact helements

end LocalMarks.Databases

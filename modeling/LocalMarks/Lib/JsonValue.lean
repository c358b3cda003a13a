import LocalMarks.Lib.JsonString

/-!
# Values in JSON texts

How the reader takes a text apart that was put together from the texts of its values.
-/

namespace LocalMarks.Lib

/-! ### Writing numbers -/

theorem digitsValue_numeral (n : ℕ) : digitsValue (numeral 10 n) = n :=
  numeralValue_numeral n (by decide) le_rfl

theorem isDigit_digitChar {d : ℕ} (h : d < 10) : isDigit (digitChar d) = true := by
  have hall : ∀ d < 10, isDigit (digitChar d) = true := by decide
  exact hall d h

theorem numeral_isDigit {base : ℕ} (n : ℕ) (hb : 1 < base) (hb' : base ≤ 10) :
    ∀ c ∈ numeral base n, isDigit c = true := by
  have hzero : ∀ c ∈ ascii "0", isDigit c = true := by decide +kernel
  intro c hc
  unfold numeral at hc
  split at hc
  · exact hzero c hc
  · obtain ⟨d, hd, rfl⟩ := List.mem_map.mp hc
    have := Nat.digits_lt_base hb (List.mem_reverse.mp hd)
    exact isDigit_digitChar (by omega)

theorem decimal_isDigit (n : ℕ) : ∀ c ∈ numeral 10 n, isDigit c = true :=
  numeral_isDigit n (by decide) le_rfl

theorem numeral_ne_nil (n : ℕ) : numeral 10 n ≠ [] := by
  unfold numeral
  split
  · decide
  · rename_i h
    simpa using Nat.digits_ne_nil_iff_ne_zero.mpr h

theorem numeral_head {n : ℕ} (h : (numeral 10 n).head? = some 48) : (numeral 10 n).length = 1 := by
  unfold numeral at *
  split
  · rfl
  · rename_i hn
    rw [if_neg hn, List.head?_map, List.head?_reverse] at h
    obtain ⟨d, hd, hchar⟩ := Option.map_eq_some_iff.mp h
    have hne : Nat.digits 10 n ≠ [] := Nat.digits_ne_nil_iff_ne_zero.mpr hn
    rw [List.getLast?_eq_some_getLast hne] at hd
    have hlast := Nat.getLast_digit_ne_zero 10 hn
    have hlt := Nat.digits_lt_base (b := 10) (by decide) (List.getLast_mem hne)
    rw [Option.some.inj hd] at hlast hlt
    have hval := digitChar_toNat (show d < 16 by omega)
    rw [if_pos hlt, hchar] at hval
    have h48 : (48 : Byte).toNat = 48 := rfl
    omega

/-- A byte after a number that does not belong to it. -/
def EndsNumber (c : Byte) : Prop := isDigit c = false ∧ c ≠ 46 ∧ c ≠ 101 ∧ c ≠ 69

theorem readDigits_numeral (n : ℕ) {c : Byte} (hc : isDigit c = false) (t : Bytes) :
    readDigits (numeral 10 n ++ c :: t) = some (numeral 10 n, c :: t) := by
  have htake : (numeral 10 n ++ c :: t).takeWhile isDigit = numeral 10 n := by
    rw [List.takeWhile_append_of_pos (decimal_isDigit n), List.takeWhile_cons, hc,
      if_neg Bool.false_ne_true, List.append_nil]
  have hdrop : (numeral 10 n ++ c :: t).dropWhile isDigit = c :: t := by
    rw [List.dropWhile_append_of_pos (decimal_isDigit n), List.dropWhile_cons, hc,
      if_neg Bool.false_ne_true]
  unfold readDigits
  dsimp only
  rw [htake, hdrop, if_neg (numeral_ne_nil n)]

theorem readNumber_signedNumeral (z : ℤ) {c : Byte} (hc : EndsNumber c) (t : Bytes) :
    readNumber (signedNumeral z ++ c :: t) = some (.number z 0, c :: t) := by
  obtain ⟨hdigit, hdot, he, hE⟩ := hc
  have hlead : ¬ ((numeral 10 z.natAbs).head? = some 48 ∧ (numeral 10 z.natAbs).length ≠ 1) :=
    fun h => h.2 (numeral_head h.1)
  have hfraction : readFraction (c :: t) = some ([], c :: t) := by
    unfold readFraction
    rw [List.head?_cons, if_neg fun h => hdot (Option.some.inj h)]
  have hexponent : readExponent (c :: t) = some (0, c :: t) := by
    unfold readExponent
    rw [List.head?_cons, if_neg]
    rintro (h | h)
    · exact he (Option.some.inj h)
    · exact hE (Option.some.inj h)
  have hvalue : (digitsValue (numeral 10 z.natAbs ++ []) : ℤ) = z.natAbs := by
    rw [List.append_nil, digitsValue_numeral]
  unfold readNumber signedNumeral
  dsimp only
  by_cases hz : z < 0
  · rw [if_pos hz, List.append_assoc]
    show (readDigits (numeral 10 z.natAbs ++ c :: t)).bind _ = _
    rw [readDigits_numeral _ hdigit, Option.bind_some]
    dsimp only
    rw [if_neg hlead, hfraction, Option.bind_some]
    dsimp only
    rw [hexponent, Option.map_some, hvalue]
    have hneg : (ascii "-" ++ (numeral 10 z.natAbs ++ c :: t)).head? = some 45 := rfl
    rw [if_pos hneg]
    simp only [List.length_nil, Nat.cast_zero, sub_zero, Option.some.injEq, Prod.mk.injEq,
      Json.number.injEq, and_true]
    omega
  · rw [if_neg hz]
    have hpos : (numeral 10 z.natAbs ++ c :: t).head? ≠ some 45 := by
      intro h
      rw [List.head?_append_of_ne_nil _ (numeral_ne_nil _)] at h
      have := decimal_isDigit _ 45 (List.mem_of_head? h)
      exact absurd this (by decide)
    rw [if_neg hpos, readDigits_numeral _ hdigit, Option.bind_some]
    dsimp only
    rw [if_neg hlead, hfraction, Option.bind_some]
    dsimp only
    rw [hexponent, Option.map_some, hvalue, if_neg hpos]
    simp only [List.length_nil, Nat.cast_zero, sub_zero, Option.some.injEq, Prod.mk.injEq,
      Json.number.injEq, and_true]
    omega

/-! ### Writing values -/

theorem expect_self {c : Byte} (hc : isJsonSpace c = false) (t : Bytes) :
    expect c (c :: t) = some t := by
  unfold expect skipSpace
  rw [List.dropWhile_cons, hc, if_neg Bool.false_ne_true]
  exact if_pos rfl

theorem expect_other {c d : Byte} (hd : isJsonSpace d = false) (hne : d ≠ c) (t : Bytes) :
    expect c (d :: t) = none := by
  unfold expect skipSpace
  rw [List.dropWhile_cons, hd, if_neg Bool.false_ne_true]
  exact if_neg fun h => hne (Option.some.inj h)

theorem readValue_quote (n : ℕ) (t : Bytes) :
    readValue (n + 1) (34 :: t) = (readStringValue t).map fun (v, r) => (.string v, r) := rfl

theorem readValue_string (n : ℕ) (s t : Bytes) :
    readValue (n + 1) (34 :: (escape s ++ 34 :: t)) = some (.string s, t) := by
  rw [readValue_quote, readStringValue_escape]
  rfl

theorem readValue_atom {n : ℕ} {c : Byte} (hc : isDigit c = true ∨ c = 45) (t : Bytes) :
    readValue (n + 1) (c :: t) = readNumber (c :: t) := by
  have hne : ∀ d : Byte, isDigit d = false → d ≠ 45 → c ≠ d := by
    rintro d hd h45 rfl
    rcases hc with hc | hc
    · exact absurd (hc.symm.trans hd) (by decide)
    · exact h45 hc
  have hspace : isJsonSpace c = false := by
    simp [isJsonSpace, hne 32 (by decide) (by decide), hne 9 (by decide) (by decide),
      hne 10 (by decide) (by decide), hne 13 (by decide) (by decide)]
  have hword : ∀ (d : Byte) (w : Bytes), isDigit d = false → d ≠ 45 →
      ¬ (d :: w).isPrefixOf (c :: t) = true := by
    intro d w hd h45 h
    rw [List.isPrefixOf_iff_prefix] at h
    exact hne d hd h45 (List.cons_prefix_cons.mp h).1.symm
  rw [readValue, skipSpace, List.dropWhile_cons, hspace, if_neg Bool.false_ne_true]
  dsimp only
  rw [if_neg (hne 34 (by decide) (by decide)), if_neg (hne 91 (by decide) (by decide)),
    if_neg (hne 123 (by decide) (by decide)), readAtom]
  rw [show ascii "true" = 116 :: ascii "rue" from rfl,
    show ascii "false" = 102 :: ascii "alse" from rfl,
    show ascii "null" = 110 :: ascii "ull" from rfl,
    if_neg (hword 116 _ (by decide) (by decide)), if_neg (hword 102 _ (by decide) (by decide)),
    if_neg (hword 110 _ (by decide) (by decide))]

theorem readValue_number (n : ℕ) (z : ℤ) {c : Byte} (hc : EndsNumber c) (t : Bytes) :
    readValue (n + 1) (signedNumeral z ++ c :: t) = some (.number z 0, c :: t) := by
  rw [← readNumber_signedNumeral z hc]
  obtain ⟨d, ds, hd, hz⟩ : ∃ d ds, (isDigit d = true ∨ d = 45) ∧ signedNumeral z = d :: ds := by
    unfold signedNumeral
    split
    · exact ⟨45, _, Or.inr rfl, rfl⟩
    · obtain ⟨d, ds, hds⟩ := List.exists_cons_of_ne_nil (numeral_ne_nil z.natAbs)
      exact ⟨d, ds, Or.inl (decimal_isDigit _ d (hds ▸ List.mem_cons_self ..)), hds⟩
  rw [hz]
  exact readValue_atom hd _

theorem readMembers_key {n : ℕ} {k t r : Bytes} {v : Json} (hv : readValue n t = some (v, r)) :
    readMembers (n + 1) (34 :: (escape k ++ 34 :: 58 :: t)) =
      match expect 44 r with
      | some r => (readMembers n r).map fun (ms, r) => ((k, v) :: ms, r)
      | none => (expect 125 r).map fun r => ([(k, v)], r) := by
  rw [readMembers, expect_self (by decide), Option.bind_some, readStringValue_escape,
    Option.bind_some]
  dsimp only
  rw [expect_self (by decide), Option.bind_some, hv]
  rfl

theorem readMembers_more {n : ℕ} {k t r : Bytes} {v : Json}
    (hv : readValue n t = some (v, 44 :: r)) :
    readMembers (n + 1) (34 :: (escape k ++ 34 :: 58 :: t)) =
      (readMembers n r).map fun (ms, r) => ((k, v) :: ms, r) := by
  rw [readMembers_key hv, expect_self (by decide)]

theorem readMembers_last {n : ℕ} {k t r : Bytes} {v : Json}
    (hv : readValue n t = some (v, 125 :: r)) :
    readMembers (n + 1) (34 :: (escape k ++ 34 :: 58 :: t)) = some ([(k, v)], r) := by
  rw [readMembers_key hv, expect_other (by decide) (by decide), expect_self (by decide)]
  rfl

theorem readElements_more {n : ℕ} {t r : Bytes} {v : Json}
    (hv : readValue n t = some (v, 44 :: r)) :
    readElements (n + 1) t = (readElements n r).map fun (vs, r) => (v :: vs, r) := by
  rw [readElements, hv, Option.bind_some]
  dsimp only
  rw [expect_self (by decide)]

theorem readElements_last {n : ℕ} {t r : Bytes} {v : Json}
    (hv : readValue n t = some (v, 93 :: r)) : readElements (n + 1) t = some ([v], r) := by
  rw [readElements, hv, Option.bind_some]
  dsimp only
  rw [expect_other (by decide) (by decide), expect_self (by decide)]
  rfl

/-- The string member of an object is no shorter than the text between its quotes allows, when
another member follows. -/
theorem readMembers_string_length {n : ℕ} {k b t r s : Bytes} {c : Byte} {ms : List (Bytes × Json)}
    (hspace : isJsonSpace c = false) (hcomma : c ≠ 44) (hbrace : c ≠ 125)
    (h : readMembers (n + 1)
        (34 :: (escape k ++ 34 :: 58 :: 34 :: (b ++ 34 :: 44 :: 34 :: c :: t))) =
      some ((k, .string s) :: ms, r)) : (escape s).length ≤ b.length := by
  rw [readMembers, expect_self (by decide), Option.bind_some, readStringValue_escape,
    Option.bind_some] at h
  dsimp only at h
  rw [expect_self (by decide), Option.bind_some] at h
  obtain ⟨⟨v, r'⟩, hv, h⟩ := Option.bind_eq_some_iff.mp h
  cases n with
  | zero => cases hv
  | succ n =>
    rw [readValue_quote] at hv
    obtain ⟨⟨s', r''⟩, hs, heq⟩ := Option.map_eq_some_iff.mp hv
    cases heq
    dsimp only at h
    rcases readString_quote hs with hlen | rfl
    · -- the value that was read is the value of the member
      obtain rfl : s' = s := by
        split at h
        · obtain ⟨⟨ms', r3⟩, _, heq⟩ := Option.map_eq_some_iff.mp h
          cases heq
          rfl
        · obtain ⟨r3, _, heq⟩ := Option.map_eq_some_iff.mp h
          cases heq
          rfl
      exact hlen
    · rw [expect_other hspace hcomma, expect_other hspace hbrace] at h
      cases h

theorem readMembers_key_inv {n : ℕ} {k k' t r : Bytes} {v : Json} {ms : List (Bytes × Json)}
    (h : readMembers (n + 1) (34 :: (escape k ++ 34 :: 58 :: t)) = some ((k', v) :: ms, r)) :
    ∃ r', readValue n t = some (v, r') := by
  cases hv : readValue n t with
  | none =>
    rw [readMembers, expect_self (by decide), Option.bind_some, readStringValue_escape,
      Option.bind_some] at h
    dsimp only at h
    rw [expect_self (by decide), Option.bind_some, hv] at h
    cases h
  | some p =>
    obtain ⟨v', r'⟩ := p
    rw [readMembers_key hv] at h
    split at h
    · obtain ⟨⟨ms', r''⟩, _, heq⟩ := Option.map_eq_some_iff.mp h
      cases heq
      exact ⟨r', rfl⟩
    · obtain ⟨r'', _, heq⟩ := Option.map_eq_some_iff.mp h
      cases heq
      exact ⟨r', rfl⟩

theorem readElements_inv {n : ℕ} {t r : Bytes} {v : Json} {vs : List Json}
    (h : readElements (n + 1) t = some (v :: vs, r)) : ∃ r', readValue n t = some (v, r') := by
  rw [readElements] at h
  obtain ⟨⟨v', r'⟩, hv, h⟩ := Option.bind_eq_some_iff.mp h
  dsimp only at h
  split at h
  · obtain ⟨⟨vs', r''⟩, _, heq⟩ := Option.map_eq_some_iff.mp h
    cases heq
    exact ⟨r', hv⟩
  · obtain ⟨r'', _, heq⟩ := Option.map_eq_some_iff.mp h
    cases heq
    exact ⟨r', hv⟩

theorem cons_inv {α : Type} {o : Option (List α × Bytes)} {a b : α} {l : List α} {r : Bytes}
    (h : o.map (fun (l, r) => (a :: l, r)) = some (b :: l, r)) : o = some (l, r) := by
  obtain ⟨⟨l', r'⟩, ho, heq⟩ := Option.map_eq_some_iff.mp h
  cases heq
  exact ho

theorem readValue_object (n : ℕ) {c : Byte} (hc : isJsonSpace c = false) (hne : c ≠ 125)
    (t : Bytes) : readValue (n + 1) (123 :: c :: t) =
      (readMembers n (c :: t)).map fun (ms, r) => (.object ms, r) := by
  rw [readValue]
  show (match expect 125 (c :: t) with
    | some r => some (Json.object [], r)
    | none => (readMembers n (c :: t)).map fun (ms, r) => (.object ms, r)) = _
  rw [expect_other hc hne]

theorem readValue_array (n : ℕ) {c : Byte} (hc : isJsonSpace c = false) (hne : c ≠ 93)
    (t : Bytes) : readValue (n + 1) (91 :: c :: t) =
      (readElements n (c :: t)).map fun (vs, r) => (.array vs, r) := by
  rw [readValue]
  show (match expect 93 (c :: t) with
    | some r => some (Json.array [], r)
    | none => (readElements n (c :: t)).map fun (vs, r) => (.array vs, r)) = _
  rw [expect_other hc hne]

theorem readValue_emptyArray (n : ℕ) (t : Bytes) :
    readValue (n + 1) (91 :: 93 :: t) = some (.array [], t) := rfl

/-! ### Members -/

/-- The member `k` with the string whose text is `b`, and what follows it. -/
def stringMember (k b t : Bytes) : Bytes := 34 :: (escape k ++ 34 :: 58 :: 34 :: (b ++ 34 :: t))

/-- The member `k` with a number, and what follows it. -/
def numberMember (k : Bytes) (z : ℤ) (t : Bytes) : Bytes :=
  34 :: (escape k ++ 34 :: 58 :: (signedNumeral z ++ t))

theorem readMembers_stringMember (n : ℕ) (k s t : Bytes) :
    readMembers (n + 2) (stringMember k (escape s) (44 :: t)) =
      (readMembers (n + 1) t).map fun (ms, r) => ((k, .string s) :: ms, r) :=
  readMembers_more (readValue_string n s (44 :: t))

theorem readMembers_numberMember (n : ℕ) (k : Bytes) (z : ℤ) (t : Bytes) :
    readMembers (n + 2) (numberMember k z (44 :: t)) =
      (readMembers (n + 1) t).map fun (ms, r) => ((k, .number z 0) :: ms, r) :=
  readMembers_more (readValue_number n z (by unfold EndsNumber; decide) t)

theorem readMembers_numberMember_last (n : ℕ) (k : Bytes) (z : ℤ) (t : Bytes) :
    readMembers (n + 2) (numberMember k z (125 :: t)) = some ([(k, .number z 0)], t) :=
  readMembers_last (readValue_number n z (by unfold EndsNumber; decide) t)

/-- A text that starts the next member of an object. -/
def StartsMember (t : Bytes) : Prop :=
  ∃ c t', t = 34 :: c :: t' ∧ isJsonSpace c = false ∧ c ≠ 44 ∧ c ≠ 125

/-- The text of a key that starts with something else than a blank, a comma or a brace. -/
def KeyText (k : Bytes) : Prop :=
  ∃ c t, escape k = c :: t ∧ isJsonSpace c = false ∧ c ≠ 44 ∧ c ≠ 125

theorem startsMember_string {k : Bytes} (hk : KeyText k) (b t : Bytes) :
    StartsMember (stringMember k b t) := by
  obtain ⟨c, t', hkey, hc⟩ := hk
  refine ⟨c, t' ++ 34 :: 58 :: 34 :: (b ++ 34 :: t), ?_, hc⟩
  rw [stringMember, hkey]
  rfl

theorem startsMember_number {k : Bytes} (hk : KeyText k) (z : ℤ) (t : Bytes) :
    StartsMember (numberMember k z t) := by
  obtain ⟨c, t', hkey, hc⟩ := hk
  refine ⟨c, t' ++ 34 :: 58 :: (signedNumeral z ++ t), ?_, hc⟩
  rw [numberMember, hkey]
  rfl

/-- A string member printed into less than `size` bytes is the string only if its text has less
than `size` bytes. If it is printed as it should be then, the reader goes on behind it. -/
theorem readMembers_printed {n size : ℕ} {k b s t r : Bytes} {ms : List (Bytes × Json)}
    (hsize : b.length < size) (hfits : (escape s).length < size → b = escape s)
    (ht : StartsMember t)
    (h : readMembers (n + 2) (stringMember k b (44 :: t)) = some ((k, .string s) :: ms, r)) :
    (escape s).length < size ∧ readMembers (n + 1) t = some (ms, r) := by
  obtain ⟨c, t', rfl, hspace, hcomma, hbrace⟩ := ht
  have hlen := readMembers_string_length hspace hcomma hbrace h
  have hlt : (escape s).length < size := by omega
  refine ⟨hlt, ?_⟩
  rw [hfits hlt, readMembers_stringMember] at h
  exact cons_inv h

/-! ### Elements as they are written -/

/-- The texts of the elements of an array, from behind its bracket on. -/
def elementTexts : ℕ → Bytes → List Bytes
  | 0, _ => []
  | n + 1, s =>
    match readValue (s.length + 1) s with
    | none => []
    | some (_, r) =>
      s.take (s.length - r.length) ::
        match expect 44 r with
        | none => []
        | some r => elementTexts n r

theorem elementTexts_cut (b r : Bytes) : (b ++ r).take ((b ++ r).length - r.length) = b := by
  rw [List.length_append, Nat.add_sub_cancel]
  exact List.take_left

theorem elementTexts_more {n : ℕ} {b t : Bytes} {v : Json}
    (hv : readValue ((b ++ 44 :: t).length + 1) (b ++ 44 :: t) = some (v, 44 :: t)) :
    elementTexts (n + 1) (b ++ 44 :: t) = b :: elementTexts n t := by
  rw [elementTexts, hv]
  dsimp only
  rw [elementTexts_cut, expect_self (by decide)]

theorem elementTexts_last {n : ℕ} {b t : Bytes} {v : Json}
    (hv : readValue ((b ++ 93 :: t).length + 1) (b ++ 93 :: t) = some (v, 93 :: t)) :
    elementTexts (n + 1) (b ++ 93 :: t) = [b] := by
  rw [elementTexts, hv]
  dsimp only
  rw [elementTexts_cut, expect_other (by decide) (by decide)]

end LocalMarks.Lib

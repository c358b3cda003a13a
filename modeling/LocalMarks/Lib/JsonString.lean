import LocalMarks.Lib.JsonText
import Mathlib.Data.List.DropRight

/-!
# Strings in JSON texts

The shortest text of a string, what it is read back as, and that nothing shorter is read back
as the same string.
-/

namespace LocalMarks.Lib

def shortEscape (c : Byte) : Option Byte :=
  if c = 34 then some 34
  else if c = 92 then some 92
  else if c = 8 then some 98
  else if c = 12 then some 102
  else if c = 10 then some 110
  else if c = 13 then some 114
  else if c = 9 then some 116
  else none

def escapeByte (c : Byte) : Bytes :=
  match shortEscape c with
  | some e => [92, e]
  | none => if c < 32 then 92 :: 117 :: paddedNumeral 16 4 c.toNat else [c]

/-- The shortest JSON text of a string, without its quotes. -/
def escape (s : Bytes) : Bytes := s.flatMap escapeByte

theorem escape_cons (c : Byte) (s : Bytes) : escape (c :: s) = escapeByte c ++ escape s := rfl

theorem escape_append (s t : Bytes) : escape (s ++ t) = escape s ++ escape t :=
  List.flatMap_append

theorem shortEscape_letter {c e : Byte} (h : shortEscape c = some e) :
    e ≠ 117 ∧ escapeLetter e = some c := by
  unfold shortEscape at h
  repeat' split at h
  all_goals first
    | cases h
      rename_i hc
      rw [hc]
      decide
    | cases h

theorem hexQuad_append {s t : Bytes} {n : ℕ} (r : Bytes) (h : hexQuad s = some (n, t)) :
    hexQuad (s ++ r) = some (n, t ++ r) := by
  match s with
  | a :: b :: c :: d :: s =>
    unfold hexQuad at h
    simp only [List.cons_append, hexQuad]
    obtain ⟨a, ha, h⟩ := Option.bind_eq_some_iff.mp h
    obtain ⟨b, hb, h⟩ := Option.bind_eq_some_iff.mp h
    obtain ⟨c, hc, h⟩ := Option.bind_eq_some_iff.mp h
    obtain ⟨d, hd, h⟩ := Option.map_eq_some_iff.mp h
    cases h
    simp only [ha, hb, hc, hd, Option.bind_some, Option.map_some]
  | [] | [_] | [_, _] | [_, _, _] => cases h

theorem hexQuad_control {c : Byte} (h : c < 32) :
    hexQuad (paddedNumeral 16 4 c.toNat) = some (c.toNat, []) := by
  have hall : ∀ n < 32, hexQuad (paddedNumeral 16 4 n) = some (n, []) := by decide
  exact hall c.toNat (UInt8.lt_iff_toNat_lt.mp h)

theorem readUnit_escapeByte (c : Byte) (r : Bytes) :
    readUnit (escapeByte c ++ r) = some ([c], r) := by
  unfold escapeByte
  split
  · rename_i e he
    obtain ⟨hne, hletter⟩ := shortEscape_letter he
    simp only [List.cons_append, List.nil_append, readUnit, if_true, readEscape, if_neg hne,
      hletter, Option.map_some]
  · rename_i hshort
    have h34 : c ≠ 34 := by
      rintro rfl
      cases hshort
    have h92 : c ≠ 92 := by
      rintro rfl
      cases hshort
    split
    · rename_i hc
      have hlt := UInt8.lt_iff_toNat_lt.mp hc
      have hquad := hexQuad_append r (hexQuad_control hc)
      have hlow : c.toNat < 32 := hlt
      simp only [List.cons_append, readUnit, readEscape, if_true, readUnicode, hquad,
        Option.bind_some]
      rw [if_neg (by omega), if_neg (by omega), utf8, if_pos (by omega), UInt8.ofNat_toNat,
        List.nil_append]
    · rename_i hc
      simp only [List.cons_append, List.nil_append, readUnit, if_neg h92]
      rw [if_neg (not_or.mpr ⟨hc, h34⟩)]

theorem escapeByte_head (c : Byte) (r : Bytes) : (escapeByte c ++ r).head? ≠ some 34 := by
  have hread := readUnit_escapeByte c r
  intro h
  obtain ⟨t, ht⟩ := List.head?_eq_some_iff.mp h
  rw [ht] at hread
  cases hread

theorem readString_escape {n : ℕ} {s : Bytes} (h : s.length < n) (r : Bytes) :
    readString n (escape s ++ 34 :: r) = some (s, r) := by
  induction s generalizing n with
  | nil =>
    obtain ⟨m, rfl⟩ := Nat.exists_eq_succ_of_ne_zero (by omega : n ≠ 0)
    rfl
  | cons c cs ih =>
    obtain ⟨m, rfl⟩ := Nat.exists_eq_succ_of_ne_zero (by omega : n ≠ 0)
    rw [List.length_cons] at h
    rw [escape_cons, List.append_assoc, readString, if_neg (escapeByte_head c _),
      readUnit_escapeByte, Option.bind_some]
    dsimp only
    rw [ih (by omega), Option.map_some]
    rfl

/-! ### No raw character -/

theorem escapeByte_printable (c : Byte) : ∀ d ∈ escapeByte c, 32 ≤ d := by
  have hall : ∀ c, (escapeByte c).all (fun d => decide (32 ≤ d)) = true := by
    apply every_byte
    decide +kernel
  intro d hd
  exact of_decide_eq_true (List.all_eq_true.mp (hall c) d hd)

theorem escape_printable (s : Bytes) : ∀ c ∈ escape s, 32 ≤ c := by
  intro c hc
  obtain ⟨d, -, hd⟩ := List.mem_flatMap.mp hc
  exact escapeByte_printable d c hd

/-- The only byte whose text has a quote, and the only one whose text ends in a backslash. -/
theorem escapeByte_quote : ∀ c, 34 ∈ escapeByte c → c = 34 := by
  apply every_byte
  decide +kernel

theorem escapeByte_last : ∀ c, c ≠ 92 → ∃ d ∈ (escapeByte c).getLast?, d ≠ 92 := by
  apply every_byte
  decide +kernel

theorem escape_concat (s : Bytes) (c : Byte) : escape (s ++ [c]) = escape s ++ escapeByte c := by
  rw [escape_append, escape_cons]
  exact congrArg _ (List.append_nil _)

theorem escape_backslashes (s : Bytes) : ((escape s).rtakeWhile (· == 92)).length % 2 = 0 := by
  induction s using List.reverseRecOn with
  | nil => rfl
  | append_singleton s c ih =>
    rw [escape_concat]
    by_cases hc : c = 92
    · have hpair : escape s ++ escapeByte c = escape s ++ [92] ++ [92] := by
        rw [hc, List.append_assoc]
        rfl
      rw [hpair, List.rtakeWhile_concat_pos _ _ _ rfl, List.rtakeWhile_concat_pos _ _ _ rfl,
        List.length_append, List.length_append, List.length_singleton]
      omega
    · obtain ⟨d, hd, hne⟩ := escapeByte_last c hc
      obtain ⟨front, hfront⟩ := List.getLast?_eq_some_iff.mp hd
      rw [hfront, ← List.append_assoc, List.rtakeWhile_concat_neg _ _ _ (by simpa using hne)]
      rfl

/-- Every quote in an escaped text is escaped: an odd number of backslashes stands before it. -/
theorem escape_quote {s before after : Bytes} (h : escape s = before ++ 34 :: after) :
    (before.rtakeWhile (· == 92)).length % 2 = 1 := by
  induction s using List.reverseRecOn generalizing after with
  | nil => exact absurd h (List.append_ne_nil_of_right_ne_nil _ (List.cons_ne_nil _ _)).symm
  | append_singleton s c ih =>
    rw [escape_concat] at h
    rcases List.append_eq_append_iff.mp h with ⟨mid, hbefore, hmid⟩ | ⟨mid, hs, hafter⟩
    · have hc : c = 34 := escapeByte_quote c (hmid ▸ by simp)
      have hpair : [92, 34] = mid ++ 34 :: after := by
        rw [← hmid, hc]
        rfl
      match mid, hpair with
      | [b], hpair =>
        cases hpair
        have heven := escape_backslashes s
        rw [hbefore, List.rtakeWhile_concat_pos _ _ _ rfl, List.length_append,
          List.length_singleton]
        omega
      | b :: b' :: rest, hpair => cases rest <;> cases hpair
    · cases mid with
      | nil =>
        rw [List.nil_append] at hafter
        have hc : c = 34 := escapeByte_quote c (hafter ▸ List.mem_cons_self ..)
        rw [hc] at hafter
        cases hafter
      | cons b rest =>
        obtain ⟨rfl, -⟩ := List.cons.inj hafter
        exact ih hs

/-! ### Nothing shorter is read back -/

theorem escapeByte_length (c : Byte) : (escapeByte c).length ≤ 6 := by
  unfold escapeByte
  split
  · exact (by decide : 2 ≤ 6)
  · split
    · rename_i hc
      have hall : ∀ n < 32, (92 :: 117 :: paddedNumeral 16 4 n).length ≤ 6 := by decide
      exact hall c.toNat (UInt8.lt_iff_toNat_lt.mp hc)
    · exact (by decide : 1 ≤ 6)

theorem shortEscape_none {c : Byte} (h32 : ¬ c < 32) (h34 : c ≠ 34) (h92 : c ≠ 92) :
    shortEscape c = none := by
  have hcontrol : ∀ d : Byte, d < 32 → c ≠ d := fun d hd hc => h32 (hc ▸ hd)
  unfold shortEscape
  rw [if_neg h34, if_neg h92, if_neg (hcontrol 8 (by decide)), if_neg (hcontrol 12 (by decide)),
    if_neg (hcontrol 10 (by decide)), if_neg (hcontrol 13 (by decide)),
    if_neg (hcontrol 9 (by decide))]

theorem escapeByte_plain {c : Byte} (h32 : ¬ c < 32) (h34 : c ≠ 34) (h92 : c ≠ 92) :
    escapeByte c = [c] := by
  unfold escapeByte
  rw [shortEscape_none h32 h34 h92]
  exact if_neg h32

theorem escape_high {s : Bytes} (h : ∀ c ∈ s, 128 ≤ c.toNat) : escape s = s := by
  induction s with
  | nil => rfl
  | cons c cs ih =>
    have hc := h c (List.mem_cons_self ..)
    have hplain : escapeByte c = [c] := by
      apply escapeByte_plain
      · rw [UInt8.lt_iff_toNat_lt]
        show ¬ c.toNat < 32
        omega
      · rintro rfl
        exact absurd hc (by decide)
      · rintro rfl
        exact absurd hc (by decide)
    rw [escape_cons, hplain, ih fun d hd => h d (List.mem_cons_of_mem _ hd), List.singleton_append]

theorem utf8_high {n : ℕ} (h : 128 ≤ n) (h' : n < 0x110000) :
    (∀ c ∈ utf8 n, 128 ≤ c.toNat) ∧ (utf8 n).length ≤ 4 := by
  have hbyte : ∀ m, 128 ≤ m → m < 256 → 128 ≤ (UInt8.ofNat m).toNat := by
    intro m hm hm'
    rw [UInt8.toNat_ofNat']
    omega
  unfold utf8
  rw [if_neg (by omega)]
  split
  · simp only [List.mem_cons, List.not_mem_nil, or_false, forall_eq_or_imp, forall_eq]
    exact ⟨⟨hbyte _ (by omega) (by omega), hbyte _ (by omega) (by omega)⟩, (by decide : 2 ≤ 4)⟩
  · split
    · simp only [List.mem_cons, List.not_mem_nil, or_false, forall_eq_or_imp, forall_eq]
      exact ⟨⟨hbyte _ (by omega) (by omega), hbyte _ (by omega) (by omega),
        hbyte _ (by omega) (by omega)⟩, (by decide : 3 ≤ 4)⟩
    · simp only [List.mem_cons, List.not_mem_nil, or_false, forall_eq_or_imp, forall_eq]
      exact ⟨⟨hbyte _ (by omega) (by omega), hbyte _ (by omega) (by omega),
        hbyte _ (by omega) (by omega), hbyte _ (by omega) (by omega)⟩, le_rfl⟩

theorem escape_utf8_length {n : ℕ} (h : n < 0x110000) : (escape (utf8 n)).length ≤ 6 := by
  by_cases hn : n < 128
  · rw [utf8, if_pos hn, escape_cons, escape, List.flatMap_nil, List.append_nil]
    exact escapeByte_length _
  · obtain ⟨hhigh, hlen⟩ := utf8_high (by omega) h
    rw [escape_high hhigh]
    omega

theorem hexDigit_lt {c : Byte} {d : ℕ} (h : hexDigit c = some d) : d < 16 := by
  unfold hexDigit isDigit at h
  simp only [Bool.and_eq_true, decide_eq_true_eq, UInt8.le_iff_toNat_le] at h
  have h9 : (57 : Byte).toNat = 57 := rfl
  have hf : (102 : Byte).toNat = 102 := rfl
  have hF : (70 : Byte).toNat = 70 := rfl
  split at h
  · cases h
    omega
  · split at h
    · cases h
      omega
    · split at h
      · cases h
        omega
      · cases h

theorem hexQuad_some {s r : Bytes} {n : ℕ} (h : hexQuad s = some (n, r)) :
    ∃ q, s = q ++ r ∧ q.length = 4 ∧ 34 ∉ q ∧ n < 0x10000 := by
  have hquote : ∀ {c : Byte} {d : ℕ}, hexDigit c = some d → 34 ≠ c := by
    rintro c d hd rfl
    cases hd
  match s with
  | a :: b :: c :: d :: s =>
    unfold hexQuad at h
    obtain ⟨a', ha, h⟩ := Option.bind_eq_some_iff.mp h
    obtain ⟨b', hb, h⟩ := Option.bind_eq_some_iff.mp h
    obtain ⟨c', hc, h⟩ := Option.bind_eq_some_iff.mp h
    obtain ⟨d', hd, h⟩ := Option.map_eq_some_iff.mp h
    cases h
    have := hexDigit_lt ha
    have := hexDigit_lt hb
    have := hexDigit_lt hc
    have := hexDigit_lt hd
    refine ⟨[a, b, c, d], rfl, rfl, ?_, by omega⟩
    simp [hquote ha, hquote hb, hquote hc, hquote hd]
  | [] | [_] | [_, _] | [_, _, _] => cases h

theorem hexQuad_quote {b t r : Bytes} {n : ℕ} (h : hexQuad (b ++ 34 :: t) = some (n, r)) :
    ∃ b', r = b' ++ 34 :: t ∧ b.length = b'.length + 4 ∧ n < 0x10000 := by
  obtain ⟨q, hq, hlen, hquote, hn⟩ := hexQuad_some h
  rcases List.append_eq_append_iff.mp hq with ⟨a, rfl, ha⟩ | ⟨b', rfl, hr⟩
  · cases a with
    | nil => exact ⟨[], ha.symm, by simpa using hlen, hn⟩
    | cons x xs =>
      cases ha
      exact absurd (List.mem_append_right b (List.mem_cons_self ..)) hquote
  · exact ⟨b', hr, by rw [List.length_append, hlen, Nat.add_comm], hn⟩

theorem readLowSurrogate_quote {b t r u : Bytes} {high : ℕ} (hhigh : high < 0xDC00)
    (h : readLowSurrogate high (b ++ 34 :: t) = some (u, r)) :
    ∃ b', r = b' ++ 34 :: t ∧ b.length = b'.length + 6 ∧ (escape u).length ≤ 6 := by
  unfold readLowSurrogate at h
  split at h
  · rename_i s hs
    obtain ⟨c, rfl⟩ : ∃ c, b = 92 :: 117 :: c := by
      match b with
      | [] => cases hs
      | [x] => cases hs
      | x :: y :: c =>
        cases hs
        exact ⟨c, rfl⟩
    obtain rfl : c ++ 34 :: t = s := by
      cases hs
      rfl
    obtain ⟨⟨low, r'⟩, hquad, h⟩ := Option.bind_eq_some_iff.mp h
    obtain ⟨b', hr, hlen, _⟩ := hexQuad_quote hquad
    dsimp only at h
    split at h
    · obtain ⟨rfl, rfl⟩ := Prod.mk.inj (Option.some.inj h)
      exact ⟨b', hr, by simp only [List.length_cons]; omega, escape_utf8_length (by omega)⟩
    · cases h
  · cases h

theorem readUnicode_quote {b t r u : Bytes} (h : readUnicode (b ++ 34 :: t) = some (u, r)) :
    ∃ b', r = b' ++ 34 :: t ∧ b'.length + 4 ≤ b.length ∧ (escape u).length ≤ 6 := by
  obtain ⟨⟨n, r'⟩, hquad, h⟩ := Option.bind_eq_some_iff.mp h
  obtain ⟨b', rfl, hlen, hn⟩ := hexQuad_quote hquad
  dsimp only at h
  split at h
  · rename_i hrange
    obtain ⟨b'', hr, hlen', hu⟩ := readLowSurrogate_quote hrange.2 h
    exact ⟨b'', hr, by omega, hu⟩
  · split at h
    · cases h
    · cases h
      exact ⟨b', rfl, hlen.ge, escape_utf8_length (by omega)⟩

theorem escapeByte_letter {e x : Byte} (h : escapeLetter e = some x) :
    (escapeByte x).length ≤ 2 := by
  unfold escapeLetter at h
  split at h
  · rename_i he
    cases h
    rcases he with rfl | rfl | rfl <;> decide
  · repeat' split at h
    all_goals first
      | cases h
        decide
      | cases h

theorem readUnit_quote {b t r u : Bytes} (hne : b ≠ [])
    (h : readUnit (b ++ 34 :: t) = some (u, r)) :
    (∃ b', r = b' ++ 34 :: t ∧ (escape u).length + b'.length ≤ b.length) ∨
      b = [92] ∧ u = [34] ∧ r = t := by
  obtain ⟨c, cs, rfl⟩ := List.exists_cons_of_ne_nil hne
  rw [List.cons_append, readUnit] at h
  split at h
  · rename_i h92
    subst h92
    cases cs with
    | nil =>
      right
      cases h
      exact ⟨rfl, rfl, rfl⟩
    | cons e es =>
      left
      rw [List.cons_append, readEscape] at h
      split at h
      · obtain ⟨b', hr, hlen, hu⟩ := readUnicode_quote h
        exact ⟨b', hr, by simp only [List.length_cons]; omega⟩
      · obtain ⟨x, hx, hxr⟩ := Option.map_eq_some_iff.mp h
        cases hxr
        have hlen := escapeByte_letter hx
        refine ⟨es, rfl, ?_⟩
        rw [escape_cons, escape, List.flatMap_nil, List.append_nil]
        simp only [List.length_cons]
        omega
  · rename_i h92
    split at h
    · cases h
    · rename_i hplain
      rw [not_or] at hplain
      cases h
      left
      refine ⟨cs, rfl, ?_⟩
      rw [escape_cons, escapeByte_plain hplain.1 hplain.2 h92, escape, List.flatMap_nil]
      simp only [List.append_nil, List.length_cons, List.length_nil]
      omega

/-- A string that ends at or before a quote is no shorter than the text in front of it. The
quote is passed only if a backslash stands right before it; then the string ends at the next
one. -/
theorem readString_quote {n : ℕ} {b t s r : Bytes}
    (h : readString n (b ++ 34 :: 44 :: 34 :: t) = some (s, r)) :
    (escape s).length ≤ b.length ∨ r = t := by
  induction n generalizing b s with
  | zero => cases h
  | succ n ih =>
    rw [readString] at h
    split at h
    · cases h
      exact Or.inl (Nat.zero_le _)
    · rename_i hhead
      have hne : b ≠ [] := by
        rintro rfl
        exact hhead rfl
      obtain ⟨⟨u, r'⟩, hunit, h⟩ := Option.bind_eq_some_iff.mp h
      obtain ⟨⟨v, r''⟩, hrest, hvr⟩ := Option.map_eq_some_iff.mp h
      cases hvr
      rcases readUnit_quote hne hunit with ⟨b', rfl, hlen⟩ | ⟨rfl, rfl, rfl⟩
      · rcases ih hrest with hv | rfl
        · left
          rw [escape_append, List.length_append]
          omega
        · exact Or.inr rfl
      · -- the comma is read next, and then the second quote ends the string
        right
        match n with
        | 0 | 1 => cases hrest
        | n + 2 =>
          cases hrest
          rfl

theorem length_le_escape (s : Bytes) : s.length ≤ (escape s).length := by
  induction s with
  | nil => exact le_rfl
  | cons c cs ih =>
    have hc : 1 ≤ (escapeByte c).length := by
      unfold escapeByte
      split
      · exact (by decide : 1 ≤ 2)
      · split
        · exact Nat.succ_le_succ (Nat.zero_le _)
        · exact le_rfl
    rw [escape_cons, List.length_append, List.length_cons]
    omega

theorem readStringValue_escape (s t : Bytes) :
    readStringValue (escape s ++ 34 :: t) = some (s, t) := by
  have hle := length_le_escape s
  apply readString_escape
  rw [List.length_append]
  omega

end LocalMarks.Lib

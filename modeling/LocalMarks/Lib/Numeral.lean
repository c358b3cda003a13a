import LocalMarks.Lib.CString
import Mathlib.Data.Nat.Digits.Lemmas

/-!
# Numerals

The text that printf makes of a number, most significant digit first.
-/

namespace LocalMarks.Lib

/-- The digits of bases up to sixteen, in lower case. -/
def digitChar (d : ℕ) : Byte := if d < 10 then UInt8.ofNat (48 + d) else UInt8.ofNat (87 + d)

/-- `%u` for base ten, `%o` for eight, `%x` for sixteen. -/
def numeral (base n : ℕ) : Bytes :=
  if n = 0 then ascii "0" else (Nat.digits base n).reverse.map digitChar

/-- The conversion with a width and the flag `0`. -/
def paddedNumeral (base width n : ℕ) : Bytes :=
  List.replicate (width - (numeral base n).length) 48 ++ numeral base n

def signedNumeral (z : ℤ) : Bytes :=
  if z < 0 then ascii "-" ++ numeral 10 z.natAbs else numeral 10 z.natAbs

theorem digitChar_toNat {d : ℕ} (h : d < 16) :
    (digitChar d).toNat = if d < 10 then 48 + d else 87 + d := by
  unfold digitChar
  split
  · rw [UInt8.toNat_ofNat']
    omega
  · rw [UInt8.toNat_ofNat']
    omega

theorem digitChar_ne_zero {d : ℕ} (h : d < 16) : digitChar d ≠ 0 := by
  intro h0
  have := digitChar_toNat h
  rw [h0] at this
  simp only [UInt8.toNat_zero] at this
  split at this <;> omega

theorem numeral_nul_free {base : ℕ} (n : ℕ) (hb : 1 < base) (hb' : base ≤ 16) :
    (0 : Byte) ∉ numeral base n := by
  unfold numeral
  split
  · decide
  · intro hmem
    obtain ⟨d, hd, h0⟩ := List.mem_map.mp hmem
    have := Nat.digits_lt_base hb (List.mem_reverse.mp hd)
    exact digitChar_ne_zero (by omega) h0

theorem numeral_length_le {base k n : ℕ} (hb : 1 < base) (hk : 0 < k) (hn : n < base ^ k) :
    (numeral base n).length ≤ k := by
  unfold numeral
  split
  · exact hk
  · rw [List.length_map, List.length_reverse]
    exact (Nat.digits_length_le_iff hb n).mpr hn

/-- The number that a numeral of a base up to ten stands for. -/
def numeralValue (base : ℕ) (s : Bytes) : ℕ := s.foldl (fun v c => base * v + (c.toNat - 48)) 0

theorem numeralValue_append (base : ℕ) (s : Bytes) (c : Byte) :
    numeralValue base (s ++ [c]) = base * numeralValue base s + (c.toNat - 48) := by
  simp only [numeralValue, List.foldl_append, List.foldl_cons, List.foldl_nil]

theorem numeralValue_digits {base : ℕ} (hb : base ≤ 10) {ds : List ℕ} (h : ∀ d ∈ ds, d < base) :
    numeralValue base (ds.reverse.map digitChar) = Nat.ofDigits base ds := by
  induction ds with
  | nil => rfl
  | cons d ds ih =>
    have hd := h d (List.mem_cons_self ..)
    have hchar := digitChar_toNat (show d < 16 by omega)
    rw [if_pos (by omega)] at hchar
    rw [List.reverse_cons, List.map_append, List.map_singleton, numeralValue_append,
      ih fun x hx => h x (List.mem_cons_of_mem _ hx), hchar, Nat.ofDigits_cons, Nat.add_comm,
      Nat.add_sub_cancel_left]

theorem numeralValue_numeral {base : ℕ} (n : ℕ) (hb : 1 < base) (hb' : base ≤ 10) :
    numeralValue base (numeral base n) = n := by
  unfold numeral
  split
  · rename_i h
    rw [h]
    rfl
  · rw [numeralValue_digits hb' fun d hd => Nat.digits_lt_base hb hd, Nat.ofDigits_digits]

/-- Leading zeros do not change the number. -/
theorem numeralValue_paddedNumeral {base : ℕ} (width n : ℕ) (hb : 1 < base) (hb' : base ≤ 10) :
    numeralValue base (paddedNumeral base width n) = n := by
  have hzeros : ∀ k, numeralValue base (List.replicate k 48 ++ numeral base n) =
      numeralValue base (numeral base n) := by
    intro k
    induction k with
    | zero => rfl
    | succ k ih =>
      rw [← ih, List.replicate_succ, List.cons_append]
      show List.foldl _ (base * 0 + 0) _ = _
      rw [Nat.mul_zero]
      rfl
  rw [paddedNumeral, hzeros, numeralValue_numeral n hb hb']

/-! ### Bases up to sixteen -/

def digitValue (c : Byte) : ℕ := if c.toNat < 58 then c.toNat - 48 else c.toNat - 87

/-- The number that a numeral of a base up to sixteen stands for. -/
def baseValue (base : ℕ) (s : Bytes) : ℕ := s.foldl (fun v c => base * v + digitValue c) 0

theorem digitValue_digitChar {d : ℕ} (h : d < 16) : digitValue (digitChar d) = d := by
  have hall : ∀ d : Fin 16, digitValue (digitChar d) = d := by decide
  exact hall ⟨d, h⟩

theorem baseValue_digits {base : ℕ} (hb : base ≤ 16) {ds : List ℕ} (h : ∀ d ∈ ds, d < base) :
    baseValue base (ds.reverse.map digitChar) = Nat.ofDigits base ds := by
  induction ds with
  | nil => rfl
  | cons d ds ih =>
    have hd := h d (List.mem_cons_self ..)
    have hds := ih fun x hx => h x (List.mem_cons_of_mem _ hx)
    unfold baseValue at *
    rw [List.reverse_cons, List.map_append, List.map_singleton, List.foldl_append, List.foldl_cons,
      List.foldl_nil, hds, digitValue_digitChar (by omega), Nat.ofDigits_cons, Nat.add_comm]

theorem baseValue_numeral {base : ℕ} (n : ℕ) (hb : 1 < base) (hb' : base ≤ 16) :
    baseValue base (numeral base n) = n := by
  unfold numeral
  split
  · rename_i h
    rw [h]
    rfl
  · rw [baseValue_digits hb' fun d hd => Nat.digits_lt_base hb hd, Nat.ofDigits_digits]

theorem numeral_injective {base : ℕ} (hb : 1 < base) (hb' : base ≤ 16) :
    Function.Injective (numeral base) := by
  intro m n h
  rw [← baseValue_numeral m hb hb', h, baseValue_numeral n hb hb']

theorem baseValue_paddedNumeral {base : ℕ} (width n : ℕ) (hb : 1 < base) (hb' : base ≤ 16) :
    baseValue base (paddedNumeral base width n) = n := by
  have hzeros : ∀ k, baseValue base (List.replicate k 48 ++ numeral base n) =
      baseValue base (numeral base n) := by
    intro k
    induction k with
    | zero => rfl
    | succ k ih =>
      rw [← ih, List.replicate_succ, List.cons_append]
      show List.foldl _ (base * 0 + 0) _ = _
      rw [Nat.mul_zero]
      rfl
  rw [paddedNumeral, hzeros, baseValue_numeral n hb hb']

/-- Padding does not make two numbers look alike. -/
theorem paddedNumeral_injective {base : ℕ} (width : ℕ) (hb : 1 < base) (hb' : base ≤ 16) :
    Function.Injective (paddedNumeral base width) := by
  intro m n h
  rw [← baseValue_paddedNumeral width m hb hb', h, baseValue_paddedNumeral width n hb hb']

theorem paddedNumeral_length {base width n : ℕ} (hb : 1 < base) (hw : 0 < width)
    (hn : n < base ^ width) : (paddedNumeral base width n).length = width := by
  have hlen := numeral_length_le hb hw hn
  rw [paddedNumeral, List.length_append, List.length_replicate]
  omega

end LocalMarks.Lib

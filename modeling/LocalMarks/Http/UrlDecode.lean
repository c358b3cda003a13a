import LocalMarks.Http.RawMemory
import LocalMarks.Http.RequestLine

/-!
# Decoding an encoded text (http.c)

`http_url_decode` with its destination written out. It undoes every percent-encoding, and stops
where the destination is full, also in front of a triple that it has room for a part of.
-/

namespace LocalMarks.Http
open LocalMarks.Lib

/-! ### The destination -/

/-- The loop with `di` bytes stored, and the NUL behind the last one. -/
def urlDecodeLoop (dstSize : ℕ) : Bytes → Memory → ℕ → Memory
  | [], dst, di => dst.store di 0
  | 37 :: a :: b :: s, dst, di =>
    if di + 1 < dstSize then
      if isXDigit a && isXDigit b then
        urlDecodeLoop dstSize s (dst.store di (UInt8.ofNat (16 * hexValue a + hexValue b))) (di + 1)
      else urlDecodeLoop dstSize (a :: b :: s) (dst.store di 37) (di + 1)
    else dst.store di 0
  | c :: s, dst, di =>
    if di + 1 < dstSize then
      urlDecodeLoop dstSize s (dst.store di (if c = 43 then 32 else c)) (di + 1)
    else dst.store di 0

/-- `http_url_decode` into a destination with any bytes in it. -/
def httpUrlDecodeMem (dstSize : ℕ) (src : Bytes) (byte : ℕ → Byte) : Memory :=
  urlDecodeLoop dstSize src ⟨byte, []⟩ 0

/-- Bytes stored one behind the other from index `i` on. -/
def Memory.storeAll (m : Memory) (i : ℕ) : Bytes → Memory
  | [] => m
  | c :: cs => (m.store i c).storeAll (i + 1) cs

theorem Memory.storeAll_byte (m : Memory) (i : ℕ) (cs : Bytes) (j : ℕ) :
    (m.storeAll i cs).byte j = if i ≤ j then (cs[j - i]?).getD (m.byte j) else m.byte j := by
  induction cs generalizing m i with
  | nil =>
    rw [storeAll, List.getElem?_nil, Option.getD_none, ite_self]
  | cons c cs ih =>
    have hstore : (m.store i c).byte j = if j = i then c else m.byte j := rfl
    rw [storeAll, ih, hstore]
    rcases Nat.lt_trichotomy j i with h | rfl | h
    · rw [if_neg (by omega), if_neg h.ne, if_neg (by omega)]
    · rw [if_neg (by omega), if_pos rfl, if_pos le_rfl, Nat.sub_self]
      rfl
    · obtain ⟨k, hk⟩ : ∃ k, j - i = k + 1 := ⟨j - i - 1, by omega⟩
      have hnext : j - (i + 1) = k := by omega
      rw [if_pos (show i + 1 ≤ j by omega), if_neg h.ne', if_pos h.le, hk, hnext,
        List.getElem?_cons_succ]

theorem Memory.storeAll_touched (m : Memory) (i : ℕ) (cs : Bytes) (j : ℕ) :
    j ∈ (m.storeAll i cs).touched ↔ j ∈ m.touched ∨ (i ≤ j ∧ j < i + cs.length) := by
  induction cs generalizing m i with
  | nil =>
    rw [storeAll, List.length_nil]
    constructor
    · exact Or.inl
    · rintro (h | h)
      · exact h
      · omega
  | cons c cs ih =>
    have hstore : (m.store i c).touched = i :: m.touched := rfl
    rw [storeAll, ih, hstore, List.mem_cons, List.length_cons]
    constructor
    · rintro ((rfl | h) | h)
      · right
        omega
      · exact Or.inl h
      · right
        omega
    · rintro (h | h)
      · exact Or.inl (Or.inr h)
      · by_cases hj : j = i
        · exact Or.inl (Or.inl hj)
        · right
          omega

theorem urlDecodeLoop_eq (dstSize : ℕ) (s : Bytes) (dst : Memory) (di : ℕ) :
    urlDecodeLoop dstSize s dst di = dst.storeAll di (httpUrlDecode (dstSize - di) s ++ [0]) := by
  have hfull : ∀ (t : Bytes) (dst : Memory) (di : ℕ), ¬ di + 1 < dstSize →
      dst.store di 0 = dst.storeAll di (httpUrlDecode (dstSize - di) t ++ [0]) := by
    intro t dst di h
    rw [httpUrlDecode_eq, show dstSize - di - 1 = 0 by omega, List.take_zero]
    rfl
  have hroom : ∀ (t : Bytes) (di : ℕ), di + 1 < dstSize →
      httpUrlDecode (dstSize - di) t = (urlDecode t).take (dstSize - (di + 1) - 1 + 1) := by
    intro t di h
    rw [httpUrlDecode_eq, show dstSize - di - 1 = dstSize - (di + 1) - 1 + 1 by omega]
  fun_induction urlDecodeLoop dstSize s dst di with
  | case1 dst di =>
    rw [httpUrlDecode_eq, urlDecode, List.take_nil]
    rfl
  | case2 a b s dst di h hx ih =>
    rw [ih, hroom _ di h, urlDecode, if_pos hx, List.take_succ_cons, httpUrlDecode_eq]
    rfl
  | case3 a b s dst di h hx ih =>
    rw [ih, hroom _ di h, urlDecode, if_neg hx, List.take_succ_cons, httpUrlDecode_eq]
    rfl
  | case4 a b s dst di h => exact hfull _ dst di h
  | case5 c s dst di hc h ih =>
    rw [ih, hroom _ di h, urlDecode, List.take_succ_cons, httpUrlDecode_eq]
    · rfl
    · exact hc
  | case6 c s dst di hc h => exact hfull _ dst di h

/-! ### Encodings -/

/-- The ways to write a text: a byte as itself, as `%` and two hex digits of either case, or a
blank as `+`. -/
inductive PercentEncodes : Bytes → Bytes → Prop where
  | nil : PercentEncodes [] []
  | plain {s e : Bytes} (c : Byte) : c ≠ 37 → c ≠ 43 → PercentEncodes s e →
      PercentEncodes (c :: s) (c :: e)
  | hex {s e : Bytes} (c a b : Byte) : isXDigit a = true → isXDigit b = true →
      16 * hexValue a + hexValue b = c.toNat → PercentEncodes s e →
      PercentEncodes (c :: s) (37 :: a :: b :: e)
  | plus {s e : Bytes} : PercentEncodes s e → PercentEncodes (32 :: s) (43 :: e)

theorem isXDigit_zero : isXDigit 0 = false := rfl

theorem PercentEncodes.nul_free {s e : Bytes} (h : PercentEncodes s e) (hs : 0 ∉ s) : 0 ∉ e := by
  have hdigit : ∀ a : Byte, isXDigit a = true → 0 ≠ a := by
    rintro a ha rfl
    rw [isXDigit_zero] at ha
    cases ha
  induction h with
  | nil => exact hs
  | plain c _ _ _ ih =>
    rw [List.mem_cons, not_or] at hs ⊢
    exact ⟨hs.1, ih hs.2⟩
  | hex c a b ha hb _ _ ih =>
    rw [List.mem_cons, not_or] at hs
    simp only [List.mem_cons, not_or]
    exact ⟨by decide, hdigit a ha, hdigit b hb, ih hs.2⟩
  | plus _ ih =>
    rw [List.mem_cons, not_or] at hs ⊢
    exact ⟨by decide, ih hs.2⟩

theorem PercentEncodes.urlDecode {s e : Bytes} (h : PercentEncodes s e) : urlDecode e = s := by
  induction h with
  | nil => rfl
  | plain c h37 h43 _ ih =>
    rw [Http.urlDecode, if_neg h43, ih]
    exact fun a b s hc => absurd hc h37
  | hex c a b ha hb hval _ ih =>
    rw [Http.urlDecode, ha, hb, hval, ih, UInt8.ofNat_toNat]
    rfl
  | plus _ ih =>
    rw [Http.urlDecode, ih]
    · rfl
    · exact fun a b s hc => absurd hc (by decide)

/-- Of an encoded C string the destination gets as many bytes as it has room for, and a NUL;
nothing else is written. -/
theorem httpUrlDecodeMem_encoded (s : CString) {e : Bytes} (h : PercentEncodes s.bytes e)
    (dstSize : ℕ) (hsize : 1 ≤ dstSize) (byte : ℕ → Byte) :
    0 ∉ e ∧ (httpUrlDecodeMem dstSize e byte).Holds (s.bytes.take (dstSize - 1) ++ [0]) ∧
      (∀ j ∈ (httpUrlDecodeMem dstSize e byte).touched, j < dstSize) ∧
      ∀ j, (j ∈ (httpUrlDecodeMem dstSize e byte).touched ↔
          j ≤ min s.bytes.length (dstSize - 1)) ∧
        (min s.bytes.length (dstSize - 1) < j →
          (httpUrlDecodeMem dstSize e byte).byte j = byte j) := by
  have hmem : httpUrlDecodeMem dstSize e byte =
      Memory.storeAll ⟨byte, []⟩ 0 (s.bytes.take (dstSize - 1) ++ [0]) := by
    rw [httpUrlDecodeMem, urlDecodeLoop_eq, httpUrlDecode_eq, h.urlDecode, Nat.sub_zero]
  have hlen : (s.bytes.take (dstSize - 1) ++ [0]).length =
      min s.bytes.length (dstSize - 1) + 1 := by
    rw [List.length_append, List.length_take, min_comm]
    rfl
  have htouched : ∀ j, j ∈ (httpUrlDecodeMem dstSize e byte).touched ↔
      j ≤ min s.bytes.length (dstSize - 1) := by
    intro j
    rw [hmem, Memory.storeAll_touched, hlen, or_iff_right List.not_mem_nil]
    omega
  refine ⟨h.nul_free s.nul_free, ?_, ?_, ?_⟩
  · intro i c hc
    rw [hmem, Memory.storeAll_byte, if_pos (Nat.zero_le i), Nat.sub_zero, hc, Option.getD_some]
  · intro j hj
    have := (htouched j).mp hj
    omega
  · intro j
    refine ⟨htouched j, ?_⟩
    intro hj
    rw [hmem, Memory.storeAll_byte, if_pos (Nat.zero_le j), Nat.sub_zero,
      List.getElem?_eq_none (by omega), Option.getD_none]

theorem httpUrlDecodeMem_encoded_mixed : 0 ∉ ascii "a%2f%62" ∧
    (httpUrlDecodeMem 3 (ascii "a%2f%62") fun _ => 7).Holds (ascii "a/" ++ [0]) := by
  have henc : PercentEncodes (ascii "a/b") (ascii "a%2f%62") :=
    .plain _ (by decide) (by decide) (.hex _ _ _ rfl rfl rfl (.hex _ _ _ rfl rfl rfl .nil))
  have h := httpUrlDecodeMem_encoded ⟨ascii "a/b", by decide⟩ henc 3 (by decide) fun _ => 7
  exact ⟨h.1, h.2.1⟩

theorem storedPath_encoded {s : CString} {e : Bytes} (h : PercentEncodes s.bytes e)
    (hfit : s.bytes.length < 4096) :
    (fieldOf 4096 pathSize_pos (httpUrlDecode 4096 e)).bytes = s.bytes := by
  rw [storedPath_bytes, httpUrlDecode_eq, h.urlDecode, List.take_of_length_le (by omega)]
  exact cstr_of_nul_free s.nul_free

end LocalMarks.Http

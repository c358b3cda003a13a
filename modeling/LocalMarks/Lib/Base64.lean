import LocalMarks.Lib.CString

/-!
# Base64

Three bytes are written as four characters of six bits each, and the last group is filled up
with `=`.
-/

namespace LocalMarks.Lib

def sextetChar (v : ℕ) : Byte :=
  if v < 26 then UInt8.ofNat (65 + v)
  else if v < 52 then UInt8.ofNat (71 + v)
  else if v < 62 then UInt8.ofNat (v - 4)
  else if v = 62 then 43
  else 47

/-- The standard encoding, with padding. -/
def base64 : Bytes → Bytes
  | [] => []
  | [a] => [sextetChar (a.toNat / 4), sextetChar (a.toNat % 4 * 16), 61, 61]
  | [a, b] =>
    [sextetChar (a.toNat / 4), sextetChar (a.toNat % 4 * 16 + b.toNat / 16),
      sextetChar (b.toNat % 16 * 4), 61]
  | a :: b :: c :: s =>
    sextetChar (a.toNat / 4) :: sextetChar (a.toNat % 4 * 16 + b.toNat / 16) ::
      sextetChar (b.toNat % 16 * 4 + c.toNat / 64) :: sextetChar (c.toNat % 64) :: base64 s

def InAlphabet (c : Byte) : Prop := ∃ v < 64, c = sextetChar v

/-- Padded text: groups of four characters of the alphabet, of which the last one or two may
be `=` in the last group. -/
def Base64Text (s : Bytes) : Prop :=
  4 ∣ s.length ∧ ∃ body pad, s = body ++ List.replicate pad 61 ∧ pad ≤ 2 ∧ ∀ c ∈ body, InAlphabet c

/-! ### The alphabet -/

theorem sextetChar_inAlphabet {v : ℕ} (h : v < 64) : InAlphabet (sextetChar v) := ⟨v, h, rfl⟩

theorem InAlphabet.ne_pad {c : Byte} (h : InAlphabet c) : c ≠ 61 := by
  obtain ⟨v, hv, rfl⟩ := h
  have hall : ∀ v < 64, sextetChar v ≠ 61 := by decide
  exact hall v hv

theorem InAlphabet.graphic {c : Byte} (h : InAlphabet c) : 33 ≤ c ∧ c ≤ 126 := by
  obtain ⟨v, hv, rfl⟩ := h
  have hall : ∀ v < 64, 33 ≤ sextetChar v ∧ sextetChar v ≤ 126 := by decide
  exact hall v hv

/-! ### Encoded text -/

theorem base64_length (s : Bytes) : (base64 s).length = 4 * ((s.length + 2) / 3) := by
  induction s using base64.induct with
  | case1 => rfl
  | case2 a => simp only [base64, List.length_cons, List.length_nil]
  | case3 a b => simp only [base64, List.length_cons, List.length_nil]
  | case4 a b c s ih =>
    simp only [base64, List.length_cons, ih]
    omega

theorem base64_parts (s : Bytes) : ∃ body pad, base64 s = body ++ List.replicate pad 61 ∧ pad ≤ 2 ∧
    ∀ c ∈ body, InAlphabet c := by
  induction s using base64.induct with
  | case1 => exact ⟨[], 0, rfl, Nat.zero_le 2, fun c hc => absurd hc List.not_mem_nil⟩
  | case2 a =>
    have ha := a.toNat_lt
    refine ⟨[sextetChar (a.toNat / 4), sextetChar (a.toNat % 4 * 16)], 2, rfl, Nat.le_refl 2, ?_⟩
    intro c hc
    simp only [List.mem_cons, List.not_mem_nil, or_false] at hc
    rcases hc with rfl | rfl <;> exact sextetChar_inAlphabet (by omega)
  | case3 a b =>
    have ha := a.toNat_lt
    have hb := b.toNat_lt
    refine ⟨[sextetChar (a.toNat / 4), sextetChar (a.toNat % 4 * 16 + b.toNat / 16),
      sextetChar (b.toNat % 16 * 4)], 1, rfl, Nat.le_succ 1, ?_⟩
    intro c hc
    simp only [List.mem_cons, List.not_mem_nil, or_false] at hc
    rcases hc with rfl | rfl | rfl <;> exact sextetChar_inAlphabet (by omega)
  | case4 a b c s ih =>
    have ha := a.toNat_lt
    have hb := b.toNat_lt
    have hc := c.toNat_lt
    obtain ⟨body, pad, hbody, hpad, hall⟩ := ih
    refine ⟨[sextetChar (a.toNat / 4), sextetChar (a.toNat % 4 * 16 + b.toNat / 16),
      sextetChar (b.toNat % 16 * 4 + c.toNat / 64), sextetChar (c.toNat % 64)] ++ body, pad, ?_,
      hpad, ?_⟩
    · rw [base64, hbody]
      rfl
    · intro d hd
      rcases List.mem_append.mp hd with hd | hd
      · simp only [List.mem_cons, List.not_mem_nil, or_false] at hd
        rcases hd with rfl | rfl | rfl | rfl <;> exact sextetChar_inAlphabet (by omega)
      · exact hall d hd

theorem base64_graphic (s : Bytes) : ∀ c ∈ base64 s, 33 ≤ c ∧ c ≤ 126 := by
  obtain ⟨body, pad, hs, -, hbody⟩ := base64_parts s
  intro c hc
  rw [hs] at hc
  rcases List.mem_append.mp hc with hc | hc
  · exact (hbody c hc).graphic
  · rw [List.eq_of_mem_replicate hc]
    decide

theorem base64_take_inAlphabet (s : Bytes) {n : ℕ} (hn : n + 2 ≤ (base64 s).length) :
    ∀ c ∈ (base64 s).take n, InAlphabet c := by
  obtain ⟨body, pad, hs, hpad, hbody⟩ := base64_parts s
  rw [hs, List.length_append, List.length_replicate] at hn
  rw [hs, List.take_append_of_le_length (by omega)]
  exact fun c hc => hbody c (List.mem_of_mem_take hc)

end LocalMarks.Lib

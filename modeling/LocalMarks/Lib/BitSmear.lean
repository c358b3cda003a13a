import Mathlib.Algebra.Group.Nat.Defs
import Mathlib.Data.Nat.Size
import Mathlib.Order.Bounds.Basic

/-!
# Smearing the bits of a number

Joining a number with itself shifted by 1, 2, 4, ... copies its highest bit into every bit below.
What comes out is one less than a power of two, the least one above the number.
-/

namespace LocalMarks.Lib

def smear (k n : ℕ) : ℕ := n ||| n >>> k

/-- Bit `i` of `m` is set when one of `w` bits of `n` is, from bit `i` on. -/
def Smeared (w n m : ℕ) : Prop := ∀ i, m.testBit i = true ↔ ∃ j < w, n.testBit (i + j) = true

theorem Smeared.one (n : ℕ) : Smeared 1 n n := by
  intro i
  constructor
  · intro h
    exact ⟨0, Nat.one_pos, h⟩
  · rintro ⟨j, hj, h⟩
    obtain rfl : j = 0 := by omega
    exact h

theorem Smeared.double {w n m : ℕ} (h : Smeared w n m) : Smeared (w + w) n (smear w m) := by
  intro i
  rw [smear, Nat.testBit_or, Nat.testBit_shiftRight, Bool.or_eq_true, h i, h (w + i)]
  constructor
  · rintro (⟨j, hj, hbit⟩ | ⟨j, hj, hbit⟩)
    · exact ⟨j, by omega, hbit⟩
    · exact ⟨w + j, by omega, by rwa [← Nat.add_assoc, Nat.add_comm i w]⟩
  · rintro ⟨j, hj, hbit⟩
    by_cases hjw : j < w
    · exact Or.inl ⟨j, hjw, hbit⟩
    · refine Or.inr ⟨j - w, by omega, ?_⟩
      have hij : w + i + (j - w) = i + j := by omega
      rwa [hij]

theorem exists_testBit_iff (n i : ℕ) : (∃ j, n.testBit (i + j) = true) ↔ i < n.size := by
  rw [Nat.lt_size]
  constructor
  · rintro ⟨j, hj⟩
    exact (Nat.pow_le_pow_right Nat.two_pos (Nat.le_add_right i j)).trans
      (Nat.ge_two_pow_of_testBit hj)
  · intro h
    obtain ⟨j, hij, hbit⟩ := Nat.exists_ge_and_testBit_of_ge_two_pow h
    exact ⟨j - i, by rwa [Nat.add_sub_cancel' hij]⟩

theorem Smeared.eq {w n m : ℕ} (h : Smeared w n m) (hn : n.size ≤ w) : m = 2 ^ n.size - 1 := by
  apply Nat.eq_of_testBit_eq
  intro i
  rw [Nat.testBit_two_pow_sub_one, Bool.eq_iff_iff, decide_eq_true_eq, h i, ← exists_testBit_iff]
  constructor
  · rintro ⟨j, -, hbit⟩
    exact ⟨j, hbit⟩
  · rintro ⟨j, hbit⟩
    have hlt : i + j < n.size := (exists_testBit_iff n (i + j)).mp ⟨0, hbit⟩
    exact ⟨j, by omega, hbit⟩

theorem two_pow_size_isLeast (n : ℕ) : IsLeast {p | (∃ k, p = 2 ^ k) ∧ n < p} (2 ^ n.size) := by
  constructor
  · exact ⟨⟨n.size, rfl⟩, n.lt_size_self⟩
  · rintro p ⟨⟨k, rfl⟩, hk⟩
    exact Nat.pow_le_pow_right Nat.two_pos (Nat.size_le.mpr hk)

end LocalMarks.Lib

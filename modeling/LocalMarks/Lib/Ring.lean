import Mathlib.Data.List.Basic
import Mathlib.Data.Nat.ModEq
import Mathlib.Logic.Function.Basic

/-!
# Ring buffers

A buffer of `cap` slots used as a queue: `n` slots in use from `head` on, wrapping round.
-/

namespace LocalMarks.Lib

variable {α : Type*}

def window (slots : ℕ → α) (cap head n : ℕ) : List α :=
  (List.range n).map fun i => slots ((head + i) % cap)

@[simp] theorem window_zero (slots : ℕ → α) (cap head : ℕ) : window slots cap head 0 = [] := rfl

theorem slot_ne {cap head i n : ℕ} (hi : i < n) (hn : n < cap) :
    (head + i) % cap ≠ (head + n) % cap := by
  intro heq
  have hmod : i ≡ n [MOD cap] := Nat.ModEq.add_left_cancel' head heq
  have : i = n := hmod.eq_of_lt_of_lt (hi.trans hn) hn
  omega

theorem window_push (slots : ℕ → α) {cap n : ℕ} (head : ℕ) (a : α) (hn : n < cap) :
    window (Function.update slots ((head + n) % cap) a) cap head (n + 1) =
      window slots cap head n ++ [a] := by
  have hold : ∀ i ∈ List.range n,
      Function.update slots ((head + n) % cap) a ((head + i) % cap) =
        slots ((head + i) % cap) := fun i hi =>
    Function.update_of_ne (slot_ne (List.mem_range.mp hi) hn) a slots
  simp only [window, List.range_succ, List.map_append, List.map_cons, List.map_nil,
    Function.update_self, List.map_congr_left hold]

theorem window_pop (slots : ℕ → α) (cap head n : ℕ) :
    window slots cap head (n + 1) =
      slots (head % cap) :: window slots cap ((head + 1) % cap) n := by
  have hshift : ∀ i, ((head + 1) % cap + i) % cap = (head + (i + 1)) % cap := by
    intro i
    rw [Nat.mod_add_mod, Nat.add_assoc, Nat.add_comm 1 i]
  simp only [window, List.range_succ_eq_map, List.map_cons, List.map_map, Nat.add_zero,
    Function.comp_def, hshift, Nat.succ_eq_add_one]

end LocalMarks.Lib

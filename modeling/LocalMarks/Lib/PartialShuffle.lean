import Mathlib.Algebra.BigOperators.Field
import Mathlib.Algebra.Field.Rat
import Mathlib.Algebra.Group.End
import Mathlib.Data.Fintype.BigOperators
import Mathlib.Data.Fintype.CardEmbedding
import Mathlib.Logic.Equiv.Basic

/-!
# Picking without replacement

A partial shuffle swaps position `i` with a position drawn from `i` on, for `i = 0, 1, ...`. What
comes to position `i` is picked. Over sequences of draws this gives each selection of distinct
positions once.
-/

namespace LocalMarks.Lib

/-- Where the symbol at each position comes from, after so many swaps. -/
def shuffled (draw : ℕ → ℕ) : ℕ → Equiv.Perm ℕ
  | 0 => 1
  | i + 1 => shuffled draw i * Equiv.swap i (draw i)

/-- The position that is picked at step `i`. -/
def picked (draw : ℕ → ℕ) (i : ℕ) : ℕ := shuffled draw i (draw i)

theorem shuffled_succ (draw : ℕ → ℕ) (i p : ℕ) :
    shuffled draw (i + 1) p = shuffled draw i (Equiv.swap i (draw i) p) := rfl

theorem shuffled_succ_self (draw : ℕ → ℕ) (i : ℕ) :
    shuffled draw (i + 1) i = picked draw i := by
  rw [shuffled_succ, Equiv.swap_apply_left, picked]

theorem shuffled_congr {draw draw' : ℕ → ℕ} {k : ℕ} (h : ∀ t < k, draw t = draw' t) :
    shuffled draw k = shuffled draw' k := by
  induction k with
  | zero => rfl
  | succ k ih =>
    rw [shuffled, shuffled, h k (Nat.lt_succ_self k), ih fun t ht => h t (by omega)]

theorem shuffled_settled {draw : ℕ → ℕ} {k i : ℕ} (h : ∀ t < k, t ≤ draw t) (hi : i < k) :
    shuffled draw k i = picked draw i := by
  induction k with
  | zero => omega
  | succ k ih =>
    by_cases hik : i = k
    · rw [hik, shuffled_succ_self]
    · have hk := h k (Nat.lt_succ_self k)
      rw [shuffled_succ, Equiv.swap_apply_of_ne_of_ne (by omega) (by omega)]
      exact ih (fun t ht => h t (by omega)) (by omega)

theorem picked_ne {draw : ℕ → ℕ} {m i j : ℕ} (h : ∀ t < m, t ≤ draw t) (hi : i < m) (hj : j < m)
    (heq : picked draw i = picked draw j) : i = j := by
  rw [← shuffled_settled h hi, ← shuffled_settled h hj] at heq
  exact (shuffled draw m).injective heq

theorem swap_lt_iff {n i j : ℕ} (hi : i < n) (hj : j < n) (p : ℕ) :
    Equiv.swap i j p < n ↔ p < n := by
  rw [Equiv.swap_apply_def]
  split
  · omega
  · split <;> omega

theorem shuffled_lt_iff {draw : ℕ → ℕ} {n k : ℕ} (h : ∀ t < k, t ≤ draw t ∧ draw t < n) (p : ℕ) :
    shuffled draw k p < n ↔ p < n := by
  induction k generalizing p with
  | zero => rfl
  | succ k ih =>
    have hk := h k (Nat.lt_succ_self k)
    rw [shuffled_succ, ih (fun t ht => h t (by omega)), swap_lt_iff (by omega) hk.2]

theorem picked_lt {draw : ℕ → ℕ} {n m i : ℕ} (h : ∀ t < m, t ≤ draw t ∧ draw t < n)
    (hi : i < m) : picked draw i < n :=
  (shuffled_lt_iff (fun t ht => h t (by omega)) (draw i)).mpr (h i hi).2

theorem draw_eq_of_picked {draw draw' : ℕ → ℕ} {m : ℕ}
    (h : ∀ t < m, picked draw t = picked draw' t) : ∀ t < m, draw t = draw' t := by
  intro t
  induction t using Nat.strong_induction_on with
  | _ t ih =>
    intro ht
    have hsame : shuffled draw t = shuffled draw' t :=
      shuffled_congr fun u hu => ih u hu (by omega)
    have heq := h t ht
    rw [picked, picked, hsame] at heq
    exact (shuffled draw' t).injective heq

theorem exists_draw {n m : ℕ} {sel : ℕ → ℕ} (hlt : ∀ t < m, sel t < n)
    (hne : ∀ i < m, ∀ j < m, sel i = sel j → i = j) :
    ∃ draw : ℕ → ℕ, (∀ t < m, t ≤ draw t ∧ draw t < n) ∧ ∀ t < m, picked draw t = sel t := by
  induction m with
  | zero => exact ⟨id, fun t ht => absurd ht (Nat.not_lt_zero t), fun t ht =>
      absurd ht (Nat.not_lt_zero t)⟩
  | succ m ih =>
    obtain ⟨draw, hrange, hsel⟩ := ih (fun t ht => hlt t (by omega))
      fun i hi j hj => hne i (by omega) j (by omega)
    -- the next draw is where the swaps so far have brought the position that is wanted
    have hwant := hlt m (Nat.lt_succ_self m)
    obtain ⟨q, hq⟩ := (shuffled draw m).surjective (sel m)
    have hqn : q < n := by rwa [← shuffled_lt_iff hrange, hq]
    have hmq : m ≤ q := by
      by_contra hlow
      have hpicked := shuffled_settled (fun t ht => (hrange t ht).1) (show q < m by omega)
      have := hne q (by omega) m (by omega) (by rw [← hsel q (by omega), ← hpicked, hq])
      omega
    have hkeep : ∀ t < m, Function.update draw m q t = draw t := fun t ht =>
      Function.update_of_ne (by omega) q draw
    have hshuffled : ∀ t ≤ m, shuffled (Function.update draw m q) t = shuffled draw t :=
      fun t ht => shuffled_congr fun u hu => hkeep u (by omega)
    refine ⟨Function.update draw m q, ?_, ?_⟩
    · intro t ht
      by_cases htm : t = m
      · rw [htm, Function.update_self]
        exact ⟨hmq, hqn⟩
      · rw [hkeep t (by omega)]
        exact hrange t (by omega)
    · intro t ht
      by_cases htm : t = m
      · rw [htm, picked, hshuffled m le_rfl, Function.update_self, hq]
      · rw [picked, hshuffled t (by omega), hkeep t (by omega)]
        exact hsel t (by omega)

/-! ### Draws and selections -/

section
variable {n m : ℕ}

/-- `m` draws among `n` positions, the `i`-th of them from `i` on. -/
abbrev Draws (n m : ℕ) : Type := (i : Fin m) → {j : Fin n // (i : ℕ) ≤ j}

/-- A sequence that begins with the given positions. -/
def sequence (f : Fin m → Fin n) (t : ℕ) : ℕ := if h : t < m then f ⟨t, h⟩ else t

theorem sequence_of_lt (f : Fin m → Fin n) {t : ℕ} (h : t < m) : sequence f t = f ⟨t, h⟩ :=
  dif_pos h

/-- The draws as a sequence, which goes on without a swap. -/
def Draws.at (d : Draws n m) : ℕ → ℕ := sequence fun i => (d i).1

theorem Draws.at_range (d : Draws n m) : ∀ t < m, t ≤ d.at t ∧ d.at t < n := by
  intro t ht
  rw [Draws.at, sequence_of_lt _ ht]
  exact ⟨(d ⟨t, ht⟩).2, (d ⟨t, ht⟩).1.isLt⟩

/-- The positions that are picked, in order. -/
def selection (d : Draws n m) : Fin m ↪ Fin n where
  toFun i := ⟨picked d.at i, picked_lt d.at_range i.isLt⟩
  inj' := by
    intro i j h
    exact Fin.ext (picked_ne (fun t ht => (d.at_range t ht).1) i.isLt j.isLt (Fin.mk.inj h))

theorem selection_bijective : Function.Bijective (selection (n := n) (m := m)) := by
  constructor
  · intro d d' h
    have hpicked : ∀ t < m, picked d.at t = picked d'.at t := by
      intro t ht
      exact congrArg Fin.val (DFunLike.congr_fun h ⟨t, ht⟩)
    funext i
    have hat := draw_eq_of_picked hpicked i i.isLt
    rw [Draws.at, Draws.at, sequence_of_lt _ i.isLt, sequence_of_lt _ i.isLt] at hat
    exact Subtype.ext (Fin.ext hat)
  · intro s
    have hlt : ∀ t < m, sequence s t < n := by
      intro t ht
      rw [sequence_of_lt _ ht]
      exact (s ⟨t, ht⟩).isLt
    have hne : ∀ i < m, ∀ j < m, sequence s i = sequence s j → i = j := by
      intro i hi j hj h
      rw [sequence_of_lt _ hi, sequence_of_lt _ hj] at h
      exact congrArg Fin.val (s.injective (Fin.ext h))
    obtain ⟨draw, hrange, hsel⟩ := exists_draw hlt hne
    have hd : ∃ d : Draws n m, ∀ t < m, d.at t = draw t :=
      ⟨fun i => ⟨⟨draw i, (hrange i i.isLt).2⟩, (hrange i i.isLt).1⟩, fun t ht =>
        sequence_of_lt _ ht⟩
    obtain ⟨d, hd⟩ := hd
    refine ⟨d, ?_⟩
    ext i
    have hpicked : picked d.at i = picked draw i := by
      rw [picked, picked, hd i i.isLt, shuffled_congr fun t ht => hd t (by omega)]
    have hi := hsel i i.isLt
    rw [sequence_of_lt _ i.isLt] at hi
    exact hpicked.trans hi

theorem card_draws (n m : ℕ) : Fintype.card (Draws n m) = n.descFactorial m := by
  rw [Fintype.card_of_bijective selection_bijective, Fintype.card_embedding_eq, Fintype.card_fin,
    Fintype.card_fin]

/-! ### Chances -/

/-- The chance of a sequence of draws that are independent and uniform on what each is drawn
from. -/
def drawsChance (_ : Draws n m) : ℚ :=
  ∏ i : Fin m, 1 / (Fintype.card {j : Fin n // (i : ℕ) ≤ j} : ℚ)

/-- The chance that the positions `s` are picked, in this order. -/
def selectionChance (s : Fin m → Fin n) : ℚ :=
  ∑ d : Draws n m with ⇑(selection d) = s, drawsChance d

theorem drawsChance_eq (d : Draws n m) : drawsChance d = 1 / (n.descFactorial m : ℚ) := by
  rw [drawsChance, Finset.prod_div_distrib, Finset.prod_const_one, ← Nat.cast_prod,
    ← Fintype.card_pi, ← card_draws n m]

theorem selectionChance_eq (s : Fin m ↪ Fin n) :
    selectionChance s = 1 / (n.descFactorial m : ℚ) := by
  obtain ⟨d, hd⟩ := selection_bijective.2 s
  have honly : (Finset.univ.filter fun d' : Draws n m => ⇑(selection d') = s) = {d} := by
    ext d'
    rw [Finset.mem_filter, Finset.mem_singleton, ← hd]
    constructor
    · intro h
      exact selection_bijective.1 (DFunLike.coe_injective h.2)
    · rintro rfl
      exact ⟨Finset.mem_univ _, rfl⟩
  rw [selectionChance, honly, Finset.sum_singleton, drawsChance_eq]

end

end LocalMarks.Lib

import Mathlib.Algebra.GroupWithZero.Nat
import Mathlib.Data.List.Basic
import Mathlib.Algebra.BigOperators.Group.List.Basic
import Mathlib.Algebra.Order.BigOperators.Group.List

/-!
# Sums over the slots of a table

`weight f l` adds a natural number read off every slot. Occupancy, load and per-key
totals of a table are weights for different readings `f`.
-/

namespace LocalMarks.Lib

variable {α : Type*}

def weight (f : α → ℕ) (l : List α) : ℕ := (l.map f).sum

@[simp] theorem weight_nil (f : α → ℕ) : weight f [] = 0 := rfl

@[simp] theorem weight_cons (f : α → ℕ) (a : α) (l : List α) :
    weight f (a :: l) = f a + weight f l := by
  simp only [weight, List.map_cons, List.sum_cons]

@[simp] theorem weight_append (f : α → ℕ) (l r : List α) :
    weight f (l ++ r) = weight f l + weight f r := by
  simp only [weight, List.map_append, List.sum_append]

theorem weight_set (f : α → ℕ) {l : List α} {i : ℕ} {a : α} (b : α) (h : l[i]? = some a) :
    weight f (l.set i b) + f a = weight f l + f b := by
  induction l generalizing i with
  | nil => simp at h
  | cons x l ih =>
    cases i with
    | zero =>
      simp only [List.getElem?_cons_zero, Option.some.injEq] at h
      subst h
      simp only [List.set_cons_zero, weight_cons]
      omega
    | succ i =>
      simp only [List.getElem?_cons_succ] at h
      have := ih h
      simp only [List.set_cons_succ, weight_cons]
      omega

theorem weight_mono {f g : α → ℕ} {l : List α} (h : ∀ a ∈ l, f a ≤ g a) :
    weight f l ≤ weight g l := by
  induction l with
  | nil => exact le_rfl
  | cons x l ih =>
    have hx := h x (List.mem_cons_self ..)
    have hl := ih fun a ha => h a (List.mem_cons_of_mem _ ha)
    simp only [weight_cons]
    omega

theorem weight_congr {f g : α → ℕ} {l : List α} (h : ∀ a ∈ l, f a = g a) :
    weight f l = weight g l :=
  le_antisymm (weight_mono fun a ha => (h a ha).le) (weight_mono fun a ha => (h a ha).ge)

theorem weight_add (f g : α → ℕ) (l : List α) :
    weight (fun a => f a + g a) l = weight f l + weight g l := by
  induction l with
  | nil => rfl
  | cons x l ih =>
    simp only [weight_cons, ih]
    omega

theorem weight_eq_zero {f : α → ℕ} {l : List α} (h : ∀ a ∈ l, f a = 0) : weight f l = 0 := by
  induction l with
  | nil => rfl
  | cons x l ih =>
    rw [weight_cons, h x (List.mem_cons_self ..), ih fun a ha => h a (List.mem_cons_of_mem _ ha)]

theorem weight_const_one (l : List α) : weight (fun _ => 1) l = l.length := by
  induction l with
  | nil => rfl
  | cons x l ih => rw [weight_cons, ih, List.length_cons, Nat.add_comm]

theorem le_weight (f : α → ℕ) {l : List α} {a : α} (h : a ∈ l) : f a ≤ weight f l := by
  induction l with
  | nil => simp at h
  | cons x l ih =>
    rw [weight_cons]
    rcases List.mem_cons.mp h with rfl | h
    · exact Nat.le_add_right _ _
    · exact (ih h).trans (Nat.le_add_left _ _)

theorem exists_of_weight_pos {f : α → ℕ} {l : List α} (h : 0 < weight f l) :
    ∃ a ∈ l, 0 < f a := by
  by_contra hn
  push Not at hn
  have := weight_eq_zero (f := f) (l := l) fun a ha => by have := hn a ha; omega
  omega

theorem exists_of_weight_lt {f : α → ℕ} {l : List α} (h : weight f l < l.length) :
    ∃ (i : ℕ) (a : α), l[i]? = some a ∧ f a = 0 := by
  induction l with
  | nil => simp at h
  | cons x l ih =>
    by_cases hx : f x = 0
    · exact ⟨0, x, rfl, hx⟩
    · have hlt : weight f l < l.length := by
        simp only [weight_cons, List.length_cons] at h
        omega
      obtain ⟨i, a, hi, ha⟩ := ih hlt
      exact ⟨i + 1, a, by simpa using hi, ha⟩

theorem add_le_weight (f : α → ℕ) {l : List α} {i j : ℕ} {a b : α} (hi : l[i]? = some a)
    (hj : l[j]? = some b) (hij : i ≠ j) : f a + f b ≤ weight f l := by
  induction l generalizing i j with
  | nil => simp at hi
  | cons x l ih =>
    rw [weight_cons]
    cases i with
    | zero =>
      cases j with
      | zero => exact absurd rfl hij
      | succ j =>
        simp only [List.getElem?_cons_zero, Option.some.injEq] at hi
        simp only [List.getElem?_cons_succ] at hj
        subst hi
        exact Nat.add_le_add_left (le_weight f (List.mem_of_getElem? hj)) _
    | succ i =>
      cases j with
      | zero =>
        simp only [List.getElem?_cons_zero, Option.some.injEq] at hj
        simp only [List.getElem?_cons_succ] at hi
        subst hj
        have := le_weight f (List.mem_of_getElem? hi)
        omega
      | succ j =>
        simp only [List.getElem?_cons_succ] at hi hj
        have := ih hi hj (by omega)
        omega

/-- When at most one slot reads nonzero, a bound on each reading bounds the total. -/
theorem weight_le_of_unique {f : α → ℕ} {l : List α} {m : ℕ} (hm : ∀ a ∈ l, f a ≤ m)
    (hu : ∀ (i j : ℕ) (a b : α), l[i]? = some a → l[j]? = some b → f a ≠ 0 → f b ≠ 0 → i = j) :
    weight f l ≤ m := by
  induction l with
  | nil => exact Nat.zero_le _
  | cons x l ih =>
    rw [weight_cons]
    have hx := hm x (List.mem_cons_self ..)
    by_cases hz : f x = 0
    · have := ih (fun a ha => hm a (List.mem_cons_of_mem _ ha)) fun i j a b hi hj ha hb => by
        have := hu (i + 1) (j + 1) a b (by simpa using hi) (by simpa using hj) ha hb
        omega
      omega
    · have hrest : weight f l = 0 := weight_eq_zero fun a ha => by
        by_contra hne
        obtain ⟨j, hj⟩ := List.mem_iff_getElem?.mp ha
        have := hu 0 (j + 1) x a rfl (by simpa using hj) hz hne
        omega
      omega

end LocalMarks.Lib

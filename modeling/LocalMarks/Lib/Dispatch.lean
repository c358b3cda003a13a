import Mathlib.Data.List.Basic
import Mathlib.Logic.Function.Basic

/-!
# Dispatchers

Items are handed in by callers, wait in line, are handed out to servers and served, or are
turned away. An item is in one place at a time, so it is served or refused once, never both.
-/

namespace LocalMarks.Lib

/-- `entering` and `handed` are the items callers and servers have in hand. -/
@[ext] structure Dispatch (α : Type*) where
  submitted : List α
  entering : ℕ → Option α
  waiting : List α
  handed : ℕ → Option α
  served : List α
  refused : List α

namespace Dispatch
variable {α : Type*}

inductive Move (d : Dispatch α) : Dispatch α → Prop where
  | submit (p : ℕ) (x : α) (hx : x ∉ d.submitted) (hp : d.entering p = none) :
      Move d { d with
        submitted := d.submitted ++ [x], entering := Function.update d.entering p (some x) }
  | enqueue (p : ℕ) (x : α) (hp : d.entering p = some x) :
      Move d { d with
        entering := Function.update d.entering p none, waiting := d.waiting ++ [x] }
  | hand (i : ℕ) (x : α) (rest : List α) (hw : d.waiting = x :: rest) (hi : d.handed i = none) :
      Move d { d with waiting := rest, handed := Function.update d.handed i (some x) }
  | serve (i : ℕ) (x : α) (hi : d.handed i = some x) :
      Move d { d with handed := Function.update d.handed i none, served := d.served ++ [x] }
  | refuse (p : ℕ) (x : α) (hp : d.entering p = some x) :
      Move d { d with
        entering := Function.update d.entering p none, refused := d.refused ++ [x] }

inductive Place where
  | nowhere
  | entering (p : ℕ)
  | waiting
  | handed (i : ℕ)
  | served
  | refused
  deriving DecidableEq

/-- Still on its way: with a caller, in line, or with a server that has not begun. -/
def Underway (d : Dispatch α) (x : α) : Prop :=
  (∃ p, d.entering p = some x) ∨ x ∈ d.waiting ∨ ∃ i, d.handed i = some x

variable [DecidableEq α]

/-- The items in the hands `f` are the ones whose place is that hand. -/
def Holding (f : ℕ → Option α) (c : ℕ → Place) (place : α → Place) : Prop :=
  ∀ p x, f p = some x ↔ place x = c p

/-- The items of `l` are the ones whose place is `c`, each once. -/
def Once (l : List α) (c : Place) (place : α → Place) : Prop :=
  ∀ x, l.count x = if place x = c then 1 else 0

/-- `place` says of every item where it is, and nothing is in two places. -/
structure Placed (d : Dispatch α) (place : α → Place) : Prop where
  known : ∀ x, x ∈ d.submitted ↔ place x ≠ .nowhere
  entering : Holding d.entering .entering place
  waiting : Once d.waiting .waiting place
  handed : Holding d.handed .handed place
  served : Once d.served .served place
  refused : Once d.refused .refused place

section moves
variable {f : ℕ → Option α} {c : ℕ → Place} {l : List α} {k q : Place} {place : α → Place}
  {p : ℕ} {x : α}

theorem Holding.put (h : Holding f c place) (hc : Function.Injective c) (hp : f p = none)
    (hx : ∀ r, place x ≠ c r) :
    Holding (Function.update f p (some x)) c (Function.update place x (c p)) := by
  intro r y
  by_cases hyx : y = x
  · subst hyx
    rw [Function.update_self]
    by_cases hr : r = p
    · simp [hr]
    · rw [Function.update_of_ne hr, h r y]
      exact ⟨fun hy => absurd hy (hx r), fun hcp => absurd (hc hcp).symm hr⟩
  · rw [Function.update_of_ne hyx]
    by_cases hr : r = p
    · subst hr
      rw [Function.update_self, ← h r y, hp]
      simp [Ne.symm hyx]
    · rw [Function.update_of_ne hr, h r y]

theorem Holding.take (h : Holding f c place) (hc : Function.Injective c) (hp : f p = some x)
    (hq : ∀ r, q ≠ c r) :
    Holding (Function.update f p none) c (Function.update place x q) := by
  intro r y
  by_cases hr : r = p
  · subst hr
    rw [Function.update_self]
    by_cases hyx : y = x
    · simp [hyx, hq]
    · rw [Function.update_of_ne hyx, ← h r y, hp]
      simp [Ne.symm hyx]
  · rw [Function.update_of_ne hr]
    by_cases hyx : y = x
    · subst hyx
      rw [Function.update_self, h r y]
      have hhere : place y = c p := (h p y).mp hp
      exact ⟨fun hy => absurd (hc (hy.symm.trans hhere)) hr, fun hqr => absurd hqr (hq r)⟩
    · rw [Function.update_of_ne hyx, h r y]

theorem Holding.keep (h : Holding f c place) (hx : ∀ r, place x ≠ c r) (hq : ∀ r, q ≠ c r) :
    Holding f c (Function.update place x q) := by
  intro r y
  by_cases hyx : y = x
  · subst hyx
    rw [Function.update_self, h r y]
    exact ⟨fun hy => absurd hy (hx r), fun hy => absurd hy (hq r)⟩
  · rw [Function.update_of_ne hyx, h r y]

theorem Once.add (h : Once l k place) (hx : place x ≠ k) :
    Once (l ++ [x]) k (Function.update place x k) := by
  intro y
  rw [List.count_append, h y]
  by_cases hyx : y = x
  · subst hyx
    rw [Function.update_self, if_neg hx, List.count_singleton_self, if_pos rfl]
  · rw [Function.update_of_ne hyx, List.count_eq_zero_of_not_mem (by simpa using hyx),
      Nat.add_zero]

theorem Once.remove (h : Once (x :: l) k place) (hq : q ≠ k) :
    Once l k (Function.update place x q) := by
  intro y
  have hy := h y
  by_cases hyx : y = x
  · subst hyx
    rw [Function.update_self, if_neg hq]
    rw [List.count_cons_self] at hy
    split at hy <;> omega
  · rw [Function.update_of_ne hyx, ← hy, List.count_cons_of_ne (Ne.symm hyx)]

theorem Once.keep (h : Once l k place) (hx : place x ≠ k) (hq : q ≠ k) :
    Once l k (Function.update place x q) := by
  intro y
  rw [h y]
  by_cases hyx : y = x
  · subst hyx
    rw [Function.update_self, if_neg hx, if_neg hq]
  · rw [Function.update_of_ne hyx]

theorem Once.head (h : Once (x :: l) k place) : place x = k := by
  have hx := h x
  rw [List.count_cons_self] at hx
  by_contra hne
  rw [if_neg hne] at hx
  omega

end moves

variable {d d' : Dispatch α} {place : α → Place}

theorem entering_injective : Function.Injective Place.entering := fun _ _ h => by cases h; rfl
theorem handed_injective : Function.Injective Place.handed := fun _ _ h => by cases h; rfl

theorem known_move {x : α} {q : Place} (h : ∀ y, y ∈ d.submitted ↔ place y ≠ .nowhere)
    (hx : place x ≠ .nowhere) (hq : q ≠ .nowhere) (y : α) :
    y ∈ d.submitted ↔ Function.update place x q y ≠ .nowhere := by
  rw [h y]
  by_cases hyx : y = x
  · subst hyx
    rw [Function.update_self]
    exact ⟨fun _ => hq, fun _ => hx⟩
  · rw [Function.update_of_ne hyx]

theorem Placed.move (hd : Placed d place) (h : Move d d') : ∃ place', Placed d' place' := by
  cases h with
  | submit p x hx hp =>
    have hx0 : place x = .nowhere := by
      by_contra hne
      exact hx ((hd.known x).mpr hne)
    refine ⟨Function.update place x (.entering p), ?_, ?_, ?_, ?_, ?_, ?_⟩
    · intro y
      by_cases hyx : y = x
      · simp [hyx]
      · rw [Function.update_of_ne hyx, ← hd.known y]
        simp [hyx]
    · exact hd.entering.put entering_injective hp (by simp [hx0])
    · exact hd.waiting.keep (by simp [hx0]) (by simp)
    · exact hd.handed.keep (by simp [hx0]) (by simp)
    · exact hd.served.keep (by simp [hx0]) (by simp)
    · exact hd.refused.keep (by simp [hx0]) (by simp)
  | enqueue p x hp =>
    have hx : place x = .entering p := (hd.entering p x).mp hp
    refine ⟨Function.update place x .waiting, known_move hd.known (by simp [hx]) (by simp),
      ?_, ?_, ?_, ?_, ?_⟩
    · exact hd.entering.take entering_injective hp (by simp)
    · exact hd.waiting.add (by simp [hx])
    · exact hd.handed.keep (by simp [hx]) (by simp)
    · exact hd.served.keep (by simp [hx]) (by simp)
    · exact hd.refused.keep (by simp [hx]) (by simp)
  | hand i x rest hw hi =>
    have hwait : Once (x :: rest) .waiting place := hw ▸ hd.waiting
    have hx : place x = .waiting := hwait.head
    refine ⟨Function.update place x (.handed i), known_move hd.known (by simp [hx]) (by simp),
      ?_, ?_, ?_, ?_, ?_⟩
    · exact hd.entering.keep (by simp [hx]) (by simp)
    · exact hwait.remove (by simp)
    · exact hd.handed.put handed_injective hi (by simp [hx])
    · exact hd.served.keep (by simp [hx]) (by simp)
    · exact hd.refused.keep (by simp [hx]) (by simp)
  | serve i x hi =>
    have hx : place x = .handed i := (hd.handed i x).mp hi
    refine ⟨Function.update place x .served, known_move hd.known (by simp [hx]) (by simp),
      ?_, ?_, ?_, ?_, ?_⟩
    · exact hd.entering.keep (by simp [hx]) (by simp)
    · exact hd.waiting.keep (by simp [hx]) (by simp)
    · exact hd.handed.take handed_injective hi (by simp)
    · exact hd.served.add (by simp [hx])
    · exact hd.refused.keep (by simp [hx]) (by simp)
  | refuse p x hp =>
    have hx : place x = .entering p := (hd.entering p x).mp hp
    refine ⟨Function.update place x .refused, known_move hd.known (by simp [hx]) (by simp),
      ?_, ?_, ?_, ?_, ?_⟩
    · exact hd.entering.take entering_injective hp (by simp)
    · exact hd.waiting.keep (by simp [hx]) (by simp)
    · exact hd.handed.keep (by simp [hx]) (by simp)
    · exact hd.served.keep (by simp [hx]) (by simp)
    · exact hd.refused.add (by simp [hx])

theorem Placed.outcome (hd : Placed d place) {x : α} (hx : x ∈ d.submitted) :
    Underway d x ∧ d.served.count x = 0 ∧ d.refused.count x = 0 ∨
      ¬Underway d x ∧ d.served.count x + d.refused.count x = 1 := by
  have hwait : x ∈ d.waiting ↔ place x = .waiting := by
    rw [← List.count_pos_iff, hd.waiting x]
    split <;> simp_all
  simp only [Underway, hd.entering _ x, hd.handed _ x, hwait, hd.served x, hd.refused x]
  cases hp : place x with
  | nowhere => exact absurd hp ((hd.known x).mp hx)
  | entering p => exact .inl ⟨.inl ⟨p, rfl⟩, by simp⟩
  | waiting => exact .inl ⟨.inr (.inl rfl), by simp⟩
  | handed i => exact .inl ⟨.inr (.inr ⟨i, rfl⟩), by simp⟩
  | served => exact .inr (by simp)
  | refused => exact .inr (by simp)

theorem Placed.foreign (hd : Placed d place) {x : α} (hx : x ∉ d.submitted) :
    ¬Underway d x ∧ d.served.count x = 0 ∧ d.refused.count x = 0 := by
  have hp : place x = .nowhere := by
    by_contra hne
    exact hx ((hd.known x).mpr hne)
  have hwait : x ∉ d.waiting := by
    rw [← List.count_eq_zero, hd.waiting x]
    simp [hp]
  simp [Underway, hd.entering _ x, hd.handed _ x, hd.served x, hd.refused x, hwait, hp]

theorem Placed.of_underway (hd : Placed d place) {x : α} (hu : Underway d x) :
    x ∈ d.submitted ∧ d.served.count x = 0 ∧ d.refused.count x = 0 := by
  by_cases hx : x ∈ d.submitted
  · rcases hd.outcome hx with ⟨-, hzero⟩ | ⟨hnot, -⟩
    · exact ⟨hx, hzero⟩
    · exact absurd hu hnot
  · exact absurd hu (hd.foreign hx).1

end Dispatch

end LocalMarks.Lib

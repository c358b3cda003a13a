import Mathlib.Logic.Function.Basic

/-!
# A mutual exclusion lock

`lock` names the thread that has the lock; `holds` says of each thread whether its program
point is one at which it has it. The two agree from the first lock on.
-/

namespace LocalMarks.Lib

variable {τ : Type*} {lock : Option τ} {holds : τ → Bool} {t u : τ} {b : Bool}

/-- The lock is held by exactly the thread whose program point holds it. -/
def Owned (lock : Option τ) (holds : τ → Bool) : Prop := ∀ t, holds t = true ↔ lock = some t

namespace Owned

theorem excl (h : Owned lock holds) (ht : holds t = true) (hu : holds u = true) : t = u :=
  Option.some.inj (((h t).mp ht).symm.trans ((h u).mp hu))

theorem other (h : Owned lock holds) (ht : holds t = true) (hne : u ≠ t) : holds u = false := by
  cases hu : holds u with
  | false => rfl
  | true => exact absurd (h.excl hu ht) hne

variable [DecidableEq τ]

theorem keep (h : Owned lock holds) (hb : b = holds t) :
    Owned lock (Function.update holds t b) := by
  rw [hb, Function.update_eq_self]
  exact h

theorem acquire (h : Owned none holds) : Owned (some t) (Function.update holds t true) := by
  intro u
  have hfree : holds u = false := by
    cases hu : holds u with
    | false => rfl
    | true => cases (h u).mp hu
  by_cases hut : u = t
  · simp [hut]
  · simp [Function.update_of_ne hut, hfree, Ne.symm hut]

theorem release (h : Owned lock holds) (ht : holds t = true) :
    Owned none (Function.update holds t false) := by
  intro u
  by_cases hut : u = t
  · simp [hut]
  · simp [Function.update_of_ne hut, h.other ht hut]

end Owned

end LocalMarks.Lib

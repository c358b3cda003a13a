import Mathlib.Data.Finset.Card

/-!
# A read-write lock

`readers` counts the threads that have the lock for reading and `writer` says whether one has it
for writing; `reads` and `writes` say of each thread whether its program point is one at which it
has it.
-/

namespace LocalMarks.Lib

variable {τ : Type*} {readers : ℕ} {writer : Bool} {reads writes : τ → Bool} {t u : τ}

/-- The lock is held by exactly the threads whose program points hold it. -/
structure RwOwned (readers : ℕ) (writer : Bool) (reads writes : τ → Bool) : Prop where
  counted : ∃ holders : Finset τ, holders.card = readers ∧ ∀ t, reads t = true ↔ t ∈ holders
  locked : ∀ t, writes t = true → writer = true
  sole : ∀ t u, writes t = true → writes u = true → t = u
  excl : writer = true → readers = 0

namespace RwOwned

theorem free (h : RwOwned 0 false reads writes) (t : τ) : reads t = false ∧ writes t = false := by
  obtain ⟨holders, hcard, hmem⟩ := h.counted
  rw [Finset.card_eq_zero] at hcard
  constructor
  · rw [← Bool.not_eq_true, hmem, hcard]
    exact Finset.notMem_empty t
  · rw [← Bool.not_eq_true]
    exact fun ht => Bool.false_ne_true (h.locked t ht)

theorem of_free (hreads : ∀ t, reads t = false) (hwrites : ∀ t, writes t = false) :
    RwOwned 0 false reads writes where
  counted := ⟨∅, Finset.card_empty, fun t => by simp [hreads t]⟩
  locked t ht := absurd ht (by simp [hwrites t])
  sole t _ ht := absurd ht (by simp [hwrites t])
  excl := by rintro ⟨⟩

theorem readers_pos (h : RwOwned readers writer reads writes) (ht : reads t = true) :
    0 < readers := by
  obtain ⟨holders, rfl, hmem⟩ := h.counted
  exact Finset.card_pos.mpr ⟨t, (hmem t).mp ht⟩

theorem not_writes (h : RwOwned readers writer reads writes) (ht : reads t = true) (u : τ) :
    writes u = false := by
  rw [← Bool.not_eq_true]
  intro hu
  exact absurd (h.excl (h.locked u hu)) (h.readers_pos ht).ne'

theorem alone (h : RwOwned readers writer reads writes) (ht : writes t = true) (hne : u ≠ t) :
    reads u = false ∧ writes u = false := by
  constructor
  · rw [← Bool.not_eq_true]
    intro hu
    exact Bool.false_ne_true ((h.not_writes hu t).symm.trans ht)
  · rw [← Bool.not_eq_true]
    exact fun hu => hne (h.sole u t hu ht)

variable [DecidableEq τ]

theorem keep (h : RwOwned readers writer reads writes) {r w : Bool} (hr : r = reads t)
    (hw : w = writes t) :
    RwOwned readers writer (Function.update reads t r) (Function.update writes t w) := by
  rw [hr, hw, Function.update_eq_self, Function.update_eq_self]
  exact h

theorem acquireRead (h : RwOwned readers false reads writes) (ht : reads t = false) :
    RwOwned (readers + 1) false (Function.update reads t true)
      (Function.update writes t false) := by
  obtain ⟨holders, hcard, hmem⟩ := h.counted
  have hfree : ∀ u, writes u = false := fun u => by
    rw [← Bool.not_eq_true]
    exact fun hu => Bool.false_ne_true (h.locked u hu)
  have hwrites : Function.update writes t false = writes := by
    rw [← hfree t, Function.update_eq_self]
  rw [hwrites]
  refine ⟨⟨insert t holders, ?_, fun u => ?_⟩, h.locked, h.sole, by rintro ⟨⟩⟩
  · rw [Finset.card_insert_of_notMem, hcard]
    rw [← hmem, ht]
    exact Bool.false_ne_true
  · by_cases hu : u = t
    · simp [hu]
    · simp [hmem, hu]

theorem releaseRead (h : RwOwned readers writer reads writes) (ht : reads t = true) :
    RwOwned (readers - 1) writer (Function.update reads t false)
      (Function.update writes t false) := by
  obtain ⟨holders, hcard, hmem⟩ := h.counted
  have hwrites : Function.update writes t false = writes := by
    rw [← h.not_writes ht t, Function.update_eq_self]
  rw [hwrites]
  refine ⟨⟨holders.erase t, ?_, fun u => ?_⟩, h.locked, h.sole, fun hw => ?_⟩
  · rw [Finset.card_erase_of_mem ((hmem t).mp ht), hcard]
  · by_cases hu : u = t
    · simp [hu]
    · simp [hmem, hu]
  · rw [h.excl hw]

theorem acquireWrite (h : RwOwned 0 false reads writes) :
    RwOwned 0 true (Function.update reads t false) (Function.update writes t true) := by
  have hreads : Function.update reads t false = reads := by
    rw [← (h.free t).1, Function.update_eq_self]
  rw [hreads]
  have honly : ∀ u, Function.update writes t true u = true → u = t := by
    intro u hu
    by_contra hne
    rw [Function.update_of_ne hne, (h.free u).2] at hu
    exact Bool.false_ne_true hu
  exact ⟨h.counted, fun _ _ => rfl, fun u v hu hv => (honly u hu).trans (honly v hv).symm,
    fun _ => rfl⟩

theorem releaseWrite (h : RwOwned readers writer reads writes) (ht : writes t = true) :
    RwOwned readers false (Function.update reads t false) (Function.update writes t false) := by
  have hreads : Function.update reads t false = reads := by
    have hself : reads t = false := by
      rw [← Bool.not_eq_true]
      intro hr
      exact Bool.false_ne_true ((h.not_writes hr t).symm.trans ht)
    rw [← hself, Function.update_eq_self]
  have hnone : ∀ u, Function.update writes t false u = false := by
    intro u
    by_cases hu : u = t
    · rw [hu, Function.update_self]
    · rw [Function.update_of_ne hu, (h.alone ht hu).2]
  rw [hreads]
  exact ⟨h.counted, fun u hu => absurd hu (by simp [hnone u]),
    fun u v hu => absurd hu (by simp [hnone u]), by rintro ⟨⟩⟩

end RwOwned

end LocalMarks.Lib

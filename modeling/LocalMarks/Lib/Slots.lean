import Mathlib.Data.List.Nodup
import Mathlib.Logic.Function.Basic

/-!
# Slots

A family of states, one for each key. An item changes the slot of its own key, so a whole run can
be followed key by key. And lists in which no key comes twice: an item is found by its key.
-/

namespace LocalMarks.Lib

variable {α β κ : Type*} [DecidableEq κ] {key : α → κ}

/-- One item changes the slot of its key only. -/
def slotwise (key : α → κ) (step : β → α → β) (slots : κ → β) (x : α) : κ → β :=
  Function.update slots (key x) (step (slots (key x)) x)

section
variable {step : β → α → β}

theorem slotwise_self (slots : κ → β) (x : α) :
    slotwise key step slots x (key x) = step (slots (key x)) x := Function.update_self ..

theorem slotwise_of_ne (slots : κ → β) {x : α} {k : κ} (h : k ≠ key x) :
    slotwise key step slots x k = slots k := Function.update_of_ne h ..

theorem slotwise_same {slots : κ → β} {x : α} (h : step (slots (key x)) x = slots (key x)) :
    slotwise key step slots x = slots := by
  rw [slotwise, h, Function.update_eq_self]

theorem foldl_slotwise (xs : List α) (slots : κ → β) (k : κ) :
    xs.foldl (slotwise key step) slots k = (xs.filter (key · = k)).foldl step (slots k) := by
  induction xs generalizing slots with
  | nil => rfl
  | cons x xs ih =>
    rw [List.foldl_cons, ih]
    by_cases h : key x = k
    · subst h
      rw [List.filter_cons_of_pos (by simp), List.foldl_cons, slotwise_self]
    · rw [List.filter_cons_of_neg (by simpa using h), slotwise_of_ne slots (Ne.symm h)]

end

/-! ### Lists without a repeated key -/

theorem find?_key_eq_some {l : List α} (h : (l.map key).Nodup) {k : κ} {x : α} :
    l.find? (key · = k) = some x ↔ x ∈ l ∧ key x = k := by
  constructor
  · intro hx
    exact ⟨List.mem_of_find?_eq_some hx, by simpa using List.find?_some hx⟩
  · rintro ⟨hx, hk⟩
    have hsome : (l.find? (key · = k)).isSome := by
      rw [List.find?_isSome]
      exact ⟨x, hx, decide_eq_true hk⟩
    obtain ⟨y, hy⟩ := Option.isSome_iff_exists.mp hsome
    have hyk : key y = k := by simpa using List.find?_some hy
    rw [hy, List.inj_on_of_nodup_map h (List.mem_of_find?_eq_some hy) hx (hyk.trans hk.symm)]

theorem perm_iff_find? {l l' : List α} (h : (l.map key).Nodup) (h' : (l'.map key).Nodup) :
    l.Perm l' ↔ ∀ k, l.find? (key · = k) = l'.find? (key · = k) := by
  rw [List.perm_ext_iff_of_nodup h.of_map h'.of_map]
  constructor
  · intro hmem k
    apply Option.ext
    intro x
    rw [find?_key_eq_some h, find?_key_eq_some h', hmem]
  · intro hfind x
    have hx : x ∈ l ∧ key x = key x ↔ x ∈ l' ∧ key x = key x := by
      rw [← find?_key_eq_some h, ← find?_key_eq_some h', hfind]
    rwa [and_iff_left rfl, and_iff_left rfl] at hx

theorem map_perm_iff_find? {f : α → α} (hf : ∀ x, key (f x) = key x) {l l' : List α}
    (h : (l.map key).Nodup) (h' : (l'.map key).Nodup) :
    (l.map f).Perm (l'.map f) ↔
      ∀ k, (l.find? (key · = k)).map f = (l'.find? (key · = k)).map f := by
  have hkeys : ∀ m : List α, (m.map f).map key = m.map key := fun m => by
    rw [List.map_map]
    exact List.map_congr_left fun x _ => hf x
  have hfind : ∀ (m : List α) (k : κ), (m.map f).find? (key · = k) =
      (m.find? (key · = k)).map f := fun m k => by
    rw [List.find?_map]
    simp only [Function.comp_def, hf]
  rw [perm_iff_find? ((hkeys l).symm ▸ h) ((hkeys l').symm ▸ h')]
  simp only [hfind]

end LocalMarks.Lib

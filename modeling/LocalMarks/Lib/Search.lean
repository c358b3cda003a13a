import LocalMarks.Lib.CText

/-!
# Where a search finds its first occurrence

`strchr` and `strstr` in terms of the text before the first occurrence, and what a search may
skip.
-/

namespace LocalMarks.Lib

variable {c : Byte} {pat s before after : Bytes}

theorem strchr_some :
    strchr c s = some (before, after) ↔ s = before ++ c :: after ∧ c ∉ before := by
  constructor
  · intro h
    induction s generalizing before with
    | nil => cases h
    | cons x xs ih =>
      unfold strchr at h
      split at h
      · rename_i hx
        cases h
        exact ⟨by rw [hx]; rfl, List.not_mem_nil⟩
      · rename_i hx
        obtain ⟨⟨b, a⟩, hr, heq⟩ := Option.map_eq_some_iff.mp h
        cases heq
        obtain ⟨hxs, hnot⟩ := ih hr
        refine ⟨by rw [hxs]; rfl, ?_⟩
        intro hmem
        rcases List.mem_cons.mp hmem with hc | hc
        · exact hx hc.symm
        · exact hnot hc
  · intro h
    obtain ⟨rfl, hnot⟩ := h
    exact strchr_append after hnot

theorem strchr_none : strchr c s = none ↔ c ∉ s := by
  induction s with
  | nil => exact iff_of_true rfl List.not_mem_nil
  | cons x xs ih =>
    unfold strchr
    split
    · rename_i hx
      exact iff_of_false (fun h => by cases h) fun h => h (hx ▸ List.mem_cons_self ..)
    · rename_i hx
      rw [Option.map_eq_none_iff, ih, List.mem_cons, not_or]
      exact ⟨fun h => ⟨Ne.symm hx, h⟩, And.right⟩

theorem strstr_none : strstr pat s = none ↔ ¬ pat <:+: s := by
  rw [← strstr_isSome, Bool.not_eq_true, Option.isSome_eq_false_iff, Option.isNone_iff_eq_none]

theorem strstr_drop {k : ℕ} (hk : k ≤ s.length) (h : ∀ i < k, ¬ pat <+: s.drop i) :
    strstr pat s = (strstr pat (s.drop k)).map fun r => (s.take k ++ r.1, r.2) := by
  induction k generalizing s with
  | zero =>
    rw [List.drop_zero, List.take_zero]
    exact Option.map_id'.symm
  | succ k ih =>
    cases s with
    | nil => cases hk
    | cons x xs =>
      have hfirst : ¬ pat.isPrefixOf (x :: xs) = true := fun hp =>
        h 0 (Nat.succ_pos k) (List.isPrefixOf_iff_prefix.mp hp)
      have hrest := ih (Nat.le_of_succ_le_succ hk) fun i hi => h (i + 1) (Nat.succ_lt_succ hi)
      rw [strstr, if_neg hfirst, hrest, Option.map_map]
      rfl

theorem strstr_first (h : strstr pat s = some (before, after)) {i : ℕ} (hi : i < before.length) :
    ¬ pat <+: s.drop i := by
  induction s generalizing before i with
  | nil =>
    have hs := congrArg List.length (strstr_some h)
    simp only [List.length_append, List.length_nil] at hs
    omega
  | cons x xs ih =>
    unfold strstr at h
    split at h
    · cases h
      cases hi
    · rename_i hfirst
      obtain ⟨⟨b, a⟩, hr, heq⟩ := Option.map_eq_some_iff.mp h
      cases heq
      cases i with
      | zero => exact fun hp => hfirst (List.isPrefixOf_iff_prefix.mpr hp)
      | succ i => exact ih hr (Nat.lt_of_succ_lt_succ hi)

end LocalMarks.Lib

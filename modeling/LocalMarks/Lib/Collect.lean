import Mathlib.Data.List.Sort

/-!
# Results that are collected and sorted

A partial function is applied to every element of a list, in an order that is not known, and the
results are sorted by a key. When the key tells the results apart, the order does not matter.
-/

namespace LocalMarks.Lib

variable {α β κ : Type*} {f : α → Option β} {l l' : List α}

theorem mapM_eq_some {rs : List β} :
    l.mapM f = some rs ↔ (∀ x ∈ l, (f x).isSome) ∧ rs = l.filterMap f := by
  induction l generalizing rs with
  | nil =>
    rw [List.mapM_nil]
    constructor
    · intro h
      exact ⟨nofun, (Option.some.inj h).symm⟩
    · intro h
      rw [h.2]
      rfl
  | cons x xs ih =>
    rw [List.mapM_cons, List.forall_mem_cons]
    cases hx : f x with
    | none => simp
    | some r =>
      rw [List.filterMap_cons_some hx]
      constructor
      · intro h
        rw [Option.bind_eq_bind, Option.bind_some] at h
        obtain ⟨rest, hrest, hrs⟩ := Option.bind_eq_some_iff.mp h
        obtain ⟨hall, rfl⟩ := ih.mp hrest
        exact ⟨⟨rfl, hall⟩, (Option.some.inj hrs).symm⟩
      · intro h
        rw [h.2, Option.bind_eq_bind, Option.bind_some, ih.mpr ⟨h.1.2, rfl⟩]
        rfl

theorem map_key_mapM {rs : List β} {key : β → α} (hkey : ∀ x r, f x = some r → key r = x)
    (h : l.mapM f = some rs) : rs.map key = l := by
  obtain ⟨hall, rfl⟩ := mapM_eq_some.mp h
  clear h
  induction l with
  | nil => rfl
  | cons x xs ih =>
    obtain ⟨hx, hxs⟩ := List.forall_mem_cons.mp hall
    obtain ⟨r, hr⟩ := Option.isSome_iff_exists.mp hx
    rw [List.filterMap_cons_some hr, List.map_cons, hkey x r hr, ih hxs]

variable [LinearOrder κ]

def sortBy (key : β → κ) (rs : List β) : List β := rs.insertionSort fun a b => key a ≤ key b

theorem sortBy_perm (key : β → κ) (rs : List β) : (sortBy key rs).Perm rs :=
  List.perm_insertionSort _ rs

theorem sortBy_pairwise (key : β → κ) (rs : List β) :
    (sortBy key rs).Pairwise fun a b => key a ≤ key b := by
  have htotal : Std.Total fun a b : β => key a ≤ key b := ⟨fun a b => le_total (key a) (key b)⟩
  have htrans : IsTrans β fun a b : β => key a ≤ key b := ⟨fun _ _ _ => le_trans⟩
  exact List.pairwise_insertionSort _ rs

theorem sortBy_eq {key : β → κ} {rs rs' : List β} (hperm : rs.Perm rs')
    (hkey : ∀ a ∈ rs, ∀ b ∈ rs, key a = key b → a = b) : sortBy key rs = sortBy key rs' := by
  refine List.Perm.eq_of_pairwise (fun a b ha hb hab hba => ?_) (sortBy_pairwise key rs)
    (sortBy_pairwise key rs') ((sortBy_perm key rs).trans (hperm.trans (sortBy_perm key rs').symm))
  have ha' := (sortBy_perm key rs).mem_iff.mp ha
  have hb' := hperm.mem_iff.mpr ((sortBy_perm key rs').mem_iff.mp hb)
  exact hkey a ha' b hb' (le_antisymm hab hba)

/-- The sorted results do not depend on the order in which they are collected. -/
theorem collect_perm {key : β → κ} (hperm : l.Perm l')
    (hkey : ∀ x y a b, f x = some a → f y = some b → key a = key b → a = b) :
    (l.mapM f).map (sortBy key) = (l'.mapM f).map (sortBy key) := by
  have hsort : sortBy key (l.filterMap f) = sortBy key (l'.filterMap f) := by
    refine sortBy_eq (hperm.filterMap f) fun a ha b hb hab => ?_
    obtain ⟨x, -, hx⟩ := List.mem_filterMap.mp ha
    obtain ⟨y, -, hy⟩ := List.mem_filterMap.mp hb
    exact hkey x y a b hx hy hab
  have hall : (∀ x ∈ l, (f x).isSome) ↔ ∀ x ∈ l', (f x).isSome :=
    forall_congr' fun x => imp_congr_left hperm.mem_iff
  ext rs
  simp only [Option.map_eq_some_iff, mapM_eq_some, hall]
  constructor
  · intro h
    obtain ⟨_, ⟨hl, rfl⟩, rfl⟩ := h
    exact ⟨_, ⟨hl, rfl⟩, hsort.symm⟩
  · intro h
    obtain ⟨_, ⟨hl, rfl⟩, rfl⟩ := h
    exact ⟨_, ⟨hl, rfl⟩, hsort⟩

end LocalMarks.Lib

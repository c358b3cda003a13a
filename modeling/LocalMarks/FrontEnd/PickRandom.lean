import LocalMarks.FrontEnd.RandomPool
import LocalMarks.Lib.PartialShuffle
import Mathlib.Data.List.FinRange
import Mathlib.Data.List.Nodup

/-!
# Picking at random (random.js)

`pickRandom` shuffles the front of a copy of its array, as far as it picks.
-/

namespace LocalMarks.FrontEnd.Random
open LocalMarks.Lib LocalMarks.FrontEnd.Browse

variable {α : Type*}

structure Picking (α : Type*) where
  arr : List α
  copy : List α
  result : List α
  deriving DecidableEq

def swapAt (copy : List α) (i j : ℕ) : List α :=
  match copy[i]?, copy[j]? with
  | some x, some y => (copy.set i y).set j x
  | _, _ => copy

def Picking.round (s : Picking α) (i j : ℕ) : Picking α :=
  let copy := swapAt s.copy i j
  { s with copy := copy, result := s.result ++ copy[i]?.toList }

/-- `pickRandom`, where `draw i` is the index that round `i` computes from `Math.random()`. -/
def pickRandom (arr : List α) (k : ℕ) (draw : ℕ → ℕ) : Picking α :=
  (List.range (min k arr.length)).foldl (fun s i => s.round i (draw i)) ⟨arr, arr, []⟩

/-! ### The loop -/

theorem swapAt_getElem? {copy : List α} {i j : ℕ} (hi : i < copy.length) (hj : j < copy.length)
    (p : ℕ) : (swapAt copy i j)[p]? = copy[Equiv.swap i j p]? := by
  have hswap : swapAt copy i j = (copy.set i copy[j]).set j copy[i] := by
    simp only [swapAt, List.getElem?_eq_getElem hi, List.getElem?_eq_getElem hj]
  have hj' : j < (copy.set i copy[j]).length := by rwa [List.length_set]
  rw [hswap]
  by_cases hpj : p = j
  · rw [hpj, Equiv.swap_apply_right, List.getElem?_set_self hj', List.getElem?_eq_getElem hi]
  · rw [List.getElem?_set_ne (Ne.symm hpj)]
    by_cases hpi : p = i
    · rw [hpi, Equiv.swap_apply_left, List.getElem?_set_self hi, List.getElem?_eq_getElem hj]
    · rw [List.getElem?_set_ne (Ne.symm hpi), Equiv.swap_apply_of_ne_of_ne hpi hpj]

theorem swapAt_length (copy : List α) (i j : ℕ) : (swapAt copy i j).length = copy.length := by
  unfold swapAt
  split
  · rw [List.length_set, List.length_set]
  · rfl

/-- The variables after `i` rounds: the copy is shuffled, its front has been picked. -/
structure Shuffled (arr : List α) (draw : ℕ → ℕ) (i : ℕ) (s : Picking α) : Prop where
  arr_eq : s.arr = arr
  length_eq : s.copy.length = arr.length
  copy_eq : ∀ p, s.copy[p]? = arr[shuffled draw i p]?
  result_eq : s.result = (List.range i).flatMap fun t => arr[picked draw t]?.toList

theorem round_shuffled {arr : List α} {draw : ℕ → ℕ} {i : ℕ} {s : Picking α}
    (h : Shuffled arr draw i s) (hi : i < arr.length) (hdraw : draw i < arr.length) :
    Shuffled arr draw (i + 1) (s.round i (draw i)) := by
  have hswap : ∀ p, (swapAt s.copy i (draw i))[p]? = arr[shuffled draw (i + 1) p]? := by
    intro p
    rw [swapAt_getElem? (by rwa [h.length_eq]) (by rwa [h.length_eq]), h.copy_eq, shuffled_succ]
  constructor
  · exact h.arr_eq
  · exact (swapAt_length ..).trans h.length_eq
  · exact hswap
  · rw [List.range_succ, List.flatMap_append, ← h.result_eq, List.flatMap_cons, List.flatMap_nil,
      List.append_nil, ← shuffled_succ_self, ← hswap]
    rfl

theorem pickRandom_shuffled {arr : List α} {k : ℕ} {draw : ℕ → ℕ}
    (hdraw : ∀ t < min k arr.length, t ≤ draw t ∧ draw t < arr.length) :
    Shuffled arr draw (min k arr.length) (pickRandom arr k draw) := by
  have hrun : ∀ i ≤ min k arr.length, Shuffled arr draw i
      ((List.range i).foldl (fun s i => s.round i (draw i)) ⟨arr, arr, []⟩) := by
    intro i hi
    induction i with
    | zero => exact ⟨rfl, rfl, fun p => rfl, rfl⟩
    | succ i ih =>
      have hd := hdraw i (by omega)
      rw [List.range_succ, List.foldl_append]
      exact round_shuffled (ih (by omega)) (by omega) hd.2
  exact hrun _ le_rfl

/-! ### What is picked -/

theorem pickRandom_result (arr : List α) (k : ℕ) (d : Draws arr.length (min k arr.length)) :
    (pickRandom arr k d.at).result = List.ofFn fun i => arr.get (selection d i) := by
  have hget : ∀ i : Fin (min k arr.length),
      arr[picked d.at i]?.toList = [arr.get (selection d i)] := by
    intro i
    exact congrArg Option.toList (List.getElem?_eq_getElem (selection d i).isLt)
  rw [(pickRandom_shuffled d.at_range).result_eq, List.ofFn_eq_map,
    ← List.map_coe_finRange_eq_range, List.flatMap_map, List.map_eq_flatMap]
  simp only [hget]

/-- Whatever is drawn, the elements come from distinct positions of the array, which is left as it
was; every selection of positions comes from one sequence of draws, so that all are equally
likely. -/
theorem pickRandom_selection (arr : List α) (k : ℕ) :
    (∀ d : Draws arr.length (min k arr.length),
      (pickRandom arr k d.at).result = List.ofFn (fun i => arr.get (selection d i)) ∧
        (pickRandom arr k d.at).arr = arr) ∧
    Function.Bijective (selection (n := arr.length) (m := min k arr.length)) ∧
    ∀ s : Fin (min k arr.length) ↪ Fin arr.length,
      selectionChance s = 1 / (arr.length.descFactorial (min k arr.length) : ℚ) := by
  refine ⟨?_, selection_bijective, selectionChance_eq⟩
  intro d
  exact ⟨pickRandom_result arr k d, (pickRandom_shuffled d.at_range).arr_eq⟩

example : (pickRandom ['a', 'b', 'c', 'd'] 2 fun i => i + 2).result = ['c', 'd'] := by decide

theorem pickRandom_subperm (arr : List α) (k : ℕ) (d : Draws arr.length (min k arr.length)) :
    List.Subperm (pickRandom arr k d.at).result arr := by
  have hnodup : (List.ofFn (selection d)).Nodup :=
    List.nodup_ofFn.mpr (selection d).injective
  have hsub : List.Subperm (List.ofFn (selection d)) (List.finRange arr.length) :=
    List.subperm_of_subset hnodup fun p _ => List.mem_finRange p
  obtain ⟨l, hperm, hl⟩ := hsub
  have hmap : (l.map arr.get).Perm ((List.ofFn (selection d)).map arr.get) := hperm.map arr.get
  have hin : (l.map arr.get).Sublist ((List.finRange arr.length).map arr.get) := hl.map arr.get
  rw [List.map_ofFn] at hmap
  rw [List.map_get_finRange] at hin
  rw [pickRandom_result]
  exact ⟨l.map arr.get, hmap, hin⟩

/-! ### The view -/

/-- The bookmarks of a category, when one is chosen, with a tag that contains the text typed. -/
def filterPool (lower : Str → Str) (catFilter tagFilter : Str) (pool : List (Bookmark × Str)) :
    List (Bookmark × Str) :=
  let pool := if catFilter = [] then pool else pool.filter fun bm => bm.2 = catFilter
  if tagFilter = [] then pool
  else pool.filter fun bm => bm.1.tags.any fun t => decide (tagFilter <:+: lower t)

/-- What `render` shows for a count, `none` for NaN; without a positive count it returns before it
has picked. -/
def renderPicked (lower : Str → Str) (pool : List (Bookmark × Str)) (n : Option ℤ)
    (catFilter tag : Str) (draw : ℕ → ℕ) : Option (List (Bookmark × Str)) :=
  n.bind fun n =>
    if n < 1 then none
    else
      let pool := filterPool lower catFilter (lower (trim tag)) pool
      some (pickRandom pool n.toNat draw).result

theorem filterPool_sublist (lower : Str → Str) (catFilter tagFilter : Str)
    (pool : List (Bookmark × Str)) :
    List.Sublist (filterPool lower catFilter tagFilter pool) pool := by
  have hcat : List.Sublist
      (if catFilter = [] then pool else pool.filter fun bm => bm.2 = catFilter) pool := by
    split
    · exact List.Sublist.refl pool
    · exact List.filter_sublist
  unfold filterPool
  dsimp only
  split
  · exact hcat
  · exact List.filter_sublist.trans hcat

/-- A reroll shows bookmarks of the pool, and none more often than it is there. -/
theorem renderPicked_subperm (lower : Str → Str) (pool : List (Bookmark × Str)) (n : ℤ)
    (catFilter tag : Str)
    (d : Draws (filterPool lower catFilter (lower (trim tag)) pool).length
      (min n.toNat (filterPool lower catFilter (lower (trim tag)) pool).length)) :
    ∀ picks ∈ renderPicked lower pool (some n) catFilter tag d.at, List.Subperm picks pool := by
  intro picks hpicks
  rw [renderPicked, Option.bind_some] at hpicks
  split at hpicks
  · cases hpicks
  · cases hpicks
    have hpool := filterPool_sublist lower catFilter (lower (trim tag)) pool
    exact (pickRandom_subperm _ n.toNat d).trans hpool.subperm

end LocalMarks.FrontEnd.Random

import LocalMarks.Lib.Weight
import Mathlib.Data.List.AList

/-!
# Tallies

A tally keeps one integer a key, for keys that have been seen at least once. `Counts t f` says
that `t` holds exactly the positive values of `f`, so that a tally in that relation is determined
up to the order of its entries.
-/

namespace LocalMarks.Lib

variable {α κ : Type*} [DecidableEq κ]

abbrev Tally (κ : Type*) := AList fun _ : κ => ℤ

namespace Tally

/-- The entry of a key, read as zero when there is none. -/
def get (t : Tally κ) (k : κ) : ℤ := (t.lookup k).getD 0

def add (t : Tally κ) (k : κ) (delta : ℤ) : Tally κ := t.insert k (t.get k + delta)

/-- `add`, with the entry dropped once it is no longer positive. -/
def adjust (t : Tally κ) (k : κ) (delta : ℤ) : Tally κ :=
  let t' := t.add k delta
  if t'.get k ≤ 0 then t'.erase k else t'

def addAll (t : Tally κ) (ks : List κ) : Tally κ := ks.foldl (fun t k => t.add k 1) t

def adjustAll (t : Tally κ) (ks : List κ) (delta : ℤ) : Tally κ :=
  ks.foldl (fun t k => t.adjust k delta) t

@[simp] theorem get_add (t : Tally κ) (k : κ) (delta : ℤ) :
    (t.add k delta).get k = t.get k + delta := by
  simp only [get, add, AList.lookup_insert, Option.getD_some]

theorem lookup_add_of_ne {t : Tally κ} {k k' : κ} (h : k' ≠ k) (delta : ℤ) :
    (t.add k delta).lookup k' = t.lookup k' := AList.lookup_insert_ne h

theorem lookup_adjust_of_ne {t : Tally κ} {k k' : κ} (h : k' ≠ k) (delta : ℤ) :
    (t.adjust k delta).lookup k' = t.lookup k' := by
  simp only [adjust]
  split
  · rw [AList.lookup_erase_ne h, lookup_add_of_ne h]
  · exact lookup_add_of_ne h delta

theorem lookup_adjust (t : Tally κ) (k : κ) (delta : ℤ) :
    (t.adjust k delta).lookup k =
      if t.get k + delta ≤ 0 then none else some (t.get k + delta) := by
  simp only [adjust, get_add]
  split
  · exact AList.lookup_erase k _
  · exact AList.lookup_insert _

end Tally

/-- `t` holds the positive values of `f` and nothing else. -/
def Counts (t : Tally κ) (f : κ → ℕ) : Prop :=
  ∀ k, t.lookup k = if f k = 0 then none else some (f k : ℤ)

namespace Counts
variable {t u : Tally κ} {f g : κ → ℕ} {k : κ}

theorem empty : Counts (∅ : Tally κ) fun _ => 0 := fun k => by
  simp only [AList.lookup_empty, ↓reduceIte]

theorem congr (h : Counts t f) (hfg : ∀ k, f k = g k) : Counts t g := fun k => by
  rw [h k, hfg k]

theorem get_eq (h : Counts t f) (k : κ) : t.get k = f k := by
  rw [Tally.get, h k]
  split
  next hz => rw [hz]; rfl
  next => rfl

theorem lookup_eq (ht : Counts t f) (hu : Counts u f) (k : κ) : t.lookup k = u.lookup k := by
  rw [ht k, hu k]

theorem pos (h : Counts t f) {n : ℤ} (hk : t.lookup k = some n) : 0 < n := by
  rw [h k] at hk
  split at hk
  · cases hk
  · have hn := Option.some.inj hk
    omega

theorem update (h : Counts t f) (k : κ) (hoff : ∀ x, x ≠ k → u.lookup x = t.lookup x)
    (hg : ∀ x, x ≠ k → g x = f x)
    (hk : u.lookup k = if g k = 0 then none else some (g k : ℤ)) : Counts u g := fun x => by
  by_cases hx : x = k
  · rw [hx, hk]
  · rw [hoff x hx, hg x hx, h x]

theorem count_singleton_of_ne {k x : κ} (h : x ≠ k) : [k].count x = 0 := by
  simp only [List.count_singleton, beq_iff_eq, Ne.symm h, ↓reduceIte]

theorem add_one (h : Counts t f) (k : κ) :
    Counts (t.add k 1) fun x => f x + [k].count x := by
  apply h.update k
  · exact fun x hx => Tally.lookup_add_of_ne hx 1
  · intro x hx
    show f x + [k].count x = f x
    rw [count_singleton_of_ne hx, Nat.add_zero]
  · rw [Tally.add, AList.lookup_insert, h.get_eq, List.count_singleton_self, if_neg (by omega)]
    rfl

theorem adjust_incr (h : Counts t f) (k : κ) :
    Counts (t.adjust k 1) fun x => f x + [k].count x := by
  apply h.update k
  · exact fun x hx => Tally.lookup_adjust_of_ne hx 1
  · intro x hx
    show f x + [k].count x = f x
    rw [count_singleton_of_ne hx, Nat.add_zero]
  · rw [Tally.lookup_adjust, h.get_eq, List.count_singleton_self, if_neg (by omega),
      if_neg (by omega)]
    rfl

theorem adjust_decr (h : Counts t f) (hk : 0 < f k) :
    Counts (t.adjust k (-1)) fun x => f x - [k].count x := by
  apply h.update k
  · exact fun x hx => Tally.lookup_adjust_of_ne hx (-1)
  · intro x hx
    show f x - [k].count x = f x
    rw [count_singleton_of_ne hx, Nat.sub_zero]
  · rw [Tally.lookup_adjust, h.get_eq, List.count_singleton_self]
    by_cases hone : f k = 1
    · rw [if_pos (by omega), if_pos (by omega)]
    · rw [if_neg (by omega), if_neg (by omega)]
      exact congrArg some (by omega)

theorem count_cons_split (k : κ) (ks : List κ) (x : κ) :
    (k :: ks).count x = [k].count x + ks.count x := by
  rw [← List.singleton_append, List.count_append]

theorem addAll (h : Counts t f) (ks : List κ) :
    Counts (t.addAll ks) fun x => f x + ks.count x := by
  induction ks generalizing t f with
  | nil => exact h
  | cons k ks ih =>
    refine (ih (h.add_one k)).congr fun x => ?_
    rw [count_cons_split k ks x, Nat.add_assoc]

theorem adjustAll_incr (h : Counts t f) (ks : List κ) :
    Counts (t.adjustAll ks 1) fun x => f x + ks.count x := by
  induction ks generalizing t f with
  | nil => exact h
  | cons k ks ih =>
    refine (ih (h.adjust_incr k)).congr fun x => ?_
    rw [count_cons_split k ks x, Nat.add_assoc]

theorem adjustAll_decr {ks : List κ} (h : Counts t f) (hks : ∀ x, ks.count x ≤ f x) :
    Counts (t.adjustAll ks (-1)) fun x => f x - ks.count x := by
  induction ks generalizing t f with
  | nil => exact h
  | cons k ks ih =>
    have hk : 0 < f k := by
      have := hks k
      rw [List.count_cons_self] at this
      omega
    have hrest : ∀ x, ks.count x ≤ f x - [k].count x := fun x => by
      have := hks x
      rw [count_cons_split k ks x] at this
      omega
    refine (ih (h.adjust_decr hk) hrest).congr fun x => ?_
    rw [count_cons_split k ks x]
    omega

end Counts

/-! ### Tallies of the keys of a list of items -/

/-- How often `k` occurs among the keys of an item. -/
def uses (keys : α → List κ) (k : κ) (a : α) : ℕ := (keys a).count k

def Tallies (keys : α → List κ) (t : Tally κ) (items : List α) : Prop :=
  Counts t fun k => weight (uses keys k) items

namespace Tallies
variable {keys : α → List κ} {t : Tally κ} {items items' : List α}

theorem nil : Tallies keys ∅ [] := Counts.empty

theorem perm (h : Tallies keys t items) (hp : items.Perm items') : Tallies keys t items' :=
  Counts.congr h fun k => (hp.map (uses keys k)).sum_eq

theorem addAll (h : Tallies keys t items) (a : α) :
    Tallies keys (t.addAll (keys a)) (items ++ [a]) :=
  (Counts.addAll h (keys a)).congr fun k => by
    rw [weight_append, weight_cons, weight_nil, Nat.add_zero, uses]

theorem adjustAll_incr (h : Tallies keys t items) (a : α) :
    Tallies keys (t.adjustAll (keys a) 1) (items ++ [a]) :=
  (Counts.adjustAll_incr h (keys a)).congr fun k => by
    rw [weight_append, weight_cons, weight_nil, Nat.add_zero, uses]

/-- An item is replaced: its keys are taken back and those of the new one counted. -/
theorem set (h : Tallies keys t items) {i : ℕ} {a : α} (hi : items[i]? = some a) (b : α) :
    Tallies keys ((t.adjustAll (keys a) (-1)).adjustAll (keys b) 1) (items.set i b) := by
  have hle : ∀ k, (keys a).count k ≤ weight (uses keys k) items := fun k =>
    le_weight (uses keys k) (List.mem_of_getElem? hi)
  refine ((Counts.adjustAll_decr h hle).adjustAll_incr (keys b)).congr fun k => ?_
  have hset := weight_set (uses keys k) b hi
  have hk := hle k
  simp only [uses] at hset hk ⊢
  omega

end Tallies

end LocalMarks.Lib

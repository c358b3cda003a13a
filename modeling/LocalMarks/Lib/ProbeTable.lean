import LocalMarks.Lib.LinearProbe
import Mathlib.Data.List.Perm.Basic

/-!
# Filling a probed table

`probeInsert` writes an entry into the first free slot of its probe sequence. A table filled this
way from free slots holds what was inserted, and no free slot lies between an entry and its home.
-/

namespace LocalMarks.Lib

section
variable {α : Type*} {free : α → Bool} {home : ℕ → α → ℕ}

def freeAt (free : α → Bool) (t : List α) (s : ℕ) : Bool := (t[s]?).any free

/-- The entry goes to the first free slot from `h` on; without one the table stays as it is. -/
def probeInsert (free : α → Bool) (h : ℕ) (t : List α) (a : α) : List α :=
  match probeFind t.length h (freeAt free t) with
  | some s => t.set s a
  | none => t

/-- Every slot that is probed before the slot of an entry is taken. -/
def Chained (free : α → Bool) (home : ℕ → α → ℕ) (t : List α) : Prop :=
  ∀ s a, t[s]? = some a → free a = false →
    ∀ b x, ProbeBefore t.length (home t.length a) b s → t[b]? = some x → free x = false

/-- The entries of a list, inserted in turn, each from its own home. -/
def probeFill (free : α → Bool) (home : ℕ → α → ℕ) (t : List α) (es : List α) : List α :=
  es.foldl (fun t a => probeInsert free (home t.length a) t a) t

theorem freeAt_eq_true {t : List α} {s : ℕ} (h : freeAt free t s = true) :
    ∃ x, t[s]? = some x ∧ free x = true := by
  unfold freeAt at h
  cases hx : t[s]? with
  | none => simp [hx] at h
  | some x => exact ⟨x, rfl, by simpa [hx] using h⟩

theorem probeInsert_length (h : ℕ) (t : List α) (a : α) :
    (probeInsert free h t a).length = t.length := by
  unfold probeInsert
  split
  · rw [List.length_set]
  · rfl

theorem probeInsert_mem {h : ℕ} {t : List α} {a x : α} (hx : x ∈ probeInsert free h t a) :
    x ∈ t ∨ x = a := by
  unfold probeInsert at hx
  split at hx
  · exact List.mem_or_eq_of_mem_set hx
  · exact Or.inl hx

/-- With a free slot in the table, the insertion writes one, with no free slot before it. -/
theorem probeInsert_of_room {t : List α} (h : ℕ) (a : α)
    (hroom : (t.filter (!free ·)).length < t.length) :
    ∃ s x, probeInsert free h t a = t.set s a ∧ t[s]? = some x ∧ free x = true ∧
      ∀ b y, ProbeBefore t.length h b s → t[b]? = some y → free y = false := by
  obtain ⟨x, hx, hfx⟩ := List.length_filter_lt_length_iff_exists.mp hroom
  obtain ⟨i, hi⟩ := List.mem_iff_getElem?.mp hx
  have hfi : freeAt free t i = true := by
    rw [freeAt, hi, Option.any_some]
    simpa using hfx
  obtain ⟨s, hs⟩ : ∃ s, probeFind t.length h (freeAt free t) = some s :=
    probeFind_isSome (List.getElem?_eq_some_iff.mp hi).1 hfi
  obtain ⟨-, hp, hbefore⟩ := probeFind_some hs
  obtain ⟨y, hy, hfy⟩ := freeAt_eq_true hp
  refine ⟨s, y, ?_, hy, hfy, ?_⟩
  · simp only [probeInsert, hs]
  · intro b z hb hz
    have := hbefore b hb
    rwa [freeAt, hz, Option.any_some] at this

theorem probeInsert_perm {t : List α} (h : ℕ) {a : α} (ha : free a = false)
    (hroom : (t.filter (!free ·)).length < t.length) :
    ((probeInsert free h t a).filter (!free ·)).Perm (a :: t.filter (!free ·)) := by
  obtain ⟨s, x, heq, hx, hfx, -⟩ := probeInsert_of_room h a hroom
  obtain ⟨hs, hget⟩ := List.getElem?_eq_some_iff.mp hx
  have hnew := (List.set_perm_cons_eraseIdx hs a).filter (!free ·)
  have hold := (List.getElem_cons_eraseIdx_perm hs).filter (!free ·)
  rw [List.filter_cons_of_pos (by rw [ha]; rfl)] at hnew
  rw [hget, List.filter_cons_of_neg (by rw [hfx]; exact Bool.false_ne_true)] at hold
  rw [heq]
  exact hnew.trans (hold.cons a)

theorem probeInsert_chained {t : List α} {a : α} (ha : free a = false)
    (hroom : (t.filter (!free ·)).length < t.length) (h : Chained free home t) :
    Chained free home (probeInsert free (home t.length a) t a) := by
  obtain ⟨s, x, heq, hx, hfx, hbefore⟩ := probeInsert_of_room (home t.length a) a hroom
  obtain ⟨hs, -⟩ := List.getElem?_eq_some_iff.mp hx
  intro i e hi he b y hb hy
  rw [heq] at hi hy
  rw [probeInsert_length] at hb
  -- the slot just written is taken; another slot is as before
  by_cases hbs : b = s
  · subst hbs
    rw [List.getElem?_set_self hs] at hy
    exact Option.some.inj hy ▸ ha
  · rw [List.getElem?_set_ne (Ne.symm hbs)] at hy
    by_cases his : i = s
    · subst his
      rw [List.getElem?_set_self hs] at hi
      exact hbefore b y (Option.some.inj hi ▸ hb) hy
    · rw [List.getElem?_set_ne (Ne.symm his)] at hi
      exact h i e hi he b y hb hy

/-! ### A whole run of insertions -/

theorem probeFill_length (t es : List α) : (probeFill free home t es).length = t.length := by
  induction es generalizing t with
  | nil => rfl
  | cons e es ih =>
    rw [probeFill, List.foldl_cons]
    exact (ih _).trans (probeInsert_length _ t e)

theorem probeFill_mem {t es : List α} {x : α} (hx : x ∈ probeFill free home t es) :
    x ∈ t ∨ x ∈ es := by
  induction es generalizing t with
  | nil => exact Or.inl hx
  | cons e es ih =>
    rcases ih hx with h | h
    · rcases probeInsert_mem h with h | rfl
      · exact Or.inl h
      · exact Or.inr (List.mem_cons_self ..)
    · exact Or.inr (List.mem_cons_of_mem e h)

theorem probeFill_spec {t es : List α} (hes : ∀ e ∈ es, free e = false)
    (hroom : (t.filter (!free ·)).length + es.length ≤ t.length) (h : Chained free home t) :
    ((probeFill free home t es).filter (!free ·)).Perm (es ++ t.filter (!free ·)) ∧
      Chained free home (probeFill free home t es) := by
  induction es generalizing t with
  | nil => exact ⟨List.Perm.refl _, h⟩
  | cons e es ih =>
    rw [List.length_cons] at hroom
    have hlt : (t.filter (!free ·)).length < t.length := by omega
    have he : free e = false := hes e (List.mem_cons_self ..)
    have hperm := probeInsert_perm (home t.length e) he hlt
    have hrec := ih (t := probeInsert free (home t.length e) t e)
      (fun x hx => hes x (List.mem_cons_of_mem e hx))
      (by rw [hperm.length_eq, probeInsert_length, List.length_cons]; omega)
      (probeInsert_chained he hlt h)
    refine ⟨?_, hrec.2⟩
    calc
      ((probeFill free home t (e :: es)).filter (!free ·)).Perm
          (es ++ (probeInsert free (home t.length e) t e).filter (!free ·)) := hrec.1
      List.Perm _ (es ++ e :: t.filter (!free ·)) := hperm.append_left es
      List.Perm _ (e :: es ++ t.filter (!free ·)) := List.perm_middle

theorem Chained.of_free {t : List α} (h : ∀ x ∈ t, free x = true) : Chained free home t := by
  intro s a hs ha
  rw [h a (List.mem_of_getElem? hs)] at ha
  cases ha

end

end LocalMarks.Lib

import Mathlib.Data.Finset.Card
import Mathlib.Data.List.Basic
import Mathlib.Data.Nat.ModEq

/-!
# Linear probing

The probe sequence of an open-addressing table with `n` slots visits
`home, home + 1, ...` modulo `n`. `probeFind` is the loop that stops at the first visited
slot satisfying a test.
-/

namespace LocalMarks.Lib

/-- Slot visited at step `i` of the probe sequence that starts at `home`. -/
def probeSlot (n home i : ℕ) : ℕ := (home + i) % n

/-- The first slot of the probe sequence that satisfies `p`, among `n` steps. -/
def probeFind (n home : ℕ) (p : ℕ → Bool) : Option ℕ :=
  ((List.range n).map (probeSlot n home)).find? p

theorem probeSlot_lt {n : ℕ} (home i : ℕ) (hn : 0 < n) : probeSlot n home i < n :=
  Nat.mod_lt _ hn

theorem probeSlot_surj {n s : ℕ} (home : ℕ) (hs : s < n) : ∃ i < n, probeSlot n home i = s := by
  have hr : home % n < n := Nat.mod_lt _ (by omega)
  by_cases h : home % n ≤ s
  · refine ⟨s - home % n, by omega, ?_⟩
    have hi : s - home % n < n := by omega
    have he : home % n + (s - home % n) = s := by omega
    rw [probeSlot, Nat.add_mod, Nat.mod_eq_of_lt hi, he, Nat.mod_eq_of_lt hs]
  · refine ⟨s + n - home % n, by omega, ?_⟩
    have hi : s + n - home % n < n := by omega
    have he : home % n + (s + n - home % n) = s + n := by omega
    rw [probeSlot, Nat.add_mod, Nat.mod_eq_of_lt hi, he, Nat.add_mod_right, Nat.mod_eq_of_lt hs]

theorem probeSlot_inj {n home i j : ℕ} (hi : i < n) (hj : j < n)
    (h : probeSlot n home i = probeSlot n home j) : i = j := by
  have hm : Nat.ModEq n i j := Nat.ModEq.add_left_cancel' home h
  rwa [Nat.ModEq, Nat.mod_eq_of_lt hi, Nat.mod_eq_of_lt hj] at hm

/-- `a` comes before `b` on the probe sequence of `home`. -/
def ProbeBefore (n home a b : ℕ) : Prop :=
  ∃ i j, i < j ∧ j < n ∧ probeSlot n home i = a ∧ probeSlot n home j = b

theorem ProbeBefore.asymm {n home a b : ℕ} (h : ProbeBefore n home a b) :
    ¬ ProbeBefore n home b a := by
  rintro ⟨j', i', hij', hi', hj', hi''⟩
  obtain ⟨i, j, hij, hj, ha, hb⟩ := h
  have e1 := probeSlot_inj (by omega) hi' (ha.trans hi''.symm)
  have e2 := probeSlot_inj hj (by omega) (hb.trans hj'.symm)
  omega

theorem probeBefore_total {n home a b : ℕ} (ha : a < n) (hb : b < n) (hab : a ≠ b) :
    ProbeBefore n home a b ∨ ProbeBefore n home b a := by
  obtain ⟨i, hi, hia⟩ := probeSlot_surj home ha
  obtain ⟨j, hj, hjb⟩ := probeSlot_surj home hb
  rcases Nat.lt_trichotomy i j with h | h | h
  · exact Or.inl ⟨i, j, h, hj, hia, hjb⟩
  · exact absurd (by rw [← hia, ← hjb, h]) hab
  · exact Or.inr ⟨j, i, h, hi, hjb, hia⟩

/-- What the probe loop stops at: a slot that passes the test, with no such slot before it. -/
theorem probeFind_some {n home s : ℕ} {p : ℕ → Bool} (h : probeFind n home p = some s) :
    s < n ∧ p s = true ∧ ∀ b, ProbeBefore n home b s → p b = false := by
  rw [probeFind, List.find?_eq_some_iff_append] at h
  obtain ⟨hp, as, bs, heq, hno⟩ := h
  have hlen : as.length < n := by
    have := congrArg List.length heq
    simp only [List.length_map, List.length_range, List.length_append, List.length_cons] at this
    omega
  have hget : ∀ i : ℕ, ((List.range n).map (probeSlot n home))[i]? = (as ++ s :: bs)[i]? := by
    intro i
    rw [heq]
  have hs : probeSlot n home as.length = s := by
    have := hget as.length
    simpa [hlen] using this
  refine ⟨hs ▸ probeSlot_lt _ _ (by omega), hp, ?_⟩
  rintro b ⟨i, j, hij, hj, hi, hjs⟩
  have hja : j = as.length := probeSlot_inj hj hlen (hjs.trans hs.symm)
  have hi' : i < as.length := by omega
  have := hget i
  rw [List.getElem?_append_left hi'] at this
  have hin : i < n := by omega
  simp only [List.getElem?_map, List.getElem?_range hin, Option.map_some, hi] at this
  have hmem : b ∈ as := List.mem_of_getElem? this.symm
  simpa using hno b hmem

/-- The probe loop runs through exactly when no slot of the table passes the test. -/
theorem probeFind_none_iff {n home : ℕ} {p : ℕ → Bool} :
    probeFind n home p = none ↔ ∀ s < n, p s = false := by
  rw [probeFind, List.find?_eq_none]
  constructor
  · intro h s hs
    obtain ⟨i, hi, rfl⟩ := probeSlot_surj home hs
    simpa using h _ (List.mem_map.mpr ⟨i, List.mem_range.mpr hi, rfl⟩)
  · intro h x hx
    obtain ⟨i, hi, rfl⟩ := List.mem_map.mp hx
    have hn : 0 < n := by have := List.mem_range.mp hi; omega
    simpa using h _ (probeSlot_lt _ _ hn)

theorem probeFind_isSome {n home s : ℕ} {p : ℕ → Bool} (hs : s < n) (hp : p s = true) :
    ∃ t, probeFind n home p = some t := by
  cases h : probeFind n home p with
  | some t => exact ⟨t, rfl⟩
  | none => rw [probeFind_none_iff.mp h s hs] at hp; contradiction

/-! ### The loop -/

/-- The loop itself: at most `left` slots are visited, from `s` on. -/
def probeLoop (n : ℕ) (p : ℕ → Bool) : ℕ → ℕ → Option ℕ
  | 0, _ => none
  | left + 1, s => if p s then some s else probeLoop n p left ((s + 1) % n)

theorem probeSlot_succ (n home i : ℕ) :
    (probeSlot n home i + 1) % n = probeSlot n home (i + 1) := by
  rw [probeSlot, probeSlot, Nat.mod_add_mod, Nat.add_assoc]

theorem probeLoop_from (n home : ℕ) (p : ℕ → Bool) (left i : ℕ) :
    probeLoop n p left (probeSlot n home i) =
      ((List.range' i left).map (probeSlot n home)).find? p := by
  induction left generalizing i with
  | zero => rfl
  | succ left ih =>
    rw [probeLoop, probeSlot_succ, ih, List.range'_succ, List.map_cons, List.find?_cons]
    cases p (probeSlot n home i) <;> rfl

theorem probeLoop_eq (n home : ℕ) (p : ℕ → Bool) :
    probeLoop n p n (home % n) = probeFind n home p := by
  rw [probeFind, List.range_eq_range']
  exact probeLoop_from n home p n 0

/-! ### Tables that are only added to -/

section
variable {κ : Type*} {n m : ℕ} {home : κ → ℕ} {key : ℕ → κ} {slots : ℕ → Option ℕ}

/-- The slots after the entries `0, ..., m - 1` were stored in turn, each in the first empty slot of
its probe sequence. There is no hole between the home of an entry and its slot, and of two entries
with one key the older one comes first. -/
structure Probed (n : ℕ) (home : κ → ℕ) (key : ℕ → κ) (slots : ℕ → Option ℕ) (m : ℕ) : Prop where
  bounded : ∀ s i, slots s = some i → i < m
  placed : ∀ i < m, ∃ s < n, slots s = some i
  chained : ∀ s i, s < n → slots s = some i → ∀ b, ProbeBefore n (home (key i)) b s → slots b ≠ none
  ordered : ∀ s t i j, s < n → t < n → slots s = some i → slots t = some j → key i = key j →
    i < j → ProbeBefore n (home (key i)) s t
  unique : ∀ s t i, s < n → t < n → slots s = some i → slots t = some i → s = t

theorem Probed.empty (n : ℕ) (home : κ → ℕ) (key : ℕ → κ) :
    Probed n home key (fun _ => none) 0 where
  bounded := nofun
  placed := nofun
  chained := nofun
  ordered := nofun
  unique := nofun

theorem Probed.room (h : Probed n home key slots m) (hm : m < n) : ∃ s < n, slots s = none := by
  by_contra hfull
  have hall : ∀ s < n, ∃ i, slots s = some i := by
    intro s hs
    exact Option.ne_none_iff_exists'.mp fun hnone => hfull ⟨s, hs, hnone⟩
  choose! f hf using hall
  have hmaps : ∀ s ∈ Finset.range n, f s ∈ Finset.range m := by
    intro s hs
    exact Finset.mem_range.mpr (h.bounded s _ (hf s (Finset.mem_range.mp hs)))
  have hinj : Set.InjOn f (Finset.range n) := by
    intro s hs t ht hst
    have hs' := Finset.mem_range.mp hs
    have ht' := Finset.mem_range.mp ht
    exact h.unique s t (f s) hs' ht' (hf s hs') (hst ▸ hf t ht')
  have hcard := Finset.card_le_card_of_injOn f hmaps hinj
  rw [Finset.card_range, Finset.card_range] at hcard
  omega

theorem Probed.insert (h : Probed n home key slots m) {t : ℕ}
    (ht : probeFind n (home (key m)) (fun s => (slots s).isNone) = some t) :
    Probed n home key (Function.update slots t (some m)) (m + 1) := by
  obtain ⟨htn, hempty, hbefore⟩ := probeFind_some ht
  rw [Option.isNone_iff_eq_none] at hempty
  -- an entry of the new table is an old one or the new one
  have hcases : ∀ s i, Function.update slots t (some m) s = some i →
      (s ≠ t ∧ slots s = some i ∧ i < m) ∨ (s = t ∧ i = m) := by
    intro s i hs
    by_cases hst : s = t
    · subst hst
      rw [Function.update_self] at hs
      exact Or.inr ⟨rfl, (Option.some.inj hs).symm⟩
    · rw [Function.update_of_ne hst] at hs
      exact Or.inl ⟨hst, hs, h.bounded s i hs⟩
  have hkeep : ∀ b, slots b ≠ none → Function.update slots t (some m) b ≠ none := by
    intro b hb
    by_cases hbt : b = t
    · rw [hbt, Function.update_self]
      exact Option.some_ne_none m
    · rwa [Function.update_of_ne hbt]
  constructor
  · intro s i hs
    rcases hcases s i hs with ⟨-, -, hi⟩ | ⟨-, hi⟩ <;> omega
  · intro i hi
    by_cases him : i = m
    · exact ⟨t, htn, him ▸ Function.update_self t (some i) slots⟩
    · obtain ⟨s, hs, hslot⟩ := h.placed i (by omega)
      have hst : s ≠ t := by
        rintro rfl
        rw [hempty] at hslot
        cases hslot
      exact ⟨s, hs, by rwa [Function.update_of_ne hst]⟩
  · intro s i hs hslot b hb
    rcases hcases s i hslot with ⟨-, hold, -⟩ | ⟨rfl, rfl⟩
    · exact hkeep b (h.chained s i hs hold b hb)
    · apply hkeep b
      have hfull := hbefore b hb
      rw [← Option.isSome_iff_ne_none, ← Option.not_isNone, hfull]
      rfl
  · intro s s' i j hs hs' hi hj hkey hij
    rcases hcases s i hi with ⟨hst, hold, him⟩ | ⟨-, him⟩
    · rcases hcases s' j hj with ⟨-, hold', -⟩ | ⟨rfl, rfl⟩
      · exact h.ordered s s' i j hs hs' hold hold' hkey hij
      · have horder : ProbeBefore n (home (key i)) s s' ∨ ProbeBefore n (home (key i)) s' s :=
          probeBefore_total hs hs' hst
        rcases horder with hlt | hlt
        · exact hlt
        · exact absurd hempty (h.chained s i hs hold s' hlt)
    · rcases hcases s' j hj with ⟨-, -, hjm⟩ | ⟨-, hjm⟩ <;> omega
  · intro s s' i hs hs' hi hi'
    rcases hcases s i hi with ⟨-, hold, him⟩ | ⟨hst, him⟩
    · rcases hcases s' i hi' with ⟨-, hold', -⟩ | ⟨-, him'⟩
      · exact h.unique s s' i hs hs' hold hold'
      · omega
    · rcases hcases s' i hi' with ⟨-, -, him'⟩ | ⟨hst', -⟩
      · omega
      · rw [hst, hst']

/-- Probing up to the first hole or the first entry with the key finds what a search through the
entries in order finds. -/
theorem Probed.lookup [DecidableEq κ] (h : Probed n home key slots m) (k : κ) :
    (probeFind n (home k) fun s => (slots s).all fun i => key i = k).bind slots =
      (List.range m).find? fun i => key i = k := by
  -- where an entry with the key is, the probe stops
  have hstop : ∀ s i, slots s = some i → key i = k →
      ((slots s).all fun i => key i = k) = true := by
    intro s i hs hk
    rw [hs, Option.all_some, hk]
    exact decide_eq_true rfl
  cases hfind : probeFind n (home k) fun s => (slots s).all fun i => key i = k with
  | none =>
    have hpass := probeFind_none_iff.mp hfind
    symm
    rw [Option.bind_none, List.find?_range_eq_none]
    intro i hi
    obtain ⟨s, hs, hslot⟩ := h.placed i hi
    rw [Bool.not_eq_true', decide_eq_false_iff_not]
    intro hk
    exact Bool.false_ne_true ((hpass s hs).symm.trans (hstop s i hslot hk))
  | some s =>
    obtain ⟨hs, hp, hbefore⟩ := probeFind_some hfind
    have hpass : ∀ t i, slots t = some i → key i = k → ¬ ProbeBefore n (home k) t s := by
      intro t i ht hk hlt
      exact Bool.false_ne_true ((hbefore t hlt).symm.trans (hstop t i ht hk))
    rw [Option.bind_some]
    symm
    cases hslot : slots s with
    | none =>
      rw [List.find?_range_eq_none]
      intro i hi
      obtain ⟨t, ht, htslot⟩ := h.placed i hi
      rw [Bool.not_eq_true', decide_eq_false_iff_not]
      intro hk
      have hts : t ≠ s := by
        rintro rfl
        rw [hslot] at htslot
        cases htslot
      have horder : ProbeBefore n (home k) t s ∨ ProbeBefore n (home k) s t :=
        probeBefore_total ht hs hts
      rcases horder with hlt | hlt
      · exact hpass t i htslot hk hlt
      · exact h.chained t i ht htslot s (hk ▸ hlt) hslot
    | some i =>
      have hk : key i = k := by
        rw [hslot, Option.all_some] at hp
        exact of_decide_eq_true hp
      rw [List.find?_range_eq_some]
      refine ⟨decide_eq_true hk, List.mem_range.mpr (h.bounded s i hslot), ?_⟩
      intro j hj
      rw [Bool.not_eq_true', decide_eq_false_iff_not]
      intro hkj
      obtain ⟨t, ht, htslot⟩ := h.placed j (Nat.lt_trans hj (h.bounded s i hslot))
      have hlt := h.ordered t s j i ht hs htslot hslot (hkj.trans hk.symm) hj
      exact hpass t j htslot hkj (hkj ▸ hlt)

end

end LocalMarks.Lib

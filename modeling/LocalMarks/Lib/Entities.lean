import Mathlib.Data.List.Infix

/-!
# Escaping with entities

A table gives, for each symbol that is escaped, the entity that stands for it. All entities begin
with one mark, which is escaped itself, so that a text with entities in it can be read back.
-/

namespace LocalMarks.Lib

section
variable {α : Type*} {mark : α} {table : List (α × List α)}

/-- A table whose entities can be told apart in a text, and from the rest of it. -/
structure EntityTable (mark : α) (table : List (α × List α)) : Prop where
  /-- The mark of an entity is the only symbol in it that is escaped. -/
  marked : ∀ p ∈ table, ∃ t, p.2 = mark :: t ∧ ∀ q ∈ table, q.1 ∉ t
  escaped : ∃ p ∈ table, p.1 = mark
  prefixFree : ∀ p ∈ table, ∀ q ∈ table, p.2 <+: q.2 → p = q

/-- The mark is escaped, so it is not left as it is, and it stands in no entity but at its head. -/
theorem EntityTable.ne_mark (h : EntityTable mark table) {x : α} (hx : ∀ p ∈ table, p.1 ≠ x) :
    mark ≠ x := by
  obtain ⟨m, hm, rfl⟩ := h.escaped
  exact hx m hm

theorem EntityTable.mark_not_mem (h : EntityTable mark table) {t : List α}
    (ht : ∀ q ∈ table, q.1 ∉ t) : mark ∉ t := by
  obtain ⟨m, hm, rfl⟩ := h.escaped
  exact ht m hm

variable [DecidableEq α]

/-- Every occurrence of `c` replaced by `r`. -/
def replaceAll (c : α) (r s : List α) : List α := s.flatMap fun x => if x = c then r else [x]

def entityOf (table : List (α × List α)) (x : α) : List α :=
  match table.find? fun p => p.1 = x with
  | some p => p.2
  | none => [x]

/-- All symbols of the table replaced at once. -/
def escapeWith (table : List (α × List α)) (s : List α) : List α := s.flatMap (entityOf table)

/-- Reading from the left, with so many symbols of an entity to skip. -/
def unescapeFrom (table : List (α × List α)) : ℕ → List α → List α
  | _, [] => []
  | skip + 1, _ :: s => unescapeFrom table skip s
  | 0, x :: s =>
    match table.find? fun p => p.2.isPrefixOf (x :: s) with
    | some p => p.1 :: unescapeFrom table (p.2.length - 1) s
    | none => x :: unescapeFrom table 0 s

/-- Every entity replaced by its symbol. -/
def unescapeWith (table : List (α × List α)) (s : List α) : List α := unescapeFrom table 0 s

/-! ### One symbol -/

theorem entityOf_cases (table : List (α × List α)) (x : α) :
    (∃ p ∈ table, p.1 = x ∧ entityOf table x = p.2) ∨
      ((∀ p ∈ table, p.1 ≠ x) ∧ entityOf table x = [x]) := by
  unfold entityOf
  cases hf : table.find? fun p => p.1 = x with
  | none =>
    rw [List.find?_eq_none] at hf
    exact Or.inr ⟨fun p hp => by simpa using hf p hp, rfl⟩
  | some p =>
    exact Or.inl ⟨p, List.mem_of_find?_eq_some hf, by simpa using List.find?_some hf, rfl⟩

theorem entityOf_plain {x : α} (h : ∀ p ∈ table, p.1 ≠ x) : entityOf table x = [x] := by
  rcases entityOf_cases table x with ⟨p, hp, hx, -⟩ | ⟨-, he⟩
  · exact absurd hx (h p hp)
  · exact he

theorem escapeWith_plain {s : List α} (h : ∀ p ∈ table, p.1 ∉ s) : escapeWith table s = s := by
  induction s with
  | nil => rfl
  | cons x s ih =>
    have hx : ∀ p ∈ table, p.1 ≠ x := fun p hp heq => h p hp (heq ▸ List.mem_cons_self ..)
    have hs : ∀ p ∈ table, p.1 ∉ s := fun p hp hmem => h p hp (List.mem_cons_of_mem x hmem)
    rw [escapeWith, List.flatMap_cons, entityOf_plain hx]
    exact congrArg (x :: ·) (ih hs)

/-! ### One replacement after the other -/

/-- Replacing symbol by symbol escapes the text, as long as no entity contains a symbol that is
replaced after it. -/
theorem foldl_replaceAll (h : table.Pairwise fun p q => q.1 ∉ p.2) (s : List α) :
    table.foldl (fun s p => replaceAll p.1 p.2 s) s = escapeWith table s := by
  induction table generalizing s with
  | nil => exact (escapeWith_plain fun p hp => absurd hp List.not_mem_nil).symm
  | cons p ps ih =>
    obtain ⟨hp, hps⟩ := List.pairwise_cons.mp h
    rw [List.foldl_cons, ih hps, replaceAll, escapeWith, escapeWith, List.flatMap_assoc]
    congr 1
    funext x
    by_cases hx : x = p.1
    · have hfind : (p :: ps).find? (fun q => q.1 = x) = some p :=
        List.find?_cons_of_pos (decide_eq_true hx.symm)
      rw [if_pos hx, entityOf, hfind]
      exact escapeWith_plain hp
    · have hfind : (p :: ps).find? (fun q => q.1 = x) = ps.find? fun q => q.1 = x :=
        List.find?_cons_of_neg (by simpa using Ne.symm hx)
      rw [if_neg hx, List.flatMap_cons, List.flatMap_nil, List.append_nil, entityOf, entityOf,
        hfind]

/-! ### Reading back -/

theorem unescapeFrom_skip (t s : List α) :
    unescapeFrom table t.length (t ++ s) = unescapeFrom table 0 s := by
  induction t with
  | nil => rfl
  | cons x t ih =>
    rw [List.length_cons, List.cons_append, unescapeFrom]
    exact ih

theorem EntityTable.unescape_entity (h : EntityTable mark table) {p : α × List α} (hp : p ∈ table)
    (s : List α) : unescapeFrom table 0 (p.2 ++ s) = p.1 :: unescapeFrom table 0 s := by
  obtain ⟨t, ht, -⟩ := h.marked p hp
  -- the entities are read without looking ahead, so it is this one that is found
  have hfind : (table.find? fun q => q.2.isPrefixOf (mark :: (t ++ s))) = some p := by
    have hself : p.2.isPrefixOf (mark :: (t ++ s)) = true := by
      rw [ht, List.isPrefixOf_iff_prefix, List.cons_prefix_cons]
      exact ⟨rfl, List.prefix_append t s⟩
    cases hf : table.find? fun q => q.2.isPrefixOf (mark :: (t ++ s)) with
    | none => exact absurd hself (by simpa using List.find?_eq_none.mp hf p hp)
    | some q =>
      have hq := List.mem_of_find?_eq_some hf
      have hqpre : q.2 <+: mark :: (t ++ s) := by simpa using List.find?_some hf
      have hppre := List.isPrefixOf_iff_prefix.mp hself
      rcases List.prefix_or_prefix_of_prefix hqpre hppre with hqp | hpq
      · rw [h.prefixFree q hq p hp hqp]
      · rw [h.prefixFree p hp q hq hpq]
  rw [ht, List.cons_append, unescapeFrom, hfind]
  dsimp only
  rw [ht, List.length_cons, Nat.add_sub_cancel, unescapeFrom_skip]

theorem EntityTable.unescape_plain (h : EntityTable mark table) {x : α}
    (hx : ∀ p ∈ table, p.1 ≠ x) (s : List α) :
    unescapeFrom table 0 (x :: s) = x :: unescapeFrom table 0 s := by
  have hnone : (table.find? fun q => q.2.isPrefixOf (x :: s)) = none := by
    rw [List.find?_eq_none]
    intro q hq hpre
    obtain ⟨t, ht, -⟩ := h.marked q hq
    rw [List.isPrefixOf_iff_prefix, ht, List.cons_prefix_cons] at hpre
    exact h.ne_mark hx hpre.1
  rw [unescapeFrom, hnone]

theorem EntityTable.unescape_escape (h : EntityTable mark table) (s : List α) :
    unescapeWith table (escapeWith table s) = s := by
  induction s with
  | nil => rfl
  | cons x s ih =>
    unfold unescapeWith at *
    rw [escapeWith, List.flatMap_cons]
    rcases entityOf_cases table x with ⟨p, hp, rfl, he⟩ | ⟨hx, he⟩
    · rw [he, h.unescape_entity hp]
      exact congrArg (p.1 :: ·) ih
    · rw [he, List.singleton_append, h.unescape_plain hx]
      exact congrArg (x :: ·) ih

theorem EntityTable.escape_injective (h : EntityTable mark table) {s t : List α}
    (heq : escapeWith table s = escapeWith table t) : s = t := by
  rw [← h.unescape_escape s, heq, h.unescape_escape]

/-! ### What is left in an escaped text -/

theorem EntityTable.not_mem (h : EntityTable mark table) {p : α × List α} (hp : p ∈ table)
    (hne : p.1 ≠ mark) (s : List α) : p.1 ∉ escapeWith table s := by
  intro hmem
  obtain ⟨x, -, hx⟩ := List.mem_flatMap.mp hmem
  rcases entityOf_cases table x with ⟨q, hq, -, he⟩ | ⟨hplain, he⟩
  · obtain ⟨t, ht, hclean⟩ := h.marked q hq
    rw [he, ht, List.mem_cons] at hx
    exact hx.elim hne (hclean p hp)
  · rw [he, List.mem_singleton] at hx
    exact hplain p hp hx

theorem EntityTable.mark_begins (h : EntityTable mark table) {s pre post : List α}
    (heq : escapeWith table s = pre ++ mark :: post) : ∃ p ∈ table, p.2 <+: mark :: post := by
  induction s generalizing pre with
  | nil => simp [escapeWith] at heq
  | cons x s ih =>
    rw [escapeWith, List.flatMap_cons, List.append_eq_append_iff] at heq
    rcases heq with ⟨rest, -, hrest⟩ | ⟨rest, hx, hrest⟩
    · exact ih hrest
    · cases rest with
      | nil =>
        have hnext : escapeWith table s = [] ++ mark :: post := hrest.symm
        exact ih hnext
      | cons y rest =>
        obtain ⟨rfl, rfl⟩ := List.cons.inj hrest
        -- the mark is in what stands for `x`
        rcases entityOf_cases table x with ⟨p, hp, -, he⟩ | ⟨hplain, he⟩
        · obtain ⟨t, ht, hclean⟩ := h.marked p hp
          rw [he, ht] at hx
          cases pre with
          | nil => exact ⟨p, hp, ht ▸ hx ▸ List.prefix_append _ _⟩
          | cons z pre =>
            have hmem : mark ∈ t := by
              rw [(List.cons.inj hx).2]
              exact List.mem_append_right pre (List.mem_cons_self ..)
            exact absurd hmem (h.mark_not_mem hclean)
        · have hmem : mark ∈ [x] := by
            rw [← he, hx]
            exact List.mem_append_right pre (List.mem_cons_self ..)
          exact absurd (List.mem_singleton.mp hmem) (h.ne_mark hplain)

end

end LocalMarks.Lib

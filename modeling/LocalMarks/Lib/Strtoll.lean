import LocalMarks.Lib.CText

/-!
# Numbers at the head of a text

What `strtoll` makes of a text, in terms of how the text is put together.
-/

namespace LocalMarks.Lib

/-- The text begins with a number: blanks, perhaps a sign, and digits up to the first character
that is none. -/
def HasNumber (s : Bytes) (z : ℤ) : Prop :=
  ∃ blanks sign digits rest : Bytes, s = blanks ++ (sign ++ (digits ++ rest)) ∧
    (∀ c ∈ blanks, isSpace c = true) ∧ (sign = [] ∨ sign = [43] ∨ sign = [45]) ∧
    digits ≠ [] ∧ (∀ c ∈ digits, isDigit c = true) ∧ (∀ c ∈ rest.head?, isDigit c = false) ∧
    z = if sign = [45] then -(digitsValue digits : ℤ) else digitsValue digits

theorem digit_ok : ∀ c, isDigit c = true → isSpace c = false ∧ c ≠ 43 ∧ c ≠ 45 := by
  apply every_byte
  decide +kernel

theorem takeWhile_digits {digits rest : Bytes} (h : ∀ c ∈ digits, isDigit c = true)
    (hrest : ∀ c ∈ rest.head?, isDigit c = false) :
    (digits ++ rest).takeWhile isDigit = digits ∧ (digits ++ rest).dropWhile isDigit = rest := by
  induction digits with
  | nil =>
    cases rest with
    | nil => exact ⟨rfl, rfl⟩
    | cons c cs =>
      have hc := hrest c rfl
      rw [List.nil_append, List.takeWhile_cons, List.dropWhile_cons, hc]
      exact ⟨rfl, rfl⟩
  | cons d ds ih =>
    have hd := h d (List.mem_cons_self ..)
    obtain ⟨htake, hdrop⟩ := ih fun c hc => h c (List.mem_cons_of_mem _ hc)
    rw [List.cons_append, List.takeWhile_cons, List.dropWhile_cons, hd, if_pos rfl, if_pos rfl,
      htake]
    exact ⟨rfl, hdrop⟩

theorem dropWhile_blanks {blanks s : Bytes} (h : ∀ c ∈ blanks, isSpace c = true)
    (hs : ∀ c ∈ s.head?, isSpace c = false) : (blanks ++ s).dropWhile isSpace = s := by
  induction blanks with
  | nil =>
    cases s with
    | nil => rfl
    | cons c cs => rw [List.nil_append, List.dropWhile_cons, hs c rfl, if_neg Bool.false_ne_true]
  | cons b bs ih =>
    rw [List.cons_append, List.dropWhile_cons, h b (List.mem_cons_self ..), if_pos rfl]
    exact ih fun c hc => h c (List.mem_cons_of_mem _ hc)

theorem strtoll_parts {blanks sign digits rest : Bytes}
    (hblanks : ∀ c ∈ blanks, isSpace c = true) (hsign : sign = [] ∨ sign = [43] ∨ sign = [45])
    (hne : digits ≠ []) (hdigits : ∀ c ∈ digits, isDigit c = true)
    (hrest : ∀ c ∈ rest.head?, isDigit c = false) :
    strtoll (blanks ++ (sign ++ (digits ++ rest))) =
      (if sign = [45] then -(digitsValue digits : ℤ) else digitsValue digits, rest) := by
  obtain ⟨d, ds, rfl⟩ := List.exists_cons_of_ne_nil hne
  obtain ⟨hspace, hplus, hminus⟩ := digit_ok d (hdigits d (List.mem_cons_self ..))
  obtain ⟨htake, htail⟩ := takeWhile_digits hdigits hrest
  have hdrop : (blanks ++ (sign ++ (d :: ds ++ rest))).dropWhile isSpace =
      sign ++ (d :: ds ++ rest) := by
    apply dropWhile_blanks hblanks
    intro c hc
    rcases hsign with rfl | rfl | rfl <;> cases hc
    · exact hspace
    · rfl
    · rfl
  have hread : readSign (sign ++ (d :: ds ++ rest)) =
      (decide (sign = [45]), d :: ds ++ rest) := by
    rcases hsign with rfl | rfl | rfl
    · rw [List.nil_append, List.cons_append]
      unfold readSign
      split
      · rename_i heq
        cases heq
        exact absurd rfl hminus
      · rename_i heq
        cases heq
        exact absurd rfl hplus
      · rfl
    · rfl
    · rfl
  unfold strtoll
  rw [hdrop, hread]
  dsimp only
  rw [htake, htail, if_neg (List.cons_ne_nil _ _)]
  rcases hsign with rfl | rfl | rfl <;> rfl

theorem strtoll_number {s : Bytes} {z : ℤ} (h : HasNumber s z) : (strtoll s).1 = z := by
  obtain ⟨blanks, sign, digits, rest, rfl, hblanks, hsign, hne, hdigits, hrest, rfl⟩ := h
  rw [strtoll_parts hblanks hsign hne hdigits hrest]

theorem readSign_split (t : Bytes) :
    ∃ sign, (sign = [] ∨ sign = [43] ∨ sign = [45]) ∧ t = sign ++ (readSign t).2 := by
  unfold readSign
  split
  · exact ⟨[45], Or.inr (Or.inr rfl), rfl⟩
  · exact ⟨[43], Or.inr (Or.inl rfl), rfl⟩
  · exact ⟨[], Or.inl rfl, rfl⟩

theorem strtoll_splits (s : Bytes) :
    strtoll s = (0, s) ∨ ∃ blanks sign digits rest, s = blanks ++ (sign ++ (digits ++ rest)) ∧
      (∀ c ∈ blanks, isSpace c = true) ∧ (sign = [] ∨ sign = [43] ∨ sign = [45]) ∧
      digits ≠ [] ∧ (∀ c ∈ digits, isDigit c = true) ∧
      (∀ c ∈ rest.head?, isDigit c = false) := by
  obtain ⟨sign, hsign, hsplit⟩ := readSign_split (s.dropWhile isSpace)
  by_cases hne : (readSign (s.dropWhile isSpace)).2.takeWhile isDigit = []
  · left
    unfold strtoll
    dsimp only
    rw [if_pos hne]
  · right
    refine ⟨s.takeWhile isSpace, sign, _,
      (readSign (s.dropWhile isSpace)).2.dropWhile isDigit, ?_, ?_, hsign, hne, ?_, ?_⟩
    · rw [List.takeWhile_append_dropWhile, ← hsplit, List.takeWhile_append_dropWhile]
    · exact fun c hc => List.mem_takeWhile_imp hc
    · exact fun c hc => List.mem_takeWhile_imp hc
    · intro c hc
      have hnot := List.head?_dropWhile_not isDigit (readSign (s.dropWhile isSpace)).2
      rw [Option.mem_def.mp hc] at hnot
      exact hnot

theorem strtoll_none {s : Bytes} (h : ∀ z, ¬ HasNumber s z) : (strtoll s).1 = 0 := by
  rcases strtoll_splits s with hzero | ⟨blanks, sign, digits, rest, hs, hblanks, hsign, hne,
    hdigits, hrest⟩
  · rw [hzero]
  · exact absurd ⟨blanks, sign, digits, rest, hs, hblanks, hsign, hne, hdigits, hrest, rfl⟩ (h _)

/-- The whole text is a number: blanks, perhaps a sign, and digits. -/
def WholeNumber (s : Bytes) (z : ℤ) : Prop :=
  ∃ blanks sign digits : Bytes, s = blanks ++ (sign ++ digits) ∧
    (∀ c ∈ blanks, isSpace c = true) ∧ (sign = [] ∨ sign = [43] ∨ sign = [45]) ∧
    digits ≠ [] ∧ (∀ c ∈ digits, isDigit c = true) ∧
    z = if sign = [45] then -(digitsValue digits : ℤ) else digitsValue digits

theorem strtoll_whole {s : Bytes} {z : ℤ} (hs : s ≠ []) :
    strtoll s = (z, []) ↔ WholeNumber s z := by
  constructor
  · intro h
    rcases strtoll_splits s with hzero | ⟨blanks, sign, digits, rest, rfl, hblanks, hsign, hne,
      hdigits, hrest⟩
    · rw [hzero] at h
      exact absurd (congrArg Prod.snd h) hs
    · rw [strtoll_parts hblanks hsign hne hdigits hrest] at h
      obtain ⟨rfl, rfl⟩ := Prod.mk.inj h
      exact ⟨blanks, sign, digits, by rw [List.append_nil], hblanks, hsign, hne, hdigits, rfl⟩
  · intro h
    obtain ⟨blanks, sign, digits, rfl, hblanks, hsign, hne, hdigits, rfl⟩ := h
    have hrest : ∀ c ∈ ([] : Bytes).head?, isDigit c = false := nofun
    have hall := strtoll_parts hblanks hsign hne hdigits hrest
    rwa [List.append_nil] at hall

theorem WholeNumber.ne_nil {s : Bytes} {z : ℤ} (h : WholeNumber s z) : s ≠ [] := by
  obtain ⟨blanks, sign, digits, rfl, -, -, hne, -⟩ := h
  simp [hne]

theorem WholeNumber.unique {s : Bytes} {i j : ℤ} (hi : WholeNumber s i) (hj : WholeNumber s j) :
    i = j := by
  have h := (strtoll_whole hi.ne_nil).mpr hi
  rw [(strtoll_whole hi.ne_nil).mpr hj] at h
  exact (congrArg Prod.fst h).symm

/-- A text of decimal digits, at least one. -/
def Digits (s : Bytes) : Prop := s ≠ [] ∧ ∀ c ∈ s, isDigit c = true

instance (s : Bytes) : Decidable (Digits s) :=
  inferInstanceAs (Decidable (s ≠ [] ∧ ∀ c ∈ s, isDigit c = true))

theorem Digits.whole {s : Bytes} (h : Digits s) : WholeNumber s (digitsValue s) :=
  ⟨[], [], s, rfl, nofun, Or.inl rfl, h.1, h.2, rfl⟩

theorem WholeNumber.chars {s : Bytes} {z : ℤ} (h : WholeNumber s z) {c : Byte} (hc : c ∈ s) :
    isSpace c = true ∨ c = 43 ∨ c = 45 ∨ isDigit c = true := by
  obtain ⟨blanks, sign, digits, rfl, hblanks, hsign, -, hdigits, -⟩ := h
  rw [List.mem_append, List.mem_append] at hc
  rcases hc with hc | hc | hc
  · exact Or.inl (hblanks c hc)
  · rcases hsign with rfl | rfl | rfl
    · cases hc
    · exact Or.inr (Or.inl (List.mem_singleton.mp hc))
    · exact Or.inr (Or.inr (Or.inl (List.mem_singleton.mp hc)))
  · exact Or.inr (Or.inr (Or.inr (hdigits c hc)))

end LocalMarks.Lib

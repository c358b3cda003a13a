import LocalMarks.Lib.JsonValue

/-!
# Printed JSON values

The layout with one element or member a line: whatever the blanks of a level are, the reader gives
back the value that was printed.
-/

namespace LocalMarks.Lib

/-- The blanks that a level is indented by. -/
structure Indent where
  unit : Bytes
  blank : ∀ c ∈ unit, isJsonSpace c = true

/-- A line break and the indentation of a level. -/
def Indent.line (ind : Indent) (level : ℕ) : Bytes :=
  10 :: (List.replicate level ind.unit).flatten

mutual

/-- The text of a value. A number is printed as an integer. -/
def printJson (ind : Indent) (level : ℕ) : Json → Bytes
  | .null => ascii "null"
  | .bool true => ascii "true"
  | .bool false => ascii "false"
  | .number m _ => signedNumeral m
  | .string s => 34 :: (escape s ++ [34])
  | .array [] => [91, 93]
  | .array (v :: vs) => 91 :: (printElements ind (level + 1) (v :: vs) ++ (ind.line level ++ [93]))
  | .object [] => [123, 125]
  | .object (m :: ms) =>
    123 :: (printMembers ind (level + 1) (m :: ms) ++ (ind.line level ++ [125]))

def printElements (ind : Indent) (level : ℕ) : List Json → Bytes
  | [] => []
  | [v] => ind.line level ++ printJson ind level v
  | v :: w :: vs =>
    ind.line level ++ (printJson ind level v ++ 44 :: printElements ind level (w :: vs))

def printMembers (ind : Indent) (level : ℕ) : List (Bytes × Json) → Bytes
  | [] => []
  | [(k, v)] => ind.line level ++ 34 :: (escape k ++ 34 :: 58 :: 32 :: printJson ind level v)
  | (k, v) :: m :: ms =>
    ind.line level ++ 34 :: (escape k ++ 34 :: 58 :: 32 ::
      (printJson ind level v ++ 44 :: printMembers ind level (m :: ms)))

end

/-- Every number of the value is an integer. -/
inductive Json.Whole : Json → Prop where
  | null : Json.Whole .null
  | bool (b : Bool) : Json.Whole (.bool b)
  | number (m : ℤ) : Json.Whole (.number m 0)
  | string (s : Bytes) : Json.Whole (.string s)
  | array {vs : List Json} : (∀ v ∈ vs, Json.Whole v) → Json.Whole (.array vs)
  | object {ms : List (Bytes × Json)} : (∀ m ∈ ms, Json.Whole m.2) → Json.Whole (.object ms)

/-! ### Blanks -/

theorem Indent.line_blank (ind : Indent) (level : ℕ) :
    ∀ c ∈ ind.line level, isJsonSpace c = true := by
  intro c hc
  rcases List.mem_cons.mp hc with rfl | hc
  · rfl
  · obtain ⟨u, hu, hcu⟩ := List.mem_flatten.mp hc
    rw [List.eq_of_mem_replicate hu] at hcu
    exact ind.blank c hcu

section Blank
variable {b : Bytes} (hb : ∀ c ∈ b, isJsonSpace c = true)

include hb

theorem skipSpace_blank (s : Bytes) : skipSpace (b ++ s) = skipSpace s :=
  List.dropWhile_append_of_pos hb

theorem expect_blank (c : Byte) (s : Bytes) : expect c (b ++ s) = expect c s := by
  rw [expect, expect, skipSpace_blank hb]

theorem readValue_blank (n : ℕ) (s : Bytes) : readValue n (b ++ s) = readValue n s := by
  cases n with
  | zero => rfl
  | succ n => rw [readValue, readValue, skipSpace_blank hb]

theorem readElements_blank (n : ℕ) (s : Bytes) : readElements n (b ++ s) = readElements n s := by
  cases n with
  | zero => rfl
  | succ n => rw [readElements, readElements, readValue_blank hb]

theorem readMembers_blank (n : ℕ) (s : Bytes) : readMembers n (b ++ s) = readMembers n s := by
  cases n with
  | zero => rfl
  | succ n => rw [readMembers, readMembers, expect_blank hb]

end Blank

/-! ### Reading a printed value -/

theorem printJson_head (ind : Indent) (level : ℕ) (v : Json) :
    ∃ c t, printJson ind level v = c :: t ∧ isJsonSpace c = false ∧ c ≠ 93 := by
  match v with
  | .null => exact ⟨110, ascii "ull", rfl, rfl, by decide⟩
  | .bool true => exact ⟨116, ascii "rue", rfl, rfl, by decide⟩
  | .bool false => exact ⟨102, ascii "alse", rfl, rfl, by decide⟩
  | .number m _ =>
    have hdigit : ∀ c, isDigit c = true → isJsonSpace c = false ∧ c ≠ 93 := by
      apply every_byte
      decide +kernel
    rw [printJson, signedNumeral]
    split
    · exact ⟨45, _, rfl, rfl, by decide⟩
    · obtain ⟨d, ds, hds⟩ := List.exists_cons_of_ne_nil (numeral_ne_nil m.natAbs)
      exact ⟨d, ds, hds, hdigit d (decimal_isDigit _ d (hds ▸ List.mem_cons_self ..))⟩
  | .string s => exact ⟨34, _, by rw [printJson], rfl, by decide⟩
  | .array [] => exact ⟨91, _, by rw [printJson], rfl, by decide⟩
  | .array (_ :: _) => exact ⟨91, _, by rw [printJson], rfl, by decide⟩
  | .object [] => exact ⟨123, _, by rw [printJson], rfl, by decide⟩
  | .object (_ :: _) => exact ⟨123, _, by rw [printJson], rfl, by decide⟩

theorem readValue_atomText {n : ℕ} {c : Byte} (hc : c ≠ 34 ∧ c ≠ 91 ∧ c ≠ 123)
    (hspace : isJsonSpace c = false) (t : Bytes) :
    readValue (n + 1) (c :: t) = readAtom (c :: t) := by
  rw [readValue, skipSpace, List.dropWhile_cons, hspace, if_neg Bool.false_ne_true]
  dsimp only
  rw [if_neg hc.1, if_neg hc.2.1, if_neg hc.2.2]

theorem readValue_elements (n : ℕ) {t : Bytes} (h : expect 93 t = none) :
    readValue (n + 1) (91 :: t) = (readElements n t).map (Prod.map Json.array id) := by
  have hspace : skipSpace (91 :: t) = 91 :: t := rfl
  simp only [readValue, hspace, h]
  rfl

theorem readValue_members (n : ℕ) {t : Bytes} (h : expect 125 t = none) :
    readValue (n + 1) (123 :: t) = (readMembers n t).map (Prod.map Json.object id) := by
  have hspace : skipSpace (123 :: t) = 123 :: t := rfl
  simp only [readValue, hspace, h]
  rfl

theorem printElements_cons (ind : Indent) (level : ℕ) (v : Json) (vs : List Json) :
    ∃ t, printElements ind level (v :: vs) = ind.line level ++ (printJson ind level v ++ t) := by
  cases vs with
  | nil => exact ⟨[], by rw [printElements, List.append_nil]⟩
  | cons w vs => exact ⟨_, by rw [printElements]⟩

theorem printMembers_cons (ind : Indent) (level : ℕ) (m : Bytes × Json)
    (ms : List (Bytes × Json)) :
    ∃ t, printMembers ind level (m :: ms) = ind.line level ++ 34 :: t := by
  cases ms with
  | nil => exact ⟨_, by rw [printMembers]⟩
  | cons m' ms => exact ⟨_, by rw [printMembers]⟩

theorem expect_elements (ind : Indent) (level : ℕ) (v : Json) (vs : List Json) (t : Bytes) :
    expect 93 (printElements ind level (v :: vs) ++ t) = none := by
  obtain ⟨s, hs⟩ := printElements_cons ind level v vs
  obtain ⟨c, r, hv, hspace, hc⟩ := printJson_head ind level v
  rw [hs, hv, List.append_assoc, expect_blank (ind.line_blank level)]
  exact expect_other hspace hc _

theorem expect_members (ind : Indent) (level : ℕ) (m : Bytes × Json) (ms : List (Bytes × Json))
    (t : Bytes) : expect 125 (printMembers ind level (m :: ms) ++ t) = none := by
  obtain ⟨s, hs⟩ := printMembers_cons ind level m ms
  rw [hs, List.append_assoc, expect_blank (ind.line_blank level)]
  exact expect_other rfl (by decide) _

def closing (ind : Indent) (level : ℕ) (c : Byte) (t : Bytes) : Bytes := ind.line level ++ c :: t

theorem expect_closing (ind : Indent) (level : ℕ) {c : Byte} (hc : isJsonSpace c = false)
    (t : Bytes) : expect c (closing ind level c t) = some t := by
  rw [closing, expect_blank (ind.line_blank level)]
  exact expect_self hc t

theorem expect_comma_closing (ind : Indent) (level : ℕ) {c : Byte} (hc : isJsonSpace c = false)
    (hne : c ≠ 44) (t : Bytes) : expect 44 (closing ind level c t) = none := by
  rw [closing, expect_blank (ind.line_blank level)]
  exact expect_other hc hne t

theorem readElements_closed {n : ℕ} {t r r' : Bytes} {v : Json}
    (hv : readValue n t = some (v, r)) (hcomma : expect 44 r = none)
    (hclose : expect 93 r = some r') : readElements (n + 1) t = some ([v], r') := by
  rw [readElements, hv, Option.bind_some]
  dsimp only
  rw [hcomma, hclose]
  rfl

theorem readMembers_closed {n : ℕ} {k t r r' : Bytes} {v : Json}
    (hv : readValue n t = some (v, r)) (hcomma : expect 44 r = none)
    (hclose : expect 125 r = some r') :
    readMembers (n + 1) (34 :: (escape k ++ 34 :: 58 :: t)) = some ([(k, v)], r') := by
  rw [readMembers_key hv, hcomma, hclose]
  rfl

mutual

theorem readValue_print (ind : Indent) (level : ℕ) (v : Json) (hv : v.Whole) {n : ℕ}
    (hn : (printJson ind level v).length ≤ n) {c : Byte} (hc : EndsNumber c) (t : Bytes) :
    readValue n (printJson ind level v ++ c :: t) = some (v, c :: t) := by
  obtain ⟨n, rfl⟩ : ∃ m, n = m + 1 := by
    obtain ⟨d, ds, hd, -⟩ := printJson_head ind level v
    rw [hd, List.length_cons] at hn
    exact ⟨n - 1, by omega⟩
  match v, hv with
  | .null, _ => exact readValue_atomText (by decide) rfl _
  | .bool true, _ => exact readValue_atomText (by decide) rfl _
  | .bool false, _ => exact readValue_atomText (by decide) rfl _
  | .number m _, .number _ => exact readValue_number n m hc t
  | .string s, _ =>
    rw [printJson, List.cons_append, List.append_assoc]
    exact readValue_string n s (c :: t)
  | .array [], _ => exact readValue_emptyArray n (c :: t)
  | .array (v :: vs), .array hvs =>
    rw [printJson, List.length_cons, List.length_append] at hn
    have hread := readElements_print ind (level + 1) (v :: vs) (List.cons_ne_nil v vs) hvs
      (n := n) (by omega) level (c :: t)
    have htext : printJson ind level (.array (v :: vs)) ++ c :: t =
        91 :: (printElements ind (level + 1) (v :: vs) ++ closing ind level 93 (c :: t)) := by
      rw [printJson, List.cons_append, List.append_assoc, List.append_assoc]
      rfl
    rw [htext, readValue_elements n (expect_elements ind (level + 1) v vs _), hread]
    rfl
  | .object [], _ => rfl
  | .object (m :: ms), .object hms =>
    rw [printJson, List.length_cons, List.length_append] at hn
    have hread := readMembers_print ind (level + 1) (m :: ms) (List.cons_ne_nil m ms) hms
      (n := n) (by omega) level (c :: t)
    have htext : printJson ind level (.object (m :: ms)) ++ c :: t =
        123 :: (printMembers ind (level + 1) (m :: ms) ++ closing ind level 125 (c :: t)) := by
      rw [printJson, List.cons_append, List.append_assoc, List.append_assoc]
      rfl
    rw [htext, readValue_members n (expect_members ind (level + 1) m ms _), hread]
    rfl

theorem readElements_print (ind : Indent) (level : ℕ) (vs : List Json) (hne : vs ≠ [])
    (hvs : ∀ v ∈ vs, v.Whole) {n : ℕ} (hn : (printElements ind level vs).length ≤ n) (outer : ℕ)
    (t : Bytes) :
    readElements n (printElements ind level vs ++ closing ind outer 93 t) = some (vs, t) := by
  match vs with
  | [] => exact absurd rfl hne
  | [v] =>
    rw [printElements] at hn ⊢
    rw [List.length_append, Indent.line, List.length_cons] at hn
    obtain ⟨n, rfl⟩ : ∃ m, n = m + 1 := ⟨n - 1, by omega⟩
    have hread := readValue_print ind level v (hvs v (List.mem_cons_self ..)) (n := n) (by omega)
      (c := 10) (by unfold EndsNumber; decide)
      ((List.replicate outer ind.unit).flatten ++ 93 :: t)
    rw [List.append_assoc, readElements_blank (ind.line_blank level)]
    exact readElements_closed hread (expect_comma_closing ind outer rfl (by decide) t)
      (expect_closing ind outer rfl t)
  | v :: w :: vs =>
    rw [printElements] at hn ⊢
    rw [List.length_append, List.length_append, Indent.line, List.length_cons,
      List.length_cons] at hn
    obtain ⟨n, rfl⟩ : ∃ m, n = m + 1 := ⟨n - 1, by omega⟩
    have hread := readValue_print ind level v (hvs v (List.mem_cons_self ..)) (n := n) (by omega)
      (c := 44) (by unfold EndsNumber; decide)
      (printElements ind level (w :: vs) ++ closing ind outer 93 t)
    have hrest := readElements_print ind level (w :: vs) (List.cons_ne_nil w vs)
      (fun x hx => hvs x (List.mem_cons_of_mem v hx)) (n := n) (by omega) outer t
    rw [List.append_assoc, List.append_assoc, List.cons_append,
      readElements_blank (ind.line_blank level), readElements_more hread, hrest]
    rfl

theorem readMembers_print (ind : Indent) (level : ℕ) (ms : List (Bytes × Json)) (hne : ms ≠ [])
    (hms : ∀ m ∈ ms, m.2.Whole) {n : ℕ} (hn : (printMembers ind level ms).length ≤ n) (outer : ℕ)
    (t : Bytes) :
    readMembers n (printMembers ind level ms ++ closing ind outer 125 t) = some (ms, t) := by
  match ms with
  | [] => exact absurd rfl hne
  | [(k, v)] =>
    rw [printMembers] at hn ⊢
    simp only [List.length_append, Indent.line, List.length_cons] at hn
    obtain ⟨n, rfl⟩ : ∃ m, n = m + 1 := ⟨n - 1, by omega⟩
    have hread := readValue_print ind level v (hms (k, v) (List.mem_cons_self ..)) (n := n)
      (by omega) (c := 10) (by unfold EndsNumber; decide)
      ((List.replicate outer ind.unit).flatten ++ 125 :: t)
    rw [← readValue_blank (b := [32]) (all_bytes rfl)] at hread
    rw [List.append_assoc, readMembers_blank (ind.line_blank level), List.cons_append,
      List.append_assoc]
    exact readMembers_closed hread (expect_comma_closing ind outer rfl (by decide) t)
      (expect_closing ind outer rfl t)
  | (k, v) :: m :: ms =>
    rw [printMembers] at hn ⊢
    simp only [List.length_append, Indent.line, List.length_cons] at hn
    obtain ⟨n, rfl⟩ : ∃ m, n = m + 1 := ⟨n - 1, by omega⟩
    have hread := readValue_print ind level v (hms (k, v) (List.mem_cons_self ..)) (n := n)
      (by omega) (c := 44) (by unfold EndsNumber; decide)
      (printMembers ind level (m :: ms) ++ closing ind outer 125 t)
    rw [← readValue_blank (b := [32]) (all_bytes rfl)] at hread
    have hrest := readMembers_print ind level (m :: ms) (List.cons_ne_nil m ms)
      (fun x hx => hms x (List.mem_cons_of_mem (k, v) hx)) (n := n) (by omega) outer t
    have htext : ind.line level ++ 34 :: (escape k ++ 34 :: 58 :: 32 ::
          (printJson ind level v ++ 44 :: printMembers ind level (m :: ms))) ++
        closing ind outer 125 t =
        ind.line level ++ 34 :: (escape k ++ 34 :: 58 :: ([32] ++ (printJson ind level v ++
          44 :: (printMembers ind level (m :: ms) ++ closing ind outer 125 t)))) := by
      simp only [List.append_assoc, List.cons_append, List.nil_append]
    rw [htext, readMembers_blank (ind.line_blank level), readMembers_more hread, hrest]
    rfl

end

/-- Printing and reading: `json.loads` of the printed text and a line end is the value. -/
theorem parseJson_printJson (ind : Indent) {v : Json} (hv : v.Whole) :
    parseJson (printJson ind 0 v ++ [10]) = some v := by
  have hread := readValue_print ind 0 v hv (n := (printJson ind 0 v ++ [10]).length + 1)
    (by rw [List.length_append]; omega) (c := 10) (by unfold EndsNumber; decide) []
  rw [parseJson, hread]
  rfl

/-! ### The bytes of a printed value -/

/-- Printable, a line break, or one of the indentation. -/
def Indent.Prints (ind : Indent) (c : Byte) : Prop := 32 ≤ c ∨ c = 10 ∨ c ∈ ind.unit

theorem Indent.line_prints (ind : Indent) (level : ℕ) : ∀ c ∈ ind.line level, ind.Prints c := by
  intro c hc
  rcases List.mem_cons.mp hc with rfl | hc
  · exact Or.inr (Or.inl rfl)
  · obtain ⟨u, hu, hcu⟩ := List.mem_flatten.mp hc
    rw [List.eq_of_mem_replicate hu] at hcu
    exact Or.inr (Or.inr hcu)

theorem signedNumeral_printable (m : ℤ) : ∀ c ∈ signedNumeral m, 32 ≤ c := by
  have hdigit : ∀ c, isDigit c = true → (32 : Byte) ≤ c := by
    apply every_byte
    decide +kernel
  have hall : ∀ c ∈ numeral 10 m.natAbs, 32 ≤ c := fun c hc =>
    hdigit c (decimal_isDigit m.natAbs c hc)
  intro c hc
  rw [signedNumeral] at hc
  split at hc
  · rcases List.mem_append.mp hc with hc | hc
    · rw [List.mem_singleton.mp hc]
      decide
    · exact hall c hc
  · exact hall c hc

theorem quoted_printable (s : Bytes) : ∀ c ∈ 34 :: (escape s ++ [34]), 32 ≤ c := by
  intro c hc
  rcases List.mem_cons.mp hc with rfl | hc
  · decide
  · rcases List.mem_append.mp hc with hc | hc
    · exact escape_printable s c hc
    · rw [List.mem_singleton.mp hc]
      decide

mutual

theorem printJson_prints (ind : Indent) (level : ℕ) (v : Json) :
    ∀ c ∈ printJson ind level v, ind.Prints c := by
  have hlit : ∀ b : Bytes, (∀ c ∈ b, 32 ≤ c) → ∀ c ∈ b, ind.Prints c :=
    fun b hb c hc => Or.inl (hb c hc)
  match v with
  | .null => exact hlit (ascii "null") (all_bytes rfl)
  | .bool true => exact hlit (ascii "true") (all_bytes rfl)
  | .bool false => exact hlit (ascii "false") (all_bytes rfl)
  | .number m _ => exact hlit _ (signedNumeral_printable m)
  | .string s => exact hlit _ (quoted_printable s)
  | .array [] => exact hlit [91, 93] (all_bytes rfl)
  | .array (v :: vs) =>
    intro c hc
    simp only [printJson, List.mem_cons, List.mem_append, List.not_mem_nil, or_false] at hc
    rcases hc with rfl | hc | hc | rfl
    · exact Or.inl (by decide)
    · exact printElements_prints ind (level + 1) (v :: vs) c hc
    · exact ind.line_prints level c hc
    · exact Or.inl (by decide)
  | .object [] => exact hlit [123, 125] (all_bytes rfl)
  | .object (m :: ms) =>
    intro c hc
    simp only [printJson, List.mem_cons, List.mem_append, List.not_mem_nil, or_false] at hc
    rcases hc with rfl | hc | hc | rfl
    · exact Or.inl (by decide)
    · exact printMembers_prints ind (level + 1) (m :: ms) c hc
    · exact ind.line_prints level c hc
    · exact Or.inl (by decide)

theorem printElements_prints (ind : Indent) (level : ℕ) (vs : List Json) :
    ∀ c ∈ printElements ind level vs, ind.Prints c := by
  match vs with
  | [] => exact fun c hc => absurd hc List.not_mem_nil
  | [v] =>
    intro c hc
    rw [printElements, List.mem_append] at hc
    rcases hc with hc | hc
    · exact ind.line_prints level c hc
    · exact printJson_prints ind level v c hc
  | v :: w :: vs =>
    intro c hc
    rw [printElements, List.mem_append, List.mem_append, List.mem_cons] at hc
    rcases hc with hc | hc | rfl | hc
    · exact ind.line_prints level c hc
    · exact printJson_prints ind level v c hc
    · exact Or.inl (by decide)
    · exact printElements_prints ind level (w :: vs) c hc

theorem printMembers_prints (ind : Indent) (level : ℕ) (ms : List (Bytes × Json)) :
    ∀ c ∈ printMembers ind level ms, ind.Prints c := by
  match ms with
  | [] => exact fun c hc => absurd hc List.not_mem_nil
  | [(k, v)] =>
    intro c hc
    simp only [printMembers, List.mem_append, List.mem_cons] at hc
    rcases hc with hc | rfl | hc | rfl | rfl | rfl | hc
    · exact ind.line_prints level c hc
    · exact Or.inl (by decide)
    · exact Or.inl (escape_printable k c hc)
    · exact Or.inl (by decide)
    · exact Or.inl (by decide)
    · exact Or.inl (by decide)
    · exact printJson_prints ind level v c hc
  | (k, v) :: m :: ms =>
    intro c hc
    simp only [printMembers, List.mem_append, List.mem_cons] at hc
    rcases hc with hc | rfl | hc | rfl | rfl | rfl | hc | rfl | hc
    · exact ind.line_prints level c hc
    · exact Or.inl (by decide)
    · exact Or.inl (escape_printable k c hc)
    · exact Or.inl (by decide)
    · exact Or.inl (by decide)
    · exact Or.inl (by decide)
    · exact printJson_prints ind level v c hc
    · exact Or.inl (by decide)
    · exact printMembers_prints ind level (m :: ms) c hc

end

/-- No carriage return is printed that is not in the indentation. -/
theorem printJson_noReturn {ind : Indent} (hind : 13 ∉ ind.unit) (level : ℕ) (v : Json) :
    13 ∉ printJson ind level v := by
  intro h
  rcases printJson_prints ind level v 13 h with h | h | h
  · exact absurd h (by decide)
  · exact absurd h (by decide)
  · exact hind h

end LocalMarks.Lib

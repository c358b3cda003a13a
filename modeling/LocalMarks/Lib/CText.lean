import LocalMarks.Lib.CString
import Mathlib.Algebra.Order.Ring.Int
import Mathlib.Data.List.TakeWhile

/-!
# The string functions of the C library

Strings are the bytes before the terminating NUL. The character classes are those of the C
locale.
-/

namespace LocalMarks.Lib

/-- The string that starts at a pointer into `b`. -/
def cstr (b : Bytes) : Bytes := b.takeWhile (· != 0)

def isSpace (c : Byte) : Bool := c == 32 || (9 ≤ c && c ≤ 13)
def isDigit (c : Byte) : Bool := 48 ≤ c && c ≤ 57
def isXDigit (c : Byte) : Bool := isDigit c || (65 ≤ c && c ≤ 70) || (97 ≤ c && c ≤ 102)
def lowerByte (c : Byte) : Byte := if 65 ≤ c && c ≤ 90 then c + 32 else c
def upperByte (c : Byte) : Byte := if 97 ≤ c && c ≤ 122 then c - 32 else c

/-- `strchr`: what comes before the first `c` and what comes after it. -/
def strchr (c : Byte) : Bytes → Option (Bytes × Bytes)
  | [] => none
  | x :: xs => if x = c then some ([], xs) else (strchr c xs).map fun r => (x :: r.1, r.2)

/-- `strstr`: what comes before the first occurrence of `pat` and what comes after it. -/
def strstr (pat : Bytes) : Bytes → Option (Bytes × Bytes)
  | [] => if pat = [] then some ([], []) else none
  | x :: xs =>
    if pat.isPrefixOf (x :: xs) then some ([], (x :: xs).drop pat.length)
    else (strstr pat xs).map fun r => (x :: r.1, r.2)

/-- `strcasestr`, as a test. -/
def strcasestr (s pat : Bytes) : Bool := (strstr (pat.map lowerByte) (s.map lowerByte)).isSome

/-- `strcasecmp`, as a test for equality. -/
def strcaseEq (s t : Bytes) : Bool := s.map lowerByte == t.map lowerByte

/-- Leading and trailing blanks removed. -/
def trim (s : Bytes) : Bytes :=
  ((s.dropWhile isSpace).reverse.dropWhile isSpace).reverse

/-- `snprintf` of `%s` into a field of `n` bytes. -/
def fieldOf (n : ℕ) (hn : 0 < n) (s : Bytes) : FieldString n where
  bytes := (cstr s).take (n - 1)
  nul_free := fun h => by
    have := List.mem_takeWhile_imp (List.mem_of_mem_take h)
    simp at this
  fits := by rw [List.length_take]; omega

/-- The sign and the digits at the head of a number. -/
def readSign : Bytes → Bool × Bytes
  | 45 :: s => (true, s)
  | 43 :: s => (false, s)
  | s => (false, s)

def digitsValue (s : Bytes) : ℕ := s.foldl (fun v c => 10 * v + (c.toNat - 48)) 0

/-- `strtoll` in base ten: the value before any clamping, and the text it stops at, which is
the whole text when there is no digit. -/
def strtoll (s : Bytes) : ℤ × Bytes :=
  let (neg, t) := readSign (s.dropWhile isSpace)
  let ds := t.takeWhile isDigit
  if ds = [] then (0, s)
  else (if neg then -(digitsValue ds : ℤ) else digitsValue ds, t.dropWhile isDigit)

def int64Min : ℤ := -9223372036854775808
def int64Max : ℤ := 9223372036854775807

/-- The value that strtoll returns, clamped to 64 bits; `none` where it sets ERANGE. -/
def int64Of (z : ℤ) : Option ℤ := if int64Min ≤ z ∧ z ≤ int64Max then some z else none

/-- `strtol` with 64-bit longs and no look at `errno`. -/
def strtol (s : Bytes) : ℤ × Bytes :=
  let r := strtoll s
  (max int64Min (min int64Max r.1), r.2)

theorem cstr_of_nul_free {b : Bytes} (h : (0 : Byte) ∉ b) : cstr b = b := by
  rw [cstr, List.takeWhile_eq_self_iff]
  intro c hc
  have : c ≠ 0 := fun h0 => h (h0 ▸ hc)
  simpa using this

theorem cstr_nul_free (b : Bytes) : (0 : Byte) ∉ cstr b := by
  intro h
  simpa using List.mem_takeWhile_imp h

theorem strchr_append {c : Byte} {before : Bytes} (after : Bytes) (h : c ∉ before) :
    strchr c (before ++ c :: after) = some (before, after) := by
  induction before with
  | nil => simp [strchr]
  | cons x xs ih =>
    have hx : x ≠ c := fun hxc => h (hxc ▸ List.mem_cons_self ..)
    have hxs := ih fun hm => h (List.mem_cons_of_mem _ hm)
    rw [List.cons_append, strchr, if_neg hx, hxs, Option.map_some]

theorem strstr_some {pat s before after : Bytes} (h : strstr pat s = some (before, after)) :
    s = before ++ pat ++ after := by
  induction s generalizing before with
  | nil =>
    unfold strstr at h
    split at h
    · rename_i hpat
      cases h
      rw [hpat, List.append_nil, List.append_nil]
    · cases h
  | cons x xs ih =>
    unfold strstr at h
    split at h
    · rename_i hpre
      cases h
      obtain ⟨post, hpost⟩ := List.isPrefixOf_iff_prefix.mp hpre
      rw [← hpost, List.drop_left, List.nil_append]
    · obtain ⟨⟨b, a⟩, hr, heq⟩ := Option.map_eq_some_iff.mp h
      cases heq
      rw [ih hr, List.cons_append, List.cons_append]

theorem strstr_isSome {pat s : Bytes} : (strstr pat s).isSome ↔ pat <:+: s := by
  constructor
  · intro h
    obtain ⟨⟨before, after⟩, hr⟩ := Option.isSome_iff_exists.mp h
    exact ⟨before, after, (strstr_some hr).symm⟩
  · intro h
    induction s with
    | nil => simp [strstr, List.infix_nil.mp h]
    | cons x xs ih =>
      unfold strstr
      split
      · rfl
      · rename_i hpre
        rw [Option.isSome_map]
        apply ih
        rw [List.infix_cons_iff] at h
        exact h.resolve_left fun hp => hpre (List.isPrefixOf_iff_prefix.mpr hp)

theorem strcasestr_part {s t pat : Bytes} (h : s <:+: t) (hpat : strcasestr t pat = false) :
    strcasestr s pat = false := by
  rw [strcasestr, Bool.eq_false_iff, ne_eq, strstr_isSome] at *
  exact fun hs => hpat (hs.trans (h.map lowerByte))

theorem cstr_initial (s : Bytes) : cstr s <+: s := List.takeWhile_prefix _

theorem trim_part (s : Bytes) : trim s <:+: s := by
  have h1 : trim s <+: s.dropWhile isSpace := by
    rw [trim, ← List.reverse_suffix, List.reverse_reverse]
    exact List.dropWhile_suffix _
  exact h1.isInfix.trans (List.dropWhile_suffix _).isInfix

theorem fieldOf_part {n : ℕ} (hn : 0 < n) (s : Bytes) : (fieldOf n hn s).bytes <:+: s :=
  ((List.take_prefix _ _).trans (cstr_initial s)).isInfix

theorem every_byte {P : Byte → Prop} (h : ∀ n : Fin 256, P (UInt8.ofNat n)) (c : Byte) : P c := by
  have hc := h ⟨c.toNat, c.toNat_lt⟩
  rwa [UInt8.ofNat_toNat] at hc

theorem all_bytes {P : Byte → Prop} [DecidablePred P] {s : Bytes}
    (h : (s.all fun c => P c) = true) : ∀ c ∈ s, P c := by
  intro c hc
  exact of_decide_eq_true (List.all_eq_true.mp h c hc)

theorem trim_of_ends {s : Bytes} (hfirst : ∀ c ∈ s.head?, isSpace c = false)
    (hlast : ∀ c ∈ s.getLast?, isSpace c = false) : trim s = s := by
  have hdrop : ∀ l : Bytes, (∀ c ∈ l.head?, isSpace c = false) → l.dropWhile isSpace = l := by
    intro l hl
    cases l with
    | nil => rfl
    | cons c cs => rw [List.dropWhile_cons, hl c rfl, if_neg Bool.false_ne_true]
  rw [trim, hdrop s hfirst, hdrop s.reverse, List.reverse_reverse]
  intro c hc
  rw [List.head?_reverse] at hc
  exact hlast c hc

theorem trim_of_no_space {s : Bytes} (h : ∀ c ∈ s, isSpace c = false) : trim s = s :=
  trim_of_ends (fun c hc => h c (List.mem_of_mem_head? hc))
    fun c hc => h c (List.mem_of_mem_getLast? hc)

theorem trim_cons_space {c : Byte} {s : Bytes} (h : isSpace c = true) : trim (c :: s) = trim s := by
  rw [trim, List.dropWhile_cons, if_pos h, trim]

end LocalMarks.Lib

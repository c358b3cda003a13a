import LocalMarks.Lib.JsonString

/-!
# Escaping into a fixed buffer (databases_meta.c)

`json_escape_string` writes into an array of its caller and gives up where the array ends. What
it has not written stays as it was.
-/

namespace LocalMarks.Databases
open LocalMarks.Lib

/-- `char a[n]`, with whatever it holds. -/
structure CharArray (n : ℕ) where
  bytes : Bytes
  size : bytes.length = n

def CharArray.write {n : ℕ} (a : CharArray n) (i : ℕ) (b : Bytes) (h : i + b.length ≤ n) :
    CharArray n :=
  ⟨a.bytes.take i ++ b ++ a.bytes.drop (i + b.length), by
    have hsize := a.size
    simp only [List.length_append, List.length_take, List.length_drop]
    omega⟩

/-- The string that `%s` prints; none when the array holds no NUL and is read past its end. -/
def CharArray.str {n : ℕ} (a : CharArray n) : Option Bytes :=
  if 0 ∈ a.bytes then some (cstr a.bytes) else none

theorem CharArray.write_take {n : ℕ} (a : CharArray n) {i : ℕ} {b : Bytes} (h : i + b.length ≤ n)
    {k : ℕ} (hk : k ≤ b.length) :
    (a.write i b h).bytes.take (i + k) = a.bytes.take i ++ b.take k := by
  have hsize := a.size
  have hi : (a.bytes.take i).length = i := by
    rw [List.length_take]
    omega
  show (a.bytes.take i ++ b ++ a.bytes.drop (i + b.length)).take (i + k) = _
  rw [List.append_assoc, List.take_append, hi, Nat.add_sub_cancel_left,
    List.take_of_length_le (by omega), List.take_append_of_le_length hk]

def controlEscape (c : Byte) : Bytes := 92 :: 117 :: paddedNumeral 16 4 c.toNat

theorem controlEscape_length {c : Byte} (hc : c < 32) : (controlEscape c).length = 6 := by
  have hall : ∀ n < 32, (92 :: 117 :: paddedNumeral 16 4 n).length = 6 := by decide
  exact hall c.toNat (UInt8.lt_iff_toNat_lt.mp hc)

/-- The loop over the source, with `di` bytes written. -/
def escapeLoop {n : ℕ} : Bytes → CharArray n → ℕ → CharArray n × Option ℕ
  | [], dst, di => if h : di < n then (dst.write di [0] h, some di) else (dst, none)
  | c :: src, dst, di =>
    match shortEscape c with
    | some e =>
      if h : di + 2 < n then escapeLoop src (dst.write di [92, e] h.le) (di + 2)
      else (dst, none)
    | none =>
      if hc : c < 32 then
        if h : di + 6 < n then
          -- snprintf puts a NUL behind the six bytes
          escapeLoop src (dst.write di (controlEscape c ++ [0]) (by
            rw [List.length_append, controlEscape_length hc]
            exact h)) (di + 6)
        else (dst, none)
      else if h : di + 1 < n then escapeLoop src (dst.write di [c] h.le) (di + 1)
      else (dst, none)

/-- `json_escape_string`: the array afterwards, and the length, none for -1. -/
def jsonEscapeString {n : ℕ} (dst : CharArray n) (src : Bytes) : CharArray n × Option ℕ :=
  escapeLoop src dst 0

/-- One round: the text of a character is written, with a NUL or nothing behind it, as long as one
more byte would fit. -/
theorem escapeLoop_cons {n : ℕ} (c : Byte) (src : Bytes) (dst : CharArray n) (di : ℕ) :
    (n ≤ di + (escapeByte c).length → escapeLoop (c :: src) dst di = (dst, none)) ∧
      (di + (escapeByte c).length < n → ∃ (b : Bytes) (hb : di + b.length ≤ n),
        b.take (escapeByte c).length = escapeByte c ∧ escapeLoop (c :: src) dst di =
          escapeLoop src (dst.write di b hb) (di + (escapeByte c).length)) := by
  rw [escapeLoop]
  cases hs : shortEscape c with
  | some e =>
    have hbyte : escapeByte c = [92, e] := by rw [escapeByte, hs]
    have hlen : (escapeByte c).length = 2 := by rw [hbyte]; rfl
    rw [hlen]
    constructor
    · intro hfull
      exact dif_neg (Nat.not_lt.mpr hfull)
    · intro hroom
      exact ⟨[92, e], hroom.le, hbyte.symm, dif_pos hroom⟩
  | none =>
    dsimp only
    by_cases hc : c < 32
    · have hbyte : escapeByte c = controlEscape c := by
        rw [escapeByte, hs]
        exact if_pos hc
      have hlen := controlEscape_length hc
      rw [hbyte, hlen, dif_pos hc]
      constructor
      · intro hfull
        exact dif_neg (Nat.not_lt.mpr hfull)
      · intro hroom
        refine ⟨controlEscape c ++ [0], ?_, ?_, dif_pos hroom⟩
        · rw [List.length_append, hlen]
          exact hroom
        · rw [List.take_append_of_le_length hlen.ge, List.take_of_length_le hlen.le]
    · have hbyte : escapeByte c = [c] := by
        rw [escapeByte, hs]
        exact if_neg hc
      have hlen : (escapeByte c).length = 1 := by rw [hbyte]; rfl
      rw [hlen, dif_neg hc]
      constructor
      · intro hfull
        exact dif_neg (Nat.not_lt.mpr hfull)
      · intro hroom
        exact ⟨[c], hroom.le, hbyte.symm, dif_pos hroom⟩

theorem escapeLoop_fits {n : ℕ} (src : Bytes) (dst : CharArray n) (di : ℕ)
    (h : di + (escape src).length < n) :
    ∃ a tail, escapeLoop src dst di = (a, some (di + (escape src).length)) ∧
      a.bytes = dst.bytes.take di ++ escape src ++ 0 :: tail := by
  induction src generalizing dst di with
  | nil =>
    have hdi : di < n := h
    rw [escapeLoop, dif_pos hdi]
    refine ⟨_, dst.bytes.drop (di + 1), rfl, ?_⟩
    show dst.bytes.take di ++ [0] ++ _ = _
    simp [escape]
  | cons c cs ih =>
    rw [escape_cons, List.length_append] at h ⊢
    obtain ⟨b, hb, htake, hround⟩ := (escapeLoop_cons c cs dst di).2 (by omega)
    have hle : (escapeByte c).length ≤ b.length := by
      rw [← htake, List.length_take]
      exact Nat.min_le_right _ _
    obtain ⟨a, tail, hrun, hbytes⟩ := ih (dst.write di b hb) (di + (escapeByte c).length) (by omega)
    refine ⟨a, tail, by rw [hround, hrun, Nat.add_assoc], ?_⟩
    rw [hbytes, CharArray.write_take dst hb hle, htake, List.append_assoc (dst.bytes.take di)]

theorem escapeLoop_full {n : ℕ} (src : Bytes) (dst : CharArray n) (di : ℕ)
    (h : n ≤ di + (escape src).length) : (escapeLoop src dst di).2 = none := by
  induction src generalizing dst di with
  | nil =>
    have hdi : ¬ di < n := Nat.not_lt.mpr h
    rw [escapeLoop, dif_neg hdi]
  | cons c cs ih =>
    rw [escape_cons, List.length_append] at h
    obtain ⟨hfull, hround⟩ := escapeLoop_cons c cs dst di
    by_cases hroom : di + (escapeByte c).length < n
    · obtain ⟨b, hb, -, hloop⟩ := hround hroom
      rw [hloop]
      exact ih _ _ (by omega)
    · rw [hfull (Nat.not_lt.mp hroom)]

theorem jsonEscapeString_isSome {n : ℕ} (dst : CharArray n) (src : Bytes) :
    (jsonEscapeString dst src).2.isSome ↔ (escape src).length < n := by
  by_cases h : (escape src).length < n
  · obtain ⟨a, tail, hrun, -⟩ := escapeLoop_fits src dst 0 (by omega)
    refine iff_of_true ?_ h
    rw [jsonEscapeString, hrun]
    rfl
  · refine iff_of_false ?_ h
    rw [jsonEscapeString, escapeLoop_full src dst 0 (by omega)]
    exact Bool.false_ne_true

/-- The whole text and a NUL are written exactly if the array has room for both. The text has no
raw quote and no control character, and is read back as the source. -/
theorem jsonEscapeString_spec {n : ℕ} (dst : CharArray n) (src : CString) :
    ((escape src.bytes).length < n → ∃ a tail,
        jsonEscapeString dst src.bytes = (a, some (escape src.bytes).length) ∧
          a.bytes = escape src.bytes ++ 0 :: tail) ∧
      (n ≤ (escape src.bytes).length → (jsonEscapeString dst src.bytes).2 = none) ∧
      (∀ before after, escape src.bytes = before ++ 34 :: after →
        (before.rtakeWhile (· == 92)).length % 2 = 1) ∧
      (∀ c ∈ escape src.bytes, 32 ≤ c) ∧
      ∀ r, readString (src.bytes.length + 1) (escape src.bytes ++ 34 :: r) =
        some (src.bytes, r) := by
  refine ⟨?_, ?_, ?_, escape_printable _, ?_⟩
  · intro hroom
    obtain ⟨a, tail, hrun, hbytes⟩ := escapeLoop_fits src.bytes dst 0 (by omega)
    rw [Nat.zero_add] at hrun
    exact ⟨a, tail, hrun, hbytes⟩
  · intro hfull
    exact escapeLoop_full src.bytes dst 0 (by omega)
  · intro before after h
    exact escape_quote h
  · exact readString_escape (Nat.lt_succ_self _)

theorem escapeByte_nul_free (c : Byte) (hc : c ≠ 0) : (0 : Byte) ∉ escapeByte c := by
  unfold escapeByte
  split
  · rename_i e he
    have hletter := (shortEscape_letter he).2
    intro h0
    simp only [List.mem_cons, List.not_mem_nil, or_false] at h0
    rcases h0 with h0 | rfl
    · exact absurd h0 (by decide)
    · cases hletter
  · split
    · have hnumeral : (0 : Byte) ∉ numeral 16 c.toNat :=
        numeral_nul_free c.toNat (by decide) (by decide)
      simp only [List.mem_cons, paddedNumeral, List.mem_append, List.mem_replicate, not_or]
      refine ⟨by decide, by decide, fun h => absurd h.2 (by decide), hnumeral⟩
    · simpa using hc.symm

theorem escape_nul_free {s : Bytes} (h : (0 : Byte) ∉ s) : (0 : Byte) ∉ escape s := by
  intro h0
  obtain ⟨c, hc, h0⟩ := List.mem_flatMap.mp h0
  exact escapeByte_nul_free c (fun h' => h (h' ▸ hc)) h0

/-- A string whose text fits is found in the array afterwards, whatever the array held. -/
theorem jsonEscapeString_str {n : ℕ} {src : Bytes} (dst : CharArray n) (h0 : (0 : Byte) ∉ src)
    (h : (escape src).length < n) : (jsonEscapeString dst src).1.str = some (escape src) := by
  obtain ⟨a, tail, hrun, hbytes⟩ := escapeLoop_fits src dst 0 (by omega)
  rw [List.take_zero, List.nil_append] at hbytes
  have hfree := escape_nul_free h0
  have hcstr : cstr a.bytes = escape src := by
    have hall : ∀ c ∈ escape src, (c != 0) = true := by
      intro c hc
      rw [bne_iff_ne]
      exact fun h => hfree (h ▸ hc)
    rw [cstr, hbytes, List.takeWhile_append_of_pos hall]
    simp
  rw [jsonEscapeString, hrun, CharArray.str, hcstr, if_pos]
  rw [hbytes]
  simp

theorem CharArray.str_length {n : ℕ} {a : CharArray n} {b : Bytes} (h : a.str = some b) :
    b.length < n := by
  unfold str at h
  split at h
  · rename_i h0
    cases h
    have hle := (cstr_initial a.bytes).length_le
    have hne : (cstr a.bytes).length ≠ a.bytes.length := by
      intro heq
      apply cstr_nul_free a.bytes
      rwa [(cstr_initial a.bytes).eq_of_length heq]
    have hsize := a.size
    omega
  · cases h

end LocalMarks.Databases

import LocalMarks.Http.Auth
import LocalMarks.Http.RawMemory
import LocalMarks.Lib.Base64
import Mathlib.Data.List.DropRight

/-!
# The decoder of the credentials (auth.c)

`b64_decode` undoes the standard encoding and keeps to its destination, but takes much that is
not base64.
-/

namespace LocalMarks.Http
open LocalMarks.Lib

/-! ### The destination -/

/-- A byte is stored while there is room for it and for the NUL. -/
def storeBytes (dstLen : ℕ) : Bytes → Memory → ℕ → Memory × ℕ
  | [], m, out => (m, out)
  | c :: s, m, out =>
    if out < dstLen - 1 then storeBytes dstLen s (m.store out c) (out + 1)
    else storeBytes dstLen s m out

def b64LoopMem (dstLen : ℕ) : ℕ → Bytes → Memory → ℕ → Option ℕ × Memory
  | _, [], m, out => (some out, m.store out 0)
  | 0, _, m, _ => (none, m)
  | fuel + 1, c :: s, m, out =>
    match b64Group 4 (c :: s) with
    | none => (none, m)
    | some (vs, pad, rest) =>
      let (m', out') := storeBytes dstLen (b64Bytes vs pad) m out
      b64LoopMem dstLen fuel rest m' out'

/-- `b64_decode` on a destination with any bytes in it: the length that is returned, and what the
destination holds then. -/
def b64DecodeMem (src : Bytes) (dstLen : ℕ) (byte : ℕ → Byte) : Option ℕ × Memory :=
  b64LoopMem dstLen src.length src ⟨byte, []⟩ 0

/-- The destination while `all` is what was to be stored so far. -/
structure Stored (dstLen : ℕ) (all : Bytes) (m : Memory) (out : ℕ) : Prop where
  out_eq : out = (all.take (dstLen - 1)).length
  holds : m.Holds (all.take (dstLen - 1))
  within : m.Within (dstLen - 1)

theorem Stored.store {dstLen : ℕ} {all : Bytes} {m : Memory} {out : ℕ}
    (h : Stored dstLen all m out) (c : Byte) :
    m.store out c |>.Holds (all.take (dstLen - 1) ++ [c]) := by
  intro i d hd
  have hout := h.out_eq
  by_cases hi : i = out
  · rw [hi, hout, List.getElem?_append_right (Nat.le_refl _), Nat.sub_self] at hd
    cases hd
    exact if_pos hi
  · have hlt : i < out := by
      have := (List.getElem?_eq_some_iff.mp hd).1
      rw [List.length_append, ← hout, List.length_singleton] at this
      omega
    rw [List.getElem?_append_left (hout ▸ hlt)] at hd
    exact (if_neg hi).trans (h.holds i d hd)

theorem Stored.finish {dstLen : ℕ} {all : Bytes} {m : Memory} {out : ℕ}
    (h : Stored dstLen all m out) :
    (m.store out 0).Within (dstLen - 1) ∧
      ∀ r, some all = some r → (m.store out 0).Holds (r.take (dstLen - 1) ++ [0]) := by
  have hout := h.out_eq
  rw [List.length_take] at hout
  refine ⟨Memory.store_within h.within (by omega) 0, ?_⟩
  intro r hr
  cases hr
  exact h.store 0

theorem storeBytes_stored {dstLen : ℕ} (s : Bytes) {all : Bytes} {m : Memory} {out : ℕ}
    (h : Stored dstLen all m out) :
    Stored dstLen (all ++ s) (storeBytes dstLen s m out).1 (storeBytes dstLen s m out).2 := by
  induction s generalizing all m out with
  | nil =>
    rw [List.append_nil]
    exact h
  | cons c s ih =>
    have hout := h.out_eq
    rw [List.length_take] at hout
    have hnext : Stored dstLen (all ++ [c]) (if out < dstLen - 1 then m.store out c else m)
        (if out < dstLen - 1 then out + 1 else out) := by
      by_cases hroom : out < dstLen - 1
      · have hlen : all.length < dstLen - 1 := by omega
        have hall : all.take (dstLen - 1) = all := List.take_of_length_le hlen.le
        have hkeep : (all ++ [c]).take (dstLen - 1) = all ++ [c] :=
          List.take_of_length_le (by rw [List.length_append, List.length_singleton]; omega)
        rw [if_pos hroom, if_pos hroom]
        refine ⟨?_, ?_, Memory.store_within h.within hroom.le c⟩
        · rw [hkeep, List.length_append, List.length_singleton]
          omega
        · rw [hkeep]
          exact hall ▸ h.store c
      · have hkeep : (all ++ [c]).take (dstLen - 1) = all.take (dstLen - 1) :=
          List.take_append_of_le_length (by omega)
        rw [if_neg hroom, if_neg hroom]
        exact ⟨hkeep ▸ h.out_eq, hkeep ▸ h.holds, h.within⟩
    rw [List.append_cons]
    unfold storeBytes
    split <;> rename_i hroom
    · rw [if_pos hroom, if_pos hroom] at hnext
      exact ih hnext
    · rw [if_neg hroom, if_neg hroom] at hnext
      exact ih hnext

theorem b64LoopMem_spec (dstLen fuel : ℕ) (s : Bytes) {all : Bytes} {m : Memory} {out : ℕ}
    (h : Stored dstLen all m out) :
    (b64LoopMem dstLen fuel s m out).1 =
        (b64Loop fuel s all).map (fun r => (r.take (dstLen - 1)).length) ∧
      (b64LoopMem dstLen fuel s m out).2.Within (dstLen - 1) ∧
      ∀ r, b64Loop fuel s all = some r →
        (b64LoopMem dstLen fuel s m out).2.Holds (r.take (dstLen - 1) ++ [0]) := by
  induction fuel generalizing s all m out with
  | zero =>
    cases s with
    | nil => exact ⟨congrArg some h.out_eq, h.finish⟩
    | cons c s => exact ⟨rfl, h.within, nofun⟩
  | succ fuel ih =>
    cases s with
    | nil => exact ⟨congrArg some h.out_eq, h.finish⟩
    | cons c s =>
      unfold b64LoopMem b64Loop
      cases hgroup : b64Group 4 (c :: s) with
      | none => exact ⟨rfl, h.within, nofun⟩
      | some group =>
        obtain ⟨vs, pad, rest⟩ := group
        exact ih rest (storeBytes_stored (b64Bytes vs pad) h)

/-- The decoder on memory does what it does on a list, in any destination, and it never leaves
the destination, whether it accepts the text or not. -/
theorem b64DecodeMem_spec (src : Bytes) (dstLen : ℕ) (byte : ℕ → Byte) :
    (b64DecodeMem src dstLen byte).1 = (b64Decode src dstLen).map List.length ∧
      (b64DecodeMem src dstLen byte).2.Within (dstLen - 1) ∧
      ∀ r, b64Decode src dstLen = some r →
        (b64DecodeMem src dstLen byte).2.Holds (r ++ [0]) := by
  have hstart : Stored dstLen [] ⟨byte, []⟩ 0 := by
    refine ⟨?_, ?_, ?_⟩
    · rw [List.take_nil]
      rfl
    · rw [List.take_nil]
      exact fun i c hc => by cases hc
    · exact fun j hj => absurd hj List.not_mem_nil
  obtain ⟨hlen, hwithin, hholds⟩ := b64LoopMem_spec dstLen src.length src hstart
  refine ⟨?_, hwithin, ?_⟩
  · rw [b64Decode, Option.map_map]
    exact hlen
  · intro r hr
    obtain ⟨all, hall, rfl⟩ := Option.map_eq_some_iff.mp hr
    exact hholds all hall

/-! ### What is accepted -/

theorem b64Char_sextetChar {v : ℕ} (h : v < 64) : b64Char (sextetChar v) = some v := by
  have hall : ∀ v < 64, b64Char (sextetChar v) = some v := by decide
  exact hall v h

theorem b64Char_some : ∀ c v, b64Char c = some v → v < 64 ∧ sextetChar v = c := by
  have hall : ∀ c, ∀ v ∈ b64Char c, v < 64 ∧ sextetChar v = c := by
    apply every_byte
    decide +kernel
  exact hall

theorem b64Char_isSome_iff {c : Byte} : (b64Char c).isSome ↔ InAlphabet c := by
  constructor
  · intro h
    obtain ⟨v, hv⟩ := Option.isSome_iff_exists.mp h
    obtain ⟨hlt, hc⟩ := b64Char_some c v hv
    exact ⟨v, hlt, hc.symm⟩
  · rintro ⟨v, hv, rfl⟩
    rw [b64Char_sextetChar hv]
    rfl

/-- How many characters of its group have been read, `k` at first; every `=` ends a group. -/
def groupPos (k : ℕ) (s : Bytes) : ℕ := s.foldl (fun k c => if c = 61 then 0 else (k + 1) % 4) k

/-- What the decoder wants to see, `k` characters into a group. -/
def Decodable (k : ℕ) (s : Bytes) : Prop :=
  (∀ c ∈ s, c = 61 ∨ InAlphabet c) ∧ groupPos k s = 0

theorem decodable_pad (k : ℕ) (s : Bytes) : Decodable k (61 :: s) ↔ Decodable 0 s := by
  unfold Decodable
  rw [List.forall_mem_cons]
  exact and_congr_left' (and_iff_right (Or.inl rfl))

theorem decodable_letter {c : Byte} (hc : c ≠ 61) (k : ℕ) (s : Bytes) :
    Decodable k (c :: s) ↔ InAlphabet c ∧ Decodable ((k + 1) % 4) s := by
  unfold Decodable
  rw [List.forall_mem_cons, groupPos, List.foldl_cons, if_neg hc, or_iff_right hc, and_assoc]
  rfl

theorem groupPos_eq (s : Bytes) : groupPos 0 s = (s.rtakeWhile (· != 61)).length % 4 := by
  induction s using List.reverseRecOn with
  | nil => rfl
  | append_singleton s c ih =>
    rw [groupPos, List.foldl_concat, List.rtakeWhile_concat]
    change (if c = 61 then 0 else (groupPos 0 s + 1) % 4) = _
    by_cases hc : c = 61
    · rw [if_pos hc, if_neg (by simpa using hc)]
      rfl
    · rw [if_neg hc, if_pos (by simpa using hc), ih, List.length_append, List.length_singleton]
      omega

theorem skipPad_decodable (n : ℕ) (s : Bytes) :
    (Decodable 0 (skipPad n s).2 ↔ Decodable 0 s) ∧ (skipPad n s).2.length ≤ s.length := by
  induction n, s using skipPad.induct with
  | case1 n s ih =>
    rw [decodable_pad, List.length_cons]
    exact ⟨ih.1, Nat.le_succ_of_le ih.2⟩
  | case2 n s hs ih =>
    rw [skipPad]
    · exact ih
    · exact hs
  | case3 s => exact ⟨Iff.rfl, Nat.le_refl _⟩

theorem b64Group_decodable {n : ℕ} (hn : n ≤ 4) (s : Bytes) (hs : n < 4 ∨ s ≠ []) :
    (Decodable ((4 - n) % 4) s ↔ ∃ r, b64Group n s = some r ∧ Decodable 0 r.2.2) ∧
      ∀ r, b64Group n s = some r → r.2.2.length + min n 1 ≤ s.length := by
  induction n generalizing s with
  | zero =>
    refine ⟨?_, ?_⟩
    · exact ⟨fun h => ⟨_, rfl, h⟩, fun ⟨r, hr, h⟩ => by cases hr; exact h⟩
    · intro r hr
      cases hr
      exact Nat.le_refl _
  | succ n ih =>
    cases s with
    | nil =>
      have hlt : n + 1 < 4 := hs.resolve_right fun h => h rfl
      refine ⟨iff_of_false ?_ nofun, nofun⟩
      intro h
      have hpos : (4 - (n + 1)) % 4 = 0 := h.2
      omega
    | cons c s =>
      unfold b64Group
      by_cases hc : c = 61
      · rw [if_pos hc, hc, decodable_pad]
        obtain ⟨hskip, hlen⟩ := skipPad_decodable n s
        refine ⟨?_, ?_⟩
        · exact ⟨fun h => ⟨_, rfl, hskip.mpr h⟩, fun ⟨r, hr, h⟩ => by cases hr; exact hskip.mp h⟩
        · intro r hr
          cases hr
          rw [List.length_cons]
          dsimp only
          omega
      · obtain ⟨hiff, hlen⟩ := ih (by omega) s (Or.inl (by omega))
        have hpos : ((4 - (n + 1)) % 4 + 1) % 4 = (4 - n) % 4 := by omega
        rw [if_neg hc, decodable_letter hc, hpos, hiff, ← b64Char_isSome_iff]
        cases hv : b64Char c with
        | none => exact ⟨iff_of_false (fun h => by cases h.1) nofun, nofun⟩
        | some v =>
          rw [Option.bind_some]
          refine ⟨?_, ?_⟩
          · rw [and_iff_right Option.isSome_some]
            constructor
            · rintro ⟨r, hr, h⟩
              exact ⟨_, congrArg _ hr, h⟩
            · rintro ⟨r, hr, h⟩
              obtain ⟨r', hr', rfl⟩ := Option.map_eq_some_iff.mp hr
              exact ⟨r', hr', h⟩
          · intro r hr
            obtain ⟨⟨vs, pad, rest⟩, hr', rfl⟩ := Option.map_eq_some_iff.mp hr
            have hrest := hlen _ hr'
            rw [List.length_cons]
            dsimp only at hrest ⊢
            omega

theorem b64Loop_isSome (fuel : ℕ) (s out : Bytes) (hfuel : s.length ≤ fuel) :
    (b64Loop fuel s out).isSome ↔ Decodable 0 s := by
  induction fuel generalizing s out with
  | zero =>
    cases s with
    | nil => exact iff_of_true rfl ⟨fun c hc => absurd hc List.not_mem_nil, rfl⟩
    | cons c s => exact absurd hfuel (Nat.not_succ_le_zero _)
  | succ fuel ih =>
    cases s with
    | nil => exact iff_of_true rfl ⟨fun c hc => absurd hc List.not_mem_nil, rfl⟩
    | cons c s =>
      obtain ⟨hiff, hlen⟩ := b64Group_decodable (Nat.le_refl 4) (c :: s) (Or.inr nofun)
      have hstart : Decodable 0 (c :: s) ↔ _ := hiff
      unfold b64Loop
      rw [hstart]
      cases hgroup : b64Group 4 (c :: s) with
      | none => exact iff_of_false nofun nofun
      | some r =>
        have hrest := hlen r hgroup
        rw [List.length_cons] at hrest hfuel
        refine (ih r.2.2 _ (by omega)).trans ?_
        constructor
        · exact fun h => ⟨r, rfl, h⟩
        · rintro ⟨r', hr', h⟩
          cases hr'
          exact h

theorem b64Decode_isSome (src : Bytes) (dstLen : ℕ) :
    (b64Decode src dstLen).isSome ↔
      (∀ c ∈ src, c = 61 ∨ InAlphabet c) ∧ (src.rtakeWhile (· != 61)).length % 4 = 0 := by
  rw [b64Decode, Option.isSome_map, b64Loop_isSome _ _ _ (Nat.le_refl _), Decodable, groupPos_eq]

/-! ### Decoding what was encoded -/

theorem b64Group_letter {v : ℕ} (hv : v < 64) (n : ℕ) (s : Bytes) :
    b64Group (n + 1) (sextetChar v :: s) =
      (b64Group n s).map fun r => (v :: r.1, r.2.1, r.2.2) := by
  rw [b64Group, if_neg (sextetChar_inAlphabet hv).ne_pad, b64Char_sextetChar hv, Option.bind_some]

theorem b64Bytes_bits (vs : List ℕ) (pad : ℕ) (a b c : Byte)
    (h : vs.getD 0 0 * 2 ^ 18 + vs.getD 1 0 * 2 ^ 12 + vs.getD 2 0 * 2 ^ 6 + vs.getD 3 0 =
      a.toNat * 2 ^ 16 + b.toNat * 2 ^ 8 + c.toNat) :
    b64Bytes vs pad = [a] ++ (if pad < 2 then [b] else []) ++ (if pad < 1 then [c] else []) := by
  have ha := a.toNat_lt
  have hb := b.toNat_lt
  have hc := c.toNat_lt
  have h1 : UInt8.ofNat ((a.toNat * 2 ^ 16 + b.toNat * 2 ^ 8 + c.toNat) / 2 ^ 16) = a := by
    apply UInt8.toNat_inj.mp
    rw [UInt8.toNat_ofNat']
    omega
  have h2 : UInt8.ofNat ((a.toNat * 2 ^ 16 + b.toNat * 2 ^ 8 + c.toNat) / 2 ^ 8) = b := by
    apply UInt8.toNat_inj.mp
    rw [UInt8.toNat_ofNat']
    omega
  have h3 : UInt8.ofNat (a.toNat * 2 ^ 16 + b.toNat * 2 ^ 8 + c.toNat) = c := by
    apply UInt8.toNat_inj.mp
    rw [UInt8.toNat_ofNat']
    omega
  unfold b64Bytes
  dsimp only
  rw [h, h1, h2, h3]

theorem b64Loop_nil (fuel : ℕ) (out : Bytes) : b64Loop fuel [] out = some out := by
  cases fuel <;> rfl

theorem b64Loop_group {c : Byte} {s rest : Bytes} {vs : List ℕ} {pad : ℕ}
    (h : b64Group 4 (c :: s) = some (vs, pad, rest)) (fuel : ℕ) (out : Bytes) :
    b64Loop (fuel + 1) (c :: s) out = b64Loop fuel rest (out ++ b64Bytes vs pad) := by
  rw [b64Loop, h]
  rfl

theorem b64Loop_base64 (s out : Bytes) {fuel : ℕ} (hfuel : (base64 s).length ≤ fuel) :
    b64Loop fuel (base64 s) out = some (out ++ s) := by
  induction s using base64.induct generalizing out fuel with
  | case1 => rw [base64, b64Loop_nil, List.append_nil]
  | case2 a =>
    have ha := a.toNat_lt
    have hgroup : b64Group 4 (base64 [a]) = some ([a.toNat / 4, a.toNat % 4 * 16], 2, []) := by
      rw [base64, b64Group_letter (by omega), b64Group_letter (by omega)]
      rfl
    have hbytes := b64Bytes_bits [a.toNat / 4, a.toNat % 4 * 16] 2 a 0 0 (by
      simp only [List.getD_cons_zero, List.getD_cons_succ, List.getD_nil, UInt8.toNat_zero]
      omega)
    obtain ⟨fuel, rfl⟩ := Nat.exists_eq_add_of_le' (Nat.le_trans (Nat.succ_pos 3) hfuel)
    refine (b64Loop_group hgroup fuel out).trans ?_
    rw [b64Loop_nil, hbytes]
    rfl
  | case3 a b =>
    have ha := a.toNat_lt
    have hb := b.toNat_lt
    have hgroup : b64Group 4 (base64 [a, b]) = some ([a.toNat / 4,
        a.toNat % 4 * 16 + b.toNat / 16, b.toNat % 16 * 4], 1, []) := by
      rw [base64, b64Group_letter (by omega), b64Group_letter (by omega),
        b64Group_letter (by omega)]
      rfl
    have hbytes := b64Bytes_bits [a.toNat / 4, a.toNat % 4 * 16 + b.toNat / 16,
        b.toNat % 16 * 4] 1 a b 0 (by
      simp only [List.getD_cons_zero, List.getD_cons_succ, List.getD_nil, UInt8.toNat_zero]
      omega)
    obtain ⟨fuel, rfl⟩ := Nat.exists_eq_add_of_le' (Nat.le_trans (Nat.succ_pos 3) hfuel)
    refine (b64Loop_group hgroup fuel out).trans ?_
    rw [b64Loop_nil, hbytes]
    rfl
  | case4 a b c s ih =>
    have ha := a.toNat_lt
    have hb := b.toNat_lt
    have hc := c.toNat_lt
    have hgroup : b64Group 4 (base64 (a :: b :: c :: s)) = some ([a.toNat / 4,
        a.toNat % 4 * 16 + b.toNat / 16, b.toNat % 16 * 4 + c.toNat / 64, c.toNat % 64], 0,
        base64 s) := by
      rw [base64, b64Group_letter (by omega), b64Group_letter (by omega),
        b64Group_letter (by omega), b64Group_letter (by omega)]
      rfl
    have hbytes := b64Bytes_bits [a.toNat / 4, a.toNat % 4 * 16 + b.toNat / 16,
        b.toNat % 16 * 4 + c.toNat / 64, c.toNat % 64] 0 a b c (by
      simp only [List.getD_cons_zero, List.getD_cons_succ]
      omega)
    have hlen : (base64 (a :: b :: c :: s)).length = (base64 s).length + 4 := rfl
    obtain ⟨fuel, rfl⟩ := Nat.exists_eq_add_of_le' (Nat.le_trans (Nat.succ_pos _) hfuel)
    refine (b64Loop_group hgroup fuel out).trans ?_
    rw [ih _ (by omega), hbytes, List.append_assoc]
    rfl

/-- An encoded text is decoded to what was encoded, as far as the destination goes. -/
theorem b64Decode_base64 (s : Bytes) (dstLen : ℕ) :
    b64Decode (base64 s) dstLen = some (s.take (dstLen - 1)) := by
  rw [b64Decode, b64Loop_base64 s [] (Nat.le_refl _)]
  rfl

/-! ### Texts that are not base64 -/

/-- The decoder accepts nothing but base64 exactly if the text is base64, or has a character that
is neither in the alphabet nor `=`, or goes on behind its last `=` with a number of characters
that is not a multiple of four. -/
theorem b64Decode_valid_iff (src : CString) (dstLen : ℕ) :
    ((b64Decode src.bytes dstLen).isSome → Base64Text src.bytes) ↔
      Base64Text src.bytes ∨ (∃ c ∈ src.bytes, c ≠ 61 ∧ ¬ InAlphabet c) ∨
        (src.bytes.rtakeWhile (· != 61)).length % 4 ≠ 0 := by
  rw [b64Decode_isSome, imp_iff_or_not, not_and_or, not_forall]
  refine or_congr_right (or_congr_left (exists_congr fun c => ?_))
  rw [Classical.not_imp, not_or]

theorem b64Decode_onePad : (b64Decode (ascii "=") 512).isSome ∧ ¬ Base64Text (ascii "=") := by
  refine ⟨by decide, ?_⟩
  intro h
  exact absurd h.1 (by decide)

end LocalMarks.Http

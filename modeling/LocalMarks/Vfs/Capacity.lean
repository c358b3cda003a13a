import LocalMarks.Lib.BitSmear
import LocalMarks.Vfs.Hash

/-!
# The size of the table of embedded files (vfs_hash.c)

The macros that round the number of slots up to a power of two, over C's 32-bit `int`. Their
argument is repeated by the expansion, which is the same as computing it once.
-/

namespace LocalMarks.Vfs
open LocalMarks.Lib

def orShift (x k : Int32) : Int32 := x ||| x >>> k

def vfsPo2_1 (x : Int32) : Int32 := orShift x 1
def vfsPo2_2 (x : Int32) : Int32 := orShift (vfsPo2_1 x) 2
def vfsPo2_4 (x : Int32) : Int32 := orShift (vfsPo2_2 x) 4
def vfsPo2_8 (x : Int32) : Int32 := orShift (vfsPo2_4 x) 8
def vfsPo2_16 (x : Int32) : Int32 := orShift (vfsPo2_8 x) 16

def vfsNextPow2 (x : Int32) : Int32 := vfsPo2_16 (x - 1) + 1

/-- `VFS_HASH_CAP` for a given `VFS_MAX_FILES`. -/
def vfsHashCap (vfsMaxFiles : Int32) : Int32 := vfsNextPow2 (vfsMaxFiles * 2)

/-! ### The macros on numbers -/

theorem toNat_of_toInt {x : Int32} {n : ℕ} (h : x.toInt = n) :
    x.toBitVec.msb = false ∧ x.toBitVec.toNat = n := by
  have hmsb : x.toBitVec.msb = false := by
    rw [BitVec.msb_eq_toInt, Int32.toInt_toBitVec, h]
    exact decide_eq_false (by omega)
  have hnat := BitVec.toInt_eq_toNat_of_msb hmsb
  rw [Int32.toInt_toBitVec, h] at hnat
  exact ⟨hmsb, by omega⟩

/-- On a number that is not negative the signed shift is the shift of its bits. -/
theorem orShift_toInt {x k : Int32} {n j : ℕ} (h : x.toInt = n)
    (hk : (k.toBitVec.smod 32).toNat = j) : (orShift x k).toInt = smear j n := by
  obtain ⟨hmsb, hnat⟩ := toNat_of_toInt h
  have hvec : (orShift x k).toBitVec =
      x.toBitVec ||| x.toBitVec.sshiftRight' (k.toBitVec.smod 32) := by
    rw [orShift, Int32.toBitVec_or, Int32.toBitVec_shiftRight]
  have hpos : (orShift x k).toBitVec.msb = false := by
    rw [hvec, BitVec.msb_or, BitVec.msb_sshiftRight', hmsb]
    rfl
  rw [← Int32.toInt_toBitVec, BitVec.toInt_eq_toNat_of_msb hpos, hvec, BitVec.toNat_or,
    BitVec.toNat_sshiftRight'_of_msb_false hmsb, hnat, hk, smear]

theorem vfsPo2_16_toInt {x : Int32} {n : ℕ} (h : x.toInt = n) :
    (vfsPo2_16 x).toInt = (2 ^ n.size - 1 : ℕ) := by
  have h1 := orShift_toInt (k := 1) (j := 1) h rfl
  have h2 := orShift_toInt (k := 2) (j := 2) h1 rfl
  have h4 := orShift_toInt (k := 4) (j := 4) h2 rfl
  have h8 := orShift_toInt (k := 8) (j := 8) h4 rfl
  have h16 := orShift_toInt (k := 16) (j := 16) h8 rfl
  have hsmeared := (Smeared.one n).double.double.double.double.double
  have hsize : n.size ≤ 32 := by
    have := BitVec.isLt x.toBitVec
    rw [(toNat_of_toInt h).2] at this
    exact Nat.size_le.mpr this
  rw [vfsPo2_16, vfsPo2_8, vfsPo2_4, vfsPo2_2, vfsPo2_1, h16]
  exact congrArg Nat.cast (hsmeared.eq hsize)

theorem pred_toInt {x : Int32} {n : ℕ} (h : x.toInt = (n + 1 : ℕ)) : (x - 1).toInt = n := by
  have hlt := Int32.toInt_lt x
  have hone : Int32.toInt 1 = 1 := rfl
  rw [Int32.toInt_sub, h, hone, Int.bmod_eq_of_le] <;> omega

theorem vfsNextPow2_toInt {x : ℤ} (h1 : 1 ≤ x) (h2 : x ≤ 2 ^ 30) :
    (vfsNextPow2 (Int32.ofInt x)).toInt = 2 ^ (x - 1).toNat.size := by
  have hx : (Int32.ofInt x).toInt = x := Int32.toInt_ofInt_of_le (by omega) (by omega)
  have hdec : (Int32.ofInt x - 1).toInt = ((x - 1).toNat : ℕ) := pred_toInt (by omega)
  have hle : 2 ^ (x - 1).toNat.size ≤ 2 ^ 30 :=
    Nat.pow_le_pow_right Nat.two_pos (Nat.size_le.mpr (by omega))
  have hinc : ((2 ^ (x - 1).toNat.size - 1 : ℕ) : ℤ) + 1 = (2 ^ (x - 1).toNat.size : ℕ) := by
    have := Nat.two_pow_pos (x - 1).toNat.size
    omega
  have hone : Int32.toInt 1 = 1 := rfl
  rw [vfsNextPow2, Int32.toInt_add, vfsPo2_16_toInt hdec, hone, hinc,
    Int.bmod_eq_of_le (by omega) (by omega), Nat.cast_pow, Nat.cast_ofNat]

/-- The value of the macro is the least power of two that is not below its argument. -/
theorem vfsNextPow2_isLeast {x : ℤ} (h1 : 1 ≤ x) (h2 : x ≤ 2 ^ 30) :
    IsLeast {p : ℤ | (∃ k : ℕ, p = 2 ^ k) ∧ x ≤ p} (vfsNextPow2 (Int32.ofInt x)).toInt := by
  obtain ⟨⟨-, hlt⟩, hleast⟩ := two_pow_size_isLeast (x - 1).toNat
  rw [vfsNextPow2_toInt h1 h2]
  constructor
  · refine ⟨⟨_, rfl⟩, ?_⟩
    have : ((x - 1).toNat : ℤ) < (2 ^ (x - 1).toNat.size : ℕ) := Int.ofNat_lt.mpr hlt
    push_cast at this
    omega
  · rintro p ⟨⟨k, rfl⟩, hk⟩
    have hpow : (x - 1).toNat < 2 ^ k := by
      have hcast : ((2 ^ k : ℕ) : ℤ) = 2 ^ k := Nat.cast_pow 2 k
      omega
    have := hleast ⟨⟨k, rfl⟩, hpow⟩
    exact_mod_cast this

/-! ### The capacity -/

/-- The table that `VFS_HASH_CAP` gives for `maxFiles` files. -/
def capacity (maxFiles : ℕ) (h : maxFiles ≤ 2 ^ 29) : HashCap where
  log := (2 * maxFiles - 1).size
  log_le := Nat.size_le.mpr (by omega)

theorem capacity_room (maxFiles : ℕ) (h : maxFiles ≤ 2 ^ 29) :
    2 * maxFiles ≤ (capacity maxFiles h).size := by
  have hlt : 2 * maxFiles - 1 < (capacity maxFiles h).size := (2 * maxFiles - 1).lt_size_self
  omega

theorem vfsHashCap_toInt {maxFiles : ℕ} (hpos : 0 < maxFiles) (h : maxFiles ≤ 2 ^ 29) :
    (vfsHashCap (Int32.ofNat maxFiles)).toInt = (capacity maxFiles h).size := by
  have hmul : Int32.ofNat maxFiles * 2 = Int32.ofInt (maxFiles * 2) := by
    rw [Int32.ofInt_mul, Int32.ofInt_eq_ofNat]
    rfl
  have hlog : ((maxFiles : ℤ) * 2 - 1).toNat = 2 * maxFiles - 1 := by omega
  rw [vfsHashCap, hmul, vfsNextPow2_toInt (by omega) (by omega), hlog, HashCap.size, capacity]
  exact (Nat.cast_pow 2 _).symm

theorem vfsHashCap_mask {maxFiles : ℕ} (hpos : 0 < maxFiles) (h : maxFiles ≤ 2 ^ 29) :
    (vfsHashCap (Int32.ofNat maxFiles) - 1).toUInt32 = (capacity maxFiles h).mask := by
  have hsize := (capacity maxFiles h).size_pos
  have hdec : (vfsHashCap (Int32.ofNat maxFiles) - 1).toInt =
      ((capacity maxFiles h).size - 1 : ℕ) := by
    apply pred_toInt
    rw [vfsHashCap_toInt hpos h, Nat.sub_add_cancel hsize]
  apply UInt32.toNat_inj.mp
  rw [HashCap.mask_toNat]
  exact (toNat_of_toInt hdec).2

/-- The macro yields the least power of two from its argument on, so that `VFS_HASH_CAP` is the
size of a table with room for twice the files and a mask that is all ones. -/
theorem vfsHashCap_pow2 :
    (∀ x : ℤ, 1 ≤ x → x ≤ 2 ^ 30 →
      IsLeast {p : ℤ | (∃ k : ℕ, p = 2 ^ k) ∧ x ≤ p} (vfsNextPow2 (Int32.ofInt x)).toInt) ∧
    ∀ (maxFiles : ℕ) (h : maxFiles ≤ 2 ^ 29), 0 < maxFiles →
      (vfsHashCap (Int32.ofNat maxFiles)).toInt = (capacity maxFiles h).size ∧
      (vfsHashCap (Int32.ofNat maxFiles) - 1).toUInt32 = (capacity maxFiles h).mask ∧
      (capacity maxFiles h).mask.toNat = 2 ^ (capacity maxFiles h).log - 1 ∧
      2 * maxFiles ≤ (capacity maxFiles h).size := by
  constructor
  · intro x h1 h2
    exact vfsNextPow2_isLeast h1 h2
  · intro maxFiles h hpos
    exact ⟨vfsHashCap_toInt hpos h, vfsHashCap_mask hpos h, HashCap.mask_toNat _,
      capacity_room maxFiles h⟩

theorem vfsHashCap_pow2_build :
    (vfsHashCap 20).toInt = (capacity 20 (by decide)).size ∧
      2 * 20 ≤ (capacity 20 (by decide)).size := by
  have h := vfsHashCap_pow2.2 20 (by decide) (by decide)
  exact ⟨h.1, h.2.2.2⟩

example : vfsHashCap 20 = 64 := by decide

/-- As many files as the knob says are indexed without an abort, in a table at most half full. -/
theorem vfsHashInit_capacity {maxFiles : ℕ} (hmax : maxFiles ≤ 2 ^ 29) {table : List TableEntry}
    (h : table.length ≤ maxFiles) : ∃ h, vfsHashInit (capacity maxFiles hmax) table = some h ∧
      2 * h.inserted ≤ (capacity maxFiles hmax).size := by
  have hroom := capacity_room maxFiles hmax
  have hfit : table.length ≤ (capacity maxFiles hmax).size := by omega
  obtain ⟨v, hinit, hl⟩ := vfsHashInit_loaded (capacity maxFiles hmax) hfit
  exact ⟨v, hinit, by rw [hl.inserted_eq]; omega⟩

end LocalMarks.Vfs

import Mathlib.Data.List.Basic

/-!
# Bytes, text and NUL-terminated strings
-/

namespace LocalMarks.Lib

abbrev Byte := UInt8
abbrev Bytes := List UInt8
abbrev Str := List Char

/-- The bytes of an ASCII literal. -/
def ascii (s : String) : Bytes := s.toList.map fun c => UInt8.ofNat c.toNat

/-- A C string: the bytes before the terminating NUL. -/
structure CString where
  bytes : Bytes
  nul_free : (0 : Byte) ∉ bytes
  deriving DecidableEq

theorem CString.ext {a b : CString} (h : a.bytes = b.bytes) : a = b := by
  cases a
  cases b
  cases h
  rfl

/-- What strncpy leaves in a field of `n` bytes whose last byte is then set to NUL. -/
def CString.cut (s : CString) (n : ℕ) : CString :=
  ⟨s.bytes.take (n - 1), fun h => s.nul_free (List.mem_of_mem_take h)⟩

/-- A C string that fits in a field of `n` bytes. -/
structure FieldString (n : ℕ) extends CString where
  fits : toCString.bytes.length < n
  deriving DecidableEq

/-- strncpy into a field of `n` bytes. -/
def CString.toField (s : CString) (n : ℕ) (hn : 0 < n) : FieldString n :=
  ⟨s.cut n, by simp only [CString.cut, List.length_take]; omega⟩

end LocalMarks.Lib

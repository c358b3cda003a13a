import LocalMarks.Lib.CString
import Mathlib.Data.Char

/-!
# Text in the single-page app
-/

namespace LocalMarks.FrontEnd
open LocalMarks.Lib

def isBlank (c : Char) : Bool :=
  (9 ≤ c.toNat && c.toNat ≤ 13) || c.toNat == 32 || c.toNat == 0xA0 || c.toNat == 0x1680
    || (0x2000 ≤ c.toNat && c.toNat ≤ 0x200A) || c.toNat == 0x2028 || c.toNat == 0x2029
    || c.toNat == 0x202F || c.toNat == 0x205F || c.toNat == 0x3000 || c.toNat == 0xFEFF

def trim (s : Str) : Str := ((s.dropWhile isBlank).reverse.dropWhile isBlank).reverse

end LocalMarks.FrontEnd

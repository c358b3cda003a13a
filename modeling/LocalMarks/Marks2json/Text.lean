import LocalMarks.Lib.CString
import Mathlib.Data.Char
import Mathlib.Data.List.Infix
import Mathlib.Data.List.Lex

/-!
# Text in marks2json.py

The functions of `str` and `Path` that the script calls, over lists of characters.
-/

namespace LocalMarks.Marks2json
open LocalMarks.Lib

/-- What the script takes from the Unicode tables and from `urllib.parse`. -/
structure PyLib where
  lower : Str → Str
  capitalize : Str → Str
  /-- `urlparse(url).hostname`; `none` also stands for the exception. -/
  hostname : Str → Option Str

def isSpace (c : Char) : Bool :=
  (9 ≤ c.toNat && c.toNat ≤ 13) || (28 ≤ c.toNat && c.toNat ≤ 32) || c.toNat == 0x85
    || c.toNat == 0xA0 || c.toNat == 0x1680 || (0x2000 ≤ c.toNat && c.toNat ≤ 0x200A)
    || c.toNat == 0x2028 || c.toNat == 0x2029 || c.toNat == 0x202F || c.toNat == 0x205F
    || c.toNat == 0x3000

def isLineBreak (c : Char) : Bool :=
  (10 ≤ c.toNat && c.toNat ≤ 13) || (28 ≤ c.toNat && c.toNat ≤ 30) || c.toNat == 0x85
    || c.toNat == 0x2028 || c.toNat == 0x2029

def lstrip (s : Str) : Str := s.dropWhile isSpace

def strip (s : Str) : Str := (lstrip (lstrip s).reverse).reverse

/-- str.split() without an argument. -/
def words (s : Str) : List Str := (s.splitOnP isSpace).filter (· ≠ [])

def removePrefix (pre s : Str) : Str := if pre <+: s then s.drop pre.length else s

/-- What reading in text mode makes of line ends. -/
def universalNewlines : Str → Str
  | '\r' :: '\n' :: s => '\n' :: universalNewlines s
  | '\r' :: s => '\n' :: universalNewlines s
  | c :: s => c :: universalNewlines s
  | [] => []

/-- str.splitlines() of a text whose line ends are translated. -/
def splitlines (s : Str) : List Str :=
  let lines := s.splitOnP isLineBreak
  if lines.getLast? = some [] then lines.dropLast else lines

/-- Path(name).stem. A dot in front or at the end separates nothing. -/
def stem (name : Str) : Str :=
  let suffix := name.reverse.takeWhile (· ≠ '.')
  let base := (name.reverse.dropWhile (· ≠ '.')).tail
  if suffix = [] ∨ base = [] then name else base.reverse

def replaceUnderscores (s : Str) : Str := s.map fun c => if c = '_' then ' ' else c

def formatCategoryName (lib : PyLib) (filename : Str) : Str :=
  [' '].intercalate ((words (replaceUnderscores (stem filename))).map lib.capitalize)

def getDomain (lib : PyLib) (url : Str) : Str :=
  lib.lower (removePrefix "www.".toList ((lib.hostname url).getD []))

end LocalMarks.Marks2json

import LocalMarks.Lib.CText
import LocalMarks.Lib.Numeral

/-!
# JSON texts

A reader of JSON texts, byte by byte. Bytes from 128 on are ordinary characters of a string.
The readers return what they have read and the text after it.
-/

namespace LocalMarks.Lib

/-- A JSON value. A number is `mantissa * 10 ^ exponent`; the members of an object keep their
order. -/
inductive Json where
  | null
  | bool (b : Bool)
  | number (mantissa exponent : ℤ)
  | string (s : Bytes)
  | array (elements : List Json)
  | object (members : List (Bytes × Json))

/-! ### Strings -/

def hexDigit (c : Byte) : Option ℕ :=
  if isDigit c then some (c.toNat - 48)
  else if 97 ≤ c && c ≤ 102 then some (c.toNat - 87)
  else if 65 ≤ c && c ≤ 70 then some (c.toNat - 55)
  else none

def hexQuad : Bytes → Option (ℕ × Bytes)
  | a :: b :: c :: d :: s =>
    (hexDigit a).bind fun a => (hexDigit b).bind fun b => (hexDigit c).bind fun c =>
      (hexDigit d).map fun d => (((a * 16 + b) * 16 + c) * 16 + d, s)
  | _ => none

def utf8 (n : ℕ) : Bytes :=
  if n < 0x80 then [UInt8.ofNat n]
  else if n < 0x800 then [UInt8.ofNat (0xC0 + n / 64), UInt8.ofNat (0x80 + n % 64)]
  else if n < 0x10000 then
    [UInt8.ofNat (0xE0 + n / 4096), UInt8.ofNat (0x80 + n / 64 % 64), UInt8.ofNat (0x80 + n % 64)]
  else
    [UInt8.ofNat (0xF0 + n / 262144), UInt8.ofNat (0x80 + n / 4096 % 64),
      UInt8.ofNat (0x80 + n / 64 % 64), UInt8.ofNat (0x80 + n % 64)]

def readLowSurrogate (high : ℕ) : Bytes → Option (Bytes × Bytes)
  | 92 :: 117 :: s => (hexQuad s).bind fun (low, r) =>
    if 0xDC00 ≤ low ∧ low < 0xE000 then
      some (utf8 (0x10000 + (high - 0xD800) * 1024 + (low - 0xDC00)), r)
    else none
  | _ => none

def readUnicode (s : Bytes) : Option (Bytes × Bytes) :=
  (hexQuad s).bind fun (n, r) =>
    if 0xD800 ≤ n ∧ n < 0xDC00 then readLowSurrogate n r
    else if 0xDC00 ≤ n ∧ n < 0xE000 then none
    else some (utf8 n, r)

/-- The byte that a one-letter escape stands for. -/
def escapeLetter (c : Byte) : Option Byte :=
  if c = 34 ∨ c = 92 ∨ c = 47 then some c
  else if c = 98 then some 8
  else if c = 102 then some 12
  else if c = 110 then some 10
  else if c = 114 then some 13
  else if c = 116 then some 9
  else none

def readEscape : Bytes → Option (Bytes × Bytes)
  | [] => none
  | e :: r => if e = 117 then readUnicode r else (escapeLetter e).map fun x => ([x], r)

def readUnit : Bytes → Option (Bytes × Bytes)
  | [] => none
  | c :: r =>
    if c = 92 then readEscape r
    else if c < 32 ∨ c = 34 then none
    else some ([c], r)

/-- The characters up to the closing quote; `n` bounds their number. -/
def readString : ℕ → Bytes → Option (Bytes × Bytes)
  | 0, _ => none
  | n + 1, s =>
    if s.head? = some 34 then some ([], s.tail)
    else (readUnit s).bind fun (u, r) => (readString n r).map fun (v, r) => (u ++ v, r)

/-! ### Numbers -/

def readDigits (s : Bytes) : Option (Bytes × Bytes) :=
  let ds := s.takeWhile isDigit
  if ds = [] then none else some (ds, s.dropWhile isDigit)

def readFraction (s : Bytes) : Option (Bytes × Bytes) :=
  if s.head? = some 46 then readDigits s.tail else some ([], s)

def readExponent (s : Bytes) : Option (ℤ × Bytes) :=
  if s.head? = some 101 ∨ s.head? = some 69 then
    let (neg, t) := readSign s.tail
    (readDigits t).map fun (ds, r) => (if neg then -(digitsValue ds : ℤ) else digitsValue ds, r)
  else some (0, s)

def readNumber (s : Bytes) : Option (Json × Bytes) :=
  let neg := s.head? = some 45
  (readDigits (if neg then s.tail else s)).bind fun (ds, r) =>
    if ds.head? = some 48 ∧ ds.length ≠ 1 then none
    else
      (readFraction r).bind fun (fs, r) => (readExponent r).map fun (e, r) =>
        let m : ℤ := digitsValue (ds ++ fs)
        (.number (if neg then -m else m) (e - fs.length), r)

/-! ### Values -/

def isJsonSpace (c : Byte) : Bool := c == 32 || c == 9 || c == 10 || c == 13

def skipSpace (s : Bytes) : Bytes := s.dropWhile isJsonSpace

def expect (c : Byte) (s : Bytes) : Option Bytes :=
  if (skipSpace s).head? = some c then some (skipSpace s).tail else none

def readAtom (s : Bytes) : Option (Json × Bytes) :=
  if (ascii "true").isPrefixOf s then some (.bool true, s.drop 4)
  else if (ascii "false").isPrefixOf s then some (.bool false, s.drop 5)
  else if (ascii "null").isPrefixOf s then some (.null, s.drop 4)
  else readNumber s

def readStringValue (s : Bytes) : Option (Bytes × Bytes) := readString (s.length + 1) s

mutual

/-- `n` bounds the depth and the number of elements. -/
def readValue : ℕ → Bytes → Option (Json × Bytes)
  | 0, _ => none
  | n + 1, s =>
    match skipSpace s with
    | [] => none
    | c :: r =>
      if c = 34 then (readStringValue r).map fun (v, r) => (.string v, r)
      else if c = 91 then
        match expect 93 r with
        | some r => some (.array [], r)
        | none => (readElements n r).map fun (vs, r) => (.array vs, r)
      else if c = 123 then
        match expect 125 r with
        | some r => some (.object [], r)
        | none => (readMembers n r).map fun (ms, r) => (.object ms, r)
      else readAtom (c :: r)

def readElements : ℕ → Bytes → Option (List Json × Bytes)
  | 0, _ => none
  | n + 1, s =>
    (readValue n s).bind fun (v, r) =>
      match expect 44 r with
      | some r => (readElements n r).map fun (vs, r) => (v :: vs, r)
      | none => (expect 93 r).map fun r => ([v], r)

def readMembers : ℕ → Bytes → Option (List (Bytes × Json) × Bytes)
  | 0, _ => none
  | n + 1, s =>
    (expect 34 s).bind fun r => (readStringValue r).bind fun (k, r) =>
      (expect 58 r).bind fun r => (readValue n r).bind fun (v, r) =>
        match expect 44 r with
        | some r => (readMembers n r).map fun (ms, r) => ((k, v) :: ms, r)
        | none => (expect 125 r).map fun r => ([(k, v)], r)

end

/-- The value of a JSON text. -/
def parseJson (s : Bytes) : Option Json :=
  (readValue (s.length + 1) s).bind fun (v, r) => if skipSpace r = [] then some v else none

end LocalMarks.Lib

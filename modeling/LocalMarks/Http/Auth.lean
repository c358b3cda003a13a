import LocalMarks.Http.Response

/-!
# Basic authentication (auth.c)
-/

namespace LocalMarks.Http
open LocalMarks.Lib

def b64Char (c : Byte) : Option ℕ :=
  if 65 ≤ c && c ≤ 90 then some (c.toNat - 65)
  else if 97 ≤ c && c ≤ 122 then some (c.toNat - 97 + 26)
  else if isDigit c then some (c.toNat - 48 + 52)
  else if c = 43 then some 62
  else if c = 47 then some 63
  else none

/-- The padding loop: `n` more characters are looked at, and those that are `=` skipped. -/
def skipPad : ℕ → Bytes → ℕ × Bytes
  | n + 1, 61 :: s => let r := skipPad n s; (r.1 + 1, r.2)
  | n + 1, s => skipPad n s
  | 0, s => (0, s)

/-- The rest of a group of four, of which `n` characters are still to be read: the values, the
padding and the text after the group. -/
def b64Group : ℕ → Bytes → Option (List ℕ × ℕ × Bytes)
  | 0, s => some ([], 0, s)
  | _ + 1, [] => none
  | n + 1, c :: s =>
    if c = 61 then let r := skipPad n s; some ([], r.1 + 1, r.2)
    else (b64Char c).bind fun v => (b64Group n s).map fun (vs, pad, rest) => (v :: vs, pad, rest)

def b64Bytes (vs : List ℕ) (pad : ℕ) : Bytes :=
  let bits := vs.getD 0 0 * 2 ^ 18 + vs.getD 1 0 * 2 ^ 12 + vs.getD 2 0 * 2 ^ 6 + vs.getD 3 0
  [UInt8.ofNat (bits / 2 ^ 16)] ++ (if pad < 2 then [UInt8.ofNat (bits / 2 ^ 8)] else []) ++
    (if pad < 1 then [UInt8.ofNat bits] else [])

/-- The loop over the groups; every group takes at least one character. -/
def b64Loop : ℕ → Bytes → Bytes → Option Bytes
  | _, [], out => some out
  | 0, _, _ => none
  | fuel + 1, c :: s, out =>
    (b64Group 4 (c :: s)).bind fun (vs, pad, rest) => b64Loop fuel rest (out ++ b64Bytes vs pad)

/-- `b64_decode`: the bytes stored in a destination of `dstLen` bytes, before the NUL. -/
def b64Decode (src : Bytes) (dstLen : ℕ) : Option Bytes :=
  (b64Loop src.length src []).map (List.take (dstLen - 1))

/-- `auth_check`. -/
def authCheck (req : HttpRequest) (user pass : Option CString) : Bool :=
  let user := (user.map CString.bytes).getD []
  let pass := (pass.map CString.bytes).getD []
  if user = [] ∧ pass = [] then true
  else if (req.auth.bytes.take 6).map lowerByte = ascii "basic " then
    match b64Decode ((req.auth.bytes.drop 6).dropWhile (· == 32)) 512 with
    | none => false
    | some decoded =>
      match strchr 58 (cstr decoded) with
      | none => false
      | some (gotUser, gotPass) => gotUser == user && gotPass == pass
  else false

/-- `auth_send_challenge`. -/
def authSendChallenge (date : HttpDate) : Option Response :=
  responseSend date 401 (ascii "Unauthorized") (some (ascii "text/html; charset=utf-8"))
    [ascii "WWW-Authenticate: Basic realm=\"live-server\"\r\n", ascii "Cache-Control: no-store\r\n"]
    (ascii "<h1>401 Unauthorized</h1>") false true

theorem authSendChallenge_isSome (date : HttpDate) : (authSendChallenge date).isSome :=
  responseSend_isSome date false true (by decide) (by decide) (by decide) (by decide) (by decide)

end LocalMarks.Http

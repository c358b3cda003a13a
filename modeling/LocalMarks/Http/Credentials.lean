import LocalMarks.Http.Decoder
import LocalMarks.Http.Headers

/-!
# Credentials (auth.c, http.c)

A browser sends the user and the password as `Authorization: Basic`, base64 behind it.
`auth_check` takes exactly the right ones, as long as the value of the header was not cut.
-/

namespace LocalMarks.Http
open LocalMarks.Lib

/-- What is compared with; NULL counts as the empty string. -/
def credential (s : Option CString) : Bytes := (s.map CString.bytes).getD []

/-! ### Checking a value -/

theorem dropWhile_spaces (n : ℕ) {s : Bytes} (hs : ∀ c ∈ s.head?, c ≠ 32) :
    (List.replicate n 32 ++ s).dropWhile (· == 32) = s := by
  rw [List.dropWhile_append_of_pos fun c hc => by rw [List.eq_of_mem_replicate hc]; rfl]
  cases s with
  | nil => rfl
  | cons c s => exact List.dropWhile_cons_of_neg (by simpa using hs c rfl)

/-- With credentials configured, only what the text is decoded to counts. -/
theorem authCheck_decoded {req : HttpRequest} (user pass : Option CString) {scheme text : Bytes}
    {n : ℕ} (huser : 58 ∉ credential user) (hset : ¬ (credential user = [] ∧ credential pass = []))
    (hscheme : scheme.map lowerByte = ascii "basic ") (htext : ∀ c ∈ text.head?, c ≠ 32)
    (hauth : req.auth.bytes = scheme ++ (List.replicate n 32 ++ text)) :
    authCheck req user pass = true ↔
      ∃ d, b64Decode text 512 = some d ∧ cstr d = credential user ++ 58 :: credential pass := by
  have hlen : scheme.length = 6 := by
    have := congrArg List.length hscheme
    rwa [List.length_map] at this
  have htake : req.auth.bytes.take 6 = scheme := by
    rw [hauth]
    exact List.take_left' hlen
  have hdrop : (req.auth.bytes.drop 6).dropWhile (· == 32) = text := by
    rw [hauth, List.drop_left' hlen, dropWhile_spaces n htext]
  unfold credential at huser hset ⊢
  unfold authCheck
  dsimp only
  rw [htake, hdrop, if_neg hset, if_pos hscheme]
  cases b64Decode text 512 with
  | none => exact iff_of_false nofun nofun
  | some d =>
    dsimp only
    cases hcolon : strchr 58 (cstr d) with
    | none =>
      refine iff_of_false nofun ?_
      rintro ⟨d', hd', heq⟩
      cases hd'
      rw [heq, strchr_append _ huser] at hcolon
      cases hcolon
    | some parts =>
      obtain ⟨gotUser, gotPass⟩ := parts
      obtain ⟨hsplit, -⟩ := strchr_some.mp hcolon
      dsimp only
      rw [Bool.and_eq_true, beq_iff_eq, beq_iff_eq]
      constructor
      · rintro ⟨rfl, rfl⟩
        exact ⟨d, rfl, hsplit⟩
      · rintro ⟨d', hd', heq⟩
        cases hd'
        rw [heq, strchr_append _ huser] at hcolon
        cases hcolon
        exact ⟨rfl, rfl⟩

theorem base64_head_ne_space (s : Bytes) : ∀ c ∈ (base64 s).head?, c ≠ 32 := by
  intro c hc h32
  have := (base64_graphic s c (List.mem_of_mem_head? hc)).1
  rw [h32] at this
  exact absurd this (by decide)

theorem b64Decode_credentials {s : Bytes} (hnul : 0 ∉ s) (hlen : s.length ≤ 511) :
    ∃ d, b64Decode (base64 s) 512 = some d ∧ cstr d = s := by
  refine ⟨s.take 511, b64Decode_base64 s 512, ?_⟩
  rw [List.take_of_length_le hlen, cstr_of_nul_free hnul]

/-- Base64 of any text is accepted exactly if the text is the configured user, a colon and the
configured password; no text whatever makes the decoder leave its buffer of 512 bytes. -/
theorem authCheck_base64_iff (req : HttpRequest) (user pass : Option CString) (scheme : Bytes)
    (n : ℕ) (text : CString) (huser : 58 ∉ credential user)
    (hset : ¬ (credential user = [] ∧ credential pass = []))
    (hscheme : scheme.map lowerByte = ascii "basic ")
    (hauth : req.auth.bytes = scheme ++ (List.replicate n 32 ++ base64 text.bytes)) :
    (authCheck req user pass = true ↔ text.bytes = credential user ++ 58 :: credential pass) ∧
      ∀ src byte, ∀ i ∈ (b64DecodeMem src 512 byte).2.touched, i < 512 := by
  constructor
  · rw [authCheck_decoded user pass huser hset hscheme (base64_head_ne_space _) hauth]
    have hfits := req.auth.fits
    rw [hauth, List.length_append, List.length_append, base64_length] at hfits
    obtain ⟨d, hd, hcstr⟩ := b64Decode_credentials text.nul_free (by omega)
    constructor
    · rintro ⟨d', hd', heq⟩
      rw [hd] at hd'
      cases hd'
      rw [← hcstr, heq]
    · intro heq
      exact ⟨d, hd, hcstr.trans heq⟩
  · intro src byte i hi
    exact Nat.lt_succ_of_le ((b64DecodeMem_spec src 512 byte).2.1 i hi)

def userU : CString := ⟨ascii "u", by decide⟩
def passP : CString := ⟨ascii "p", by decide⟩

def colonRequest : HttpRequest :=
  { emptyRequest 0 with auth := fieldOf 512 authSize_pos (ascii "BASIC  dTpw") }

theorem authCheck_base64_colon :
    (authCheck colonRequest (some userU) (some passP) = true ↔
      ascii "u:p" = ascii "u" ++ 58 :: ascii "p") ∧
      ∀ src byte, ∀ i ∈ (b64DecodeMem src 512 byte).2.touched, i < 512 :=
  authCheck_base64_iff colonRequest (some userU) (some passP) (ascii "BASIC ") 1
    ⟨ascii "u:p", by decide⟩ (by decide) (by decide) (by decide) (by decide)

/-! ### Credentials that were sent -/

def credentials (user pass : CString) : Bytes := user.bytes ++ 58 :: pass.bytes

theorem credentials_length (user pass : CString) :
    (credentials user pass).length = user.bytes.length + 1 + pass.bytes.length := by
  rw [credentials, List.length_append, List.length_cons]
  omega

theorem credentials_nul_free (user pass : CString) : 0 ∉ credentials user pass := by
  intro h
  rcases List.mem_append.mp h with h | h
  · exact user.nul_free h
  · rcases List.mem_cons.mp h with h | h
    · cases h
    · exact pass.nul_free h

def authHeader (user pass : CString) : Header where
  name := ascii "Authorization"
  value := ascii "Basic " ++ base64 (credentials user pass)
  name_ne := by decide
  name_token := by decide +kernel
  value_printable := by
    intro c hc
    rcases List.mem_append.mp hc with hc | hc
    · have hall : ∀ c ∈ ascii "Basic ", 32 ≤ c ∧ c ≤ 126 := by decide +kernel
      exact hall c hc
    · obtain ⟨h33, h126⟩ := base64_graphic _ c hc
      have h32 : (32 : Byte) ≤ 33 := by decide
      exact ⟨UInt8.le_trans h32 h33, h126⟩
  value_first := nofun
  value_last := by
    intro hlast
    have hne : base64 (credentials user pass) ≠ [] := by
      intro hnil
      have hlen := base64_length (credentials user pass)
      rw [hnil, credentials_length, List.length_nil] at hlen
      omega
    rw [List.getLast?_append_of_ne_nil _ hne] at hlast
    have hgraphic := (base64_graphic _ 32 (List.mem_of_getLast? hlast)).1
    exact absurd hgraphic (by decide)

theorem lastSent_append {name : Bytes} (before : List Header) {h : Header} (after : List Header)
    (hname : h.name.map lowerByte = name)
    (hafter : ∀ h' ∈ after, h'.name.map lowerByte ≠ name) :
    lastSent (before ++ h :: after) name = h.value := by
  have hnone : after.filter (fun h' => h'.name.map lowerByte = name) = [] :=
    List.filter_eq_nil_iff.mpr fun h' hh' => by simpa using hafter h' hh'
  unfold lastSent
  rw [List.filter_append, List.filter_cons_of_pos (by simpa using hname), hnone,
    List.getLast?_concat]
  rfl

theorem b64Decode_cut {s : Bytes} (hlen : 379 ≤ s.length) :
    b64Decode ((base64 s).take 505) 512 = none := by
  have hbase := base64_length s
  have hletters := base64_take_inAlphabet s (n := 505) (by omega)
  have hself : ((base64 s).take 505).rtakeWhile (· != 61) = (base64 s).take 505 := by
    rw [List.rtakeWhile_eq_self_iff]
    intro c hc
    simpa using (hletters c hc).ne_pad
  rw [← Option.not_isSome_iff_eq_none, b64Decode_isSome, hself, List.length_take,
    Nat.min_eq_left (by omega)]
  exact fun h => absurd h.2 (by decide)

/-- What `auth_check` makes of the field that the header leaves behind. -/
theorem authCheck_field {req : HttpRequest} {user pass : CString} (huser : 58 ∉ user.bytes)
    (hauth : req.auth.bytes = (authHeader user pass).value.take 511) :
    authCheck req (some user) (some pass) = true ↔
      user.bytes.length + 1 + pass.bytes.length ≤ 378 := by
  have hbase := base64_length (credentials user pass)
  rw [← credentials_length]
  have hvalue : req.auth.bytes =
      ascii "Basic " ++ (List.replicate 0 32 ++ (base64 (credentials user pass)).take 505) := by
    rw [hauth]
    rfl
  by_cases hset : user.bytes = [] ∧ pass.bytes = []
  · refine iff_of_true ?_ ?_
    · exact if_pos hset
    · rw [credentials_length, hset.1, hset.2]
      decide
  · have hhead : ∀ c ∈ ((base64 (credentials user pass)).take 505).head?, c ≠ 32 := by
      intro c hc
      rw [List.head?_take] at hc
      exact base64_head_ne_space _ c hc
    rw [authCheck_decoded (some user) (some pass) huser hset (by decide) hhead hvalue]
    by_cases hlen : (credentials user pass).length ≤ 378
    · rw [List.take_of_length_le (by omega)]
      exact iff_of_true (b64Decode_credentials (credentials_nul_free user pass) (by omega)) hlen
    · rw [b64Decode_cut (by omega)]
      exact iff_of_false (fun ⟨d, hd, _⟩ => by cases hd) hlen

/-- A request with the right credentials, behind any headers and before any other ones, is let in
exactly if user and password have at most 377 bytes together. -/
theorem credentials_accepted_iff (first : FirstLine) (user pass : CString) (huser : 58 ∉ user.bytes)
    (before after : List Header)
    (hlast : ∀ h ∈ after, h.name.map lowerByte ≠ ascii "authorization")
    (d : Delivery (blockOf (first.line :: (before ++ authHeader user pass :: after).map
      Header.text)))
    (hfit : (blockOf (first.line :: (before ++ authHeader user pass :: after).map
      Header.text)).length ≤ 8190) (byte : ℕ → Byte) :
    ∃ req t', httpParseRequestMem d.conn true byte =
        .ok (blockOf (first.line :: (before ++ authHeader user pass :: after).map Header.text))
          req t' ∧
      (authCheck req (some user) (some pass) = true ↔
        user.bytes.length + 1 + pass.bytes.length ≤ 378) := by
  obtain ⟨req, t', hparse, hfields⟩ := delivered_fields d first _ rfl hfit byte
  refine ⟨req, t', hparse, authCheck_field huser ?_⟩
  have hsent := lastSent_append before after (h := authHeader user pass) rfl hlast
  exact (hfields .auth).trans (congrArg (List.take 511) hsent)

def longPass : CString := ⟨List.replicate 377 112, by decide +kernel⟩

theorem onePiece_pos : ∀ k ∈ [4096], 0 < k := by decide

def onePiece {block : Bytes} (h : block.length ≤ 4096) : Delivery block where
  rest := []
  sizes := [4096]
  later := []
  pos := onePiece_pos
  enough := h

theorem shortRequest_length : (blockOf (rootLine.line ::
    ([firstHost] ++ authHeader userU passP :: [secondHost]).map Header.text)).length ≤ 4096 := by
  decide +kernel

theorem credentials_accepted_short : ∃ req t',
    httpParseRequestMem (onePiece shortRequest_length).conn true (fun _ => 1) =
        .ok (blockOf (rootLine.line ::
          ([firstHost] ++ authHeader userU passP :: [secondHost]).map Header.text)) req t' ∧
      (authCheck req (some userU) (some passP) = true ↔
        userU.bytes.length + 1 + passP.bytes.length ≤ 378) :=
  credentials_accepted_iff rootLine userU passP (by decide) [firstHost] [secondHost] (by decide)
    (onePiece shortRequest_length) (shortRequest_length.trans (by decide)) fun _ => 1

theorem longRequest_length :
    (blockOf (rootLine.line :: [authHeader userU longPass].map Header.text)).length ≤ 4096 := by
  decide +kernel

theorem longPass_refused : ∃ req t',
    httpParseRequestMem (onePiece longRequest_length).conn true (fun _ => 1) =
        .ok (blockOf (rootLine.line :: [authHeader userU longPass].map Header.text)) req t' ∧
      authCheck req (some userU) (some longPass) = false := by
  obtain ⟨req, t', hparse, hfields⟩ := delivered_fields (onePiece longRequest_length) rootLine
    [authHeader userU longPass] rfl (longRequest_length.trans (by decide)) fun _ => 1
  refine ⟨req, t', hparse, ?_⟩
  rw [← Bool.not_eq_true, authCheck_field (by decide) (hfields .auth)]
  decide +kernel

end LocalMarks.Http

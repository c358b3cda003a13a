import LocalMarks.Server.Closing

/-!
# Only authorised requests are served

With a user or a password configured, a response other than 400 and 401 answers a request
whose own header block carries the credentials, and a 401 is the last thing on its connection.
-/

namespace LocalMarks.Server
open LocalMarks.Lib
open LocalMarks.Http

/-- A user or a password that is not empty. -/
def Protected (cfg : ServerConfig) : Prop :=
  (∃ u, cfg.user = some u ∧ u.bytes ≠ []) ∨ ∃ p, cfg.pass = some p ∧ p.bytes ≠ []

/-- The line is an Authorization header, and `auth` what is kept of its value. -/
def AuthorizationLine (line : Bytes) (auth : FieldString 512) : Prop :=
  ∃ before after, strchr 58 line = some (before, after) ∧
    ((trim before).take 255).map lowerByte = ascii "authorization" ∧
      auth = fieldOf 512 (Nat.succ_pos 511) (trim after)

def Event.challenges : Event → Bool
  | .respond _ _ r => r.status == 401
  | _ => false

/-- The answer of round `k` is to a request that its own header block authorises. -/
def Authorized (cfg : ServerConfig) (es : List Event) (k : ℕ) (req? : Option HttpRequest) :
    Prop :=
  ∃ block req, req? = some req ∧ .read k (some block) ∈ es ∧ parseBlock block = some req ∧
    authCheck req cfg.user cfg.pass = true ∧
      ∃ line ∈ (splitLines (cstr block)).tail, AuthorizationLine line req.auth

/-- Nothing but 400 and 401 goes to requests that are not authorised. -/
def ServesAuthorized (cfg : ServerConfig) (es : List Event) : Prop :=
  ∀ k req? r, .respond k req? r ∈ es → r.status ≠ 400 → r.status ≠ 401 → Authorized cfg es k req?

/-- After a 401 nothing more is read or answered. -/
def EndsAtChallenge (es : List Event) : Prop :=
  es.Pairwise fun a b => a.challenges = true → b.serves = false

/-! ### Where the credentials come from -/

theorem parseRange_auth (spec : Bytes) (r : HttpRequest) : (parseRange spec r).auth = r.auth := by
  unfold parseRange
  split
  · rfl
  · dsimp only
    split
    · rfl
    · split <;> rfl

theorem parseHeader_auth (line : Bytes) (r : HttpRequest) :
    (parseHeader line r).auth = r.auth ∨ AuthorizationLine line (parseHeader line r).auth := by
  unfold parseHeader
  split
  · exact .inl rfl
  · rename_i before after hsplit
    dsimp only
    split
    · exact .inl rfl
    · split
      · rename_i hname
        exact .inr ⟨before, after, hsplit, hname, rfl⟩
      · refine .inl ?_
        split
        · rfl
        · split
          · rfl
          · split
            · rfl
            · split
              · split
                · exact parseRange_auth _ _
                · rfl
              · rfl

theorem parseLines_auth (lines : List Bytes) (r : HttpRequest) :
    (lines.foldl parseHeaderLine r).auth = r.auth ∨
      ∃ line ∈ lines, AuthorizationLine line (lines.foldl parseHeaderLine r).auth := by
  induction lines generalizing r with
  | nil => exact .inl rfl
  | cons line lines ih =>
    rw [List.foldl_cons]
    rcases ih (parseHeaderLine r line) with hkeep | ⟨l, hl, hauth⟩
    · have hline : (parseHeaderLine r line).auth = r.auth ∨
          AuthorizationLine line (parseHeaderLine r line).auth := by
        unfold parseHeaderLine
        split
        · exact .inl rfl
        · exact parseHeader_auth line r
      rcases hline with hsame | hset
      · exact .inl (hkeep.trans hsame)
      · refine .inr ⟨line, List.mem_cons_self .., ?_⟩
        rw [hkeep]
        exact hset
    · exact .inr ⟨l, List.mem_cons_of_mem _ hl, hauth⟩

theorem parseRequestLine_auth {line : Bytes} {r r' : HttpRequest}
    (h : parseRequestLine line r = some r') : r'.auth = r.auth := by
  simp only [parseRequestLine, Option.bind_eq_some_iff] at h
  obtain ⟨⟨name, rest⟩, -, ⟨uri, version⟩, -, h⟩ := h
  dsimp only at h
  split at h
  · cases h
  · cases h
    rfl

theorem parseBlock_auth {block : Bytes} {req : HttpRequest} (h : parseBlock block = some req) :
    req.auth.bytes = [] ∨ ∃ line ∈ (splitLines (cstr block)).tail,
      AuthorizationLine line req.auth := by
  unfold parseBlock at h
  split at h
  · cases h
    exact .inl rfl
  · rename_i first lines hlines
    obtain ⟨r, hr, rfl⟩ := Option.map_eq_some_iff.mp h
    rcases parseLines_auth lines r with hkeep | hset
    · left
      rw [hkeep, parseRequestLine_auth hr]
      rfl
    · right
      rw [hlines]
      exact hset

theorem authCheck_header {cfg : ServerConfig} (hcfg : Protected cfg) {req : HttpRequest}
    (h : authCheck req cfg.user cfg.pass = true) : req.auth.bytes ≠ [] := by
  have hset : ¬((cfg.user.map CString.bytes).getD [] = [] ∧
      (cfg.pass.map CString.bytes).getD [] = []) := by
    rintro ⟨hu, hp⟩
    rcases hcfg with ⟨u, huser, hne⟩ | ⟨p, hpass, hne⟩
    · rw [huser] at hu
      exact hne hu
    · rw [hpass] at hp
      exact hne hp
  intro hempty
  unfold authCheck at h
  dsimp only at h
  rw [if_neg hset, hempty] at h
  cases h

theorem Protected.asks {cfg : ServerConfig} (hcfg : Protected cfg) {req : HttpRequest}
    (h : denied cfg req = false) : authCheck req cfg.user cfg.pass = true := by
  have hset : (cfg.user.isSome || cfg.pass.isSome) = true := by
    rcases hcfg with ⟨u, hu, -⟩ | ⟨p, hp, -⟩
    · simp [hu]
    · simp [hp]
  simpa [denied, hset] using h

/-! ### The statuses of the answers -/

/-- What the API and the embedded files answer with. -/
def answerStatuses : List ℕ := [200, 206, 304, 404, 405, 416, 500]

theorem jsonOrError_status {svc : Services} {json : Option Blob} {detail : Bytes}
    {keepAlive : Bool} {r : Response} (h : jsonOrError svc json detail keepAlive = some r) :
    r.status ∈ answerStatuses := by
  unfold jsonOrError at h
  split at h
  · rw [responseSend_status h]
    decide
  · rw [responseSend_status h]
    decide

theorem fileServe_status {svc : Services} {req : HttpRequest} {keepAlive : Bool} {r : Response}
    (h : fileServe svc req keepAlive = some r) : r.status ∈ answerStatuses := by
  unfold fileServe at h
  split at h
  · rw [responseSend_status h]
    decide
  · split at h
    · rw [responseSend_status h]
      decide
    · unfold serveEntry at h
      dsimp only at h
      split at h
      · rw [responseSend_status h]
        decide
      · split at h <;>
          · rw [responseSend_status h]
            decide

theorem answer_status {svc : Services} {firstDb : Bool} {req : HttpRequest} {keepAlive : Bool}
    {r : Response} (h : answer svc firstDb req keepAlive = some r) :
    r.status ∈ answerStatuses := by
  unfold answer apiHandleRequest at h
  cases hroute : routeOf firstDb req with
  | file =>
    rw [hroute] at h
    exact fileServe_status h
  | firstBookmark | databases =>
    rw [hroute] at h
    exact jsonOrError_status h
  | bookmark index =>
    rw [hroute] at h
    dsimp only at h
    by_cases hlen : 32 ≤ index.length
    · rw [if_pos hlen] at h
      rw [responseSend_status h]
      decide
    · rw [if_neg hlen] at h
      cases hi : databaseIndex svc index with
      | none =>
        rw [hi] at h
        rw [responseSend_status h]
        decide
      | some i =>
        rw [hi] at h
        exact jsonOrError_status h
  | database index =>
    rw [hroute] at h
    dsimp only at h
    by_cases hnil : index = []
    · rw [if_pos hnil] at h
      rw [responseSend_status h]
      decide
    · rw [if_neg hnil] at h
      cases hi : databaseIndex svc index with
      | none =>
        rw [hi] at h
        rw [responseSend_status h]
        decide
      | some i =>
        rw [hi] at h
        exact jsonOrError_status h

theorem answer_not_challenge {svc : Services} {firstDb : Bool} {req : HttpRequest}
    {keepAlive : Bool} {r : Response} (h : answer svc firstDb req keepAlive = some r) :
    r.status ≠ 401 := by
  intro hr
  have hmem := answer_status h
  rw [hr] at hmem
  exact absurd hmem (by decide)

/-! ### One round -/

theorem authorized_of_parse {cfg : ServerConfig} (hcfg : Protected cfg) {t t' : Conn}
    {mallocOk : Bool} {block : Bytes} {req : HttpRequest} {k : ℕ} {es : List Event}
    (hp : httpParseRequest t mallocOk = .ok block req t') (hd : denied cfg req = false)
    (hread : .read k (some block) ∈ es) : Authorized cfg es k (some req) := by
  have hblock := (httpParseRequest_ok hp).2
  have hcheck := hcfg.asks hd
  have hline := (parseBlock_auth hblock).resolve_left (authCheck_header hcfg hcheck)
  exact ⟨block, req, rfl, hread, hblock, hcheck, hline⟩

theorem clientRound_authorized {cfg : ServerConfig} (hcfg : Protected cfg) (env : Round) (k : ℕ)
    (t : Conn) : ServesAuthorized cfg (clientRound cfg env k t).1 := by
  have hstep := clientRound_step cfg env k t
  generalize clientRound cfg env k t = r at hstep
  intro j req? resp hmem h400 h401
  cases hstep with
  | noMemory | readFailed =>
    obtain ⟨-, -, rfl⟩ : j = k ∧ req? = none ∧ resp = badRequest := by simpa using hmem
    exact absurd rfl h400
  | badLine block hp =>
    obtain ⟨-, -, rfl⟩ : j = k ∧ req? = none ∧ resp = badRequest := by simpa using hmem
    exact absurd rfl h400
  | denied block req t' r hp hd hr =>
    obtain ⟨-, -, rfl⟩ : j = k ∧ req? = some req ∧ resp = r := by simpa using hmem
    exact absurd (responseSend_status hr) h401
  | closed block req t' r hp hd hk hr =>
    obtain ⟨rfl, rfl, -⟩ : j = k ∧ req? = some req ∧ resp = r := by simpa using hmem
    exact authorized_of_parse hcfg hp hd (by simp)
  | kept block req t' r hp hd hk hr =>
    obtain ⟨rfl, rfl, -⟩ : j = k ∧ req? = some req ∧ resp = r := by simpa using hmem
    exact authorized_of_parse hcfg hp hd (by simp)

theorem clientRound_challenge (cfg : ServerConfig) (env : Round) (k : ℕ) (t : Conn) :
    EndsAtChallenge (clientRound cfg env k t).1 := by
  have hstep := clientRound_step cfg env k t
  generalize clientRound cfg env k t = r at hstep
  cases hstep <;> simp [EndsAtChallenge, Event.challenges, Event.serves]

theorem clientRound_next_challenge {cfg : ServerConfig} {env : Round} {k : ℕ} {t t' : Conn}
    (h : (clientRound cfg env k t).2 = some t') :
    ∀ e ∈ (clientRound cfg env k t).1, e.challenges = false := by
  have hstep := clientRound_step cfg env k t
  generalize clientRound cfg env k t = r at h hstep
  cases hstep with
  | kept block req t'' r hp hd hk hr =>
    have hstatus := answer_not_challenge hr
    simp [Event.challenges, hstatus]
  | _ => cases h

/-! ### The whole connection -/

theorem Authorized.mono {cfg : ServerConfig} {es fs : List Event} {k : ℕ}
    {req? : Option HttpRequest} (h : Authorized cfg es k req?) (hsub : es ⊆ fs) :
    Authorized cfg fs k req? := by
  obtain ⟨block, req, hreq, hread, hrest⟩ := h
  exact ⟨block, req, hreq, hsub hread, hrest⟩

theorem clientFrom_authorized {cfg : ServerConfig} (hcfg : Protected cfg) (env : ℕ → Round)
    (k : ℕ) (t : Conn) : ServesAuthorized cfg (clientFrom cfg env k t) := by
  induction k, t using clientFrom_induct cfg env with
  | last k t h =>
    rw [clientFrom_last h]
    exact clientRound_authorized hcfg (env k) k t
  | next k t t' h ih =>
    rw [clientFrom_next h]
    intro j req? r hmem h400 h401
    rcases List.mem_append.mp hmem with hmem | hmem
    · exact (clientRound_authorized hcfg (env k) k t j req? r hmem h400 h401).mono
        (List.subset_append_left ..)
    · exact (ih j req? r hmem h400 h401).mono (List.subset_append_right ..)

theorem clientFrom_challenge (cfg : ServerConfig) (env : ℕ → Round) (k : ℕ) (t : Conn) :
    EndsAtChallenge (clientFrom cfg env k t) := by
  induction k, t using clientFrom_induct cfg env with
  | last k t h =>
    rw [clientFrom_last h]
    exact clientRound_challenge cfg (env k) k t
  | next k t t' h ih =>
    rw [clientFrom_next h]
    refine List.pairwise_append.mpr ⟨clientRound_challenge cfg (env k) k t, ih, ?_⟩
    intro a ha b _ hchallenge
    rw [clientRound_next_challenge h a ha] at hchallenge
    cases hchallenge

/-- With credentials configured, on every connection: what is not a 400 or a 401 answers a
request that carries them itself, and after a 401 the connection is left alone. -/
theorem only_authorized_served (cfg : ServerConfig) (hcfg : Protected cfg) (env : ℕ → Round)
    (t : Conn) : ServesAuthorized cfg (handleClient cfg env t) ∧
      EndsAtChallenge (handleClient cfg env t) :=
  ⟨clientFrom_authorized hcfg env 0 t, clientFrom_challenge cfg env 0 t⟩

/-- A server for the user `ana`, and a client that gives her name. -/
def anaServer : ServerConfig := { bareServer with user := some ⟨ascii "ana", by decide⟩ }

def anaRequest : Bytes :=
  ascii "GET /missing HTTP/1.1\r\nAuthorization: Basic YW5hOg==\r\n\r\n"

def anaConn : Conn := ⟨anaRequest ++ missingRequest, [.data 56, .data 25]⟩

theorem only_authorized_served_ana : Protected anaServer ∧
    (∃ req r, .respond 0 (some req) r ∈ handleClient anaServer (fun _ => bareRound) anaConn ∧
      r.status ∈ answerStatuses) ∧
    ServesAuthorized anaServer (handleClient anaServer (fun _ => bareRound) anaConn) ∧
    EndsAtChallenge (handleClient anaServer (fun _ => bareRound) anaConn) := by
  have hcfg : Protected anaServer := .inl ⟨_, rfl, by decide⟩
  have hread : readHeaders anaConn (rawBufSize - 1) =
      (some anaRequest, ⟨missingRequest, [.data 25]⟩) := by decide +kernel
  have hparse : (parseBlock anaRequest).map (denied anaServer) = some false := by decide +kernel
  obtain ⟨req, hreq, hin⟩ := Option.map_eq_some_iff.mp hparse
  have hround : httpParseRequest anaConn true = .ok anaRequest req ⟨missingRequest, [.data 25]⟩ :=
    httpParseRequest_of_block hread (by decide +kernel) hreq
  have hserved : ∃ r, .respond 0 (some req) r ∈ (clientRound anaServer bareRound 0 anaConn).1 ∧
      r.status ∈ answerStatuses := by
    obtain ⟨r, hr⟩ := Option.isSome_iff_exists.mp (answer_ends bareRound.svc anaServer.firstDb req
      (wantsKeepAlive req anaServer.keepAliveTimeout)).written
    refine ⟨r, ?_, answer_status hr⟩
    have hok : httpParseRequest anaConn bareRound.mallocOk =
      .ok anaRequest req ⟨missingRequest, [.data 25]⟩ := hround
    simp only [clientRound, hok, hin, Bool.false_eq_true, if_false, hr, wrote]
    split
    · simp
    · simp [bareRound]
  obtain ⟨r, hr, hstatus⟩ := hserved
  exact ⟨hcfg, ⟨req, r, mem_clientFrom hr, hstatus⟩,
    only_authorized_served anaServer hcfg (fun _ => bareRound) anaConn⟩

end LocalMarks.Server

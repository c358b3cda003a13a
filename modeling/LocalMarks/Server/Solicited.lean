import LocalMarks.Http.Delivered
import LocalMarks.Server.Pipeline

/-!
# Responses and the requests they answer

What passes over the wire while `handle_client` runs: the bytes that its reads deliver and the
responses it writes. `http_parse_request` reports a connection on which nothing more comes like
a malformed request, and the loop answers both with a 400.
-/

namespace LocalMarks.Server
open LocalMarks.Lib
open LocalMarks.Http

/-- A byte counts as delivered when a read returns it. -/
inductive Wire where
  | received (b : Bytes)
  | wrote (r : Response)

def Wire.bytes : Wire → Bytes
  | .received b => b
  | .wrote _ => []

def Wire.isResponse : Wire → Bool
  | .received _ => false
  | .wrote _ => true

def delivered (w : List Wire) : Bytes := w.flatMap Wire.bytes
def responses (w : List Wire) : ℕ := w.countP Wire.isResponse

/-- At every point at most as many responses have been written as requests begun. -/
def Solicited (w : List Wire) : Prop :=
  ∀ front, front <+: w → responses front ≤ requestsBegun (delivered front)

/-! ### The reads of one round -/

/-- What the reads of `readLoop` deliver, one by one. -/
def readChunks (max : ℕ) (stream : Bytes) : List ReadOutcome → Bytes → List Bytes
  | [], _ => []
  | o :: os, buf =>
    if buf.length + 1 < max then
      match readOutcome o (min (max - buf.length) maxRead) stream with
      | none => []
      | some b =>
        match findBlankLine (buf ++ b) (buf.length - 3) with
        | some _ => [b]
        | none => b :: readChunks max (stream.drop b.length) os (buf ++ b)
    else []

/-- The reads of `http_parse_request`. -/
def roundReads (mallocOk : Bool) (t : Conn) : List Bytes :=
  if mallocOk then readChunks (rawBufSize - 1) t.stream t.sched [] else []

def Event.wire : Event → Option Wire
  | .respond _ _ r => some (.wrote r)
  | _ => none

/-- One round on the wire: it reads, then it answers. -/
def roundWire (cfg : ServerConfig) (env : Round) (k : ℕ) (t : Conn) : List Wire :=
  (roundReads env.mallocOk t).map .received ++ (clientRound cfg env k t).1.filterMap Event.wire

/-- A round of the loop as it begins: its number, the bytes delivered in the rounds before it,
and the connection. -/
structure RoundStart where
  k : ℕ
  got : Bytes
  conn : Conn

def rounds (cfg : ServerConfig) (env : ℕ → Round) (k : ℕ) (got : Bytes) (t : Conn) :
    List RoundStart :=
  ⟨k, got, t⟩ ::
    match _h : (clientRound cfg (env k) k t).2 with
    | none => []
    | some t' => rounds cfg env (k + 1) (got ++ (roundReads (env k).mallocOk t).flatten) t'
termination_by t.sched.length
decreasing_by exact clientRound_next _h

/-- `handle_client` on the wire. -/
def clientWire (cfg : ServerConfig) (env : ℕ → Round) (t : Conn) : List Wire :=
  (rounds cfg env 0 [] t).flatMap fun s => roundWire cfg (env s.k) s.k s.conn

/-- All bytes delivered up to the end of the round. -/
def RoundStart.through (env : ℕ → Round) (s : RoundStart) : Bytes :=
  s.got ++ (roundReads (env s.k).mallocOk s.conn).flatten

/-- The round ends before its first byte: there is no memory for the raw buffer, or the first
read finds the end of the stream, times out or fails. -/
def ReceivesNothing (mallocOk : Bool) (t : Conn) : Prop :=
  mallocOk = false ∨ ∀ o ∈ t.sched.head?, readOutcome o maxRead t.stream = none

/-- The raw buffer is full before the blank line, and what is in it is taken for the block. -/
def BlockCut (t : Conn) : Prop :=
  ∃ block t', readHeaders t (rawBufSize - 1) = (some block, t') ∧ ¬ blankLine <:+: block

theorem rounds_last {cfg : ServerConfig} {env : ℕ → Round} {k : ℕ} {t : Conn} (got : Bytes)
    (h : (clientRound cfg (env k) k t).2 = none) : rounds cfg env k got t = [⟨k, got, t⟩] := by
  rw [rounds]
  split
  · rfl
  · rename_i h'
    rw [h] at h'
    cases h'

theorem rounds_next {cfg : ServerConfig} {env : ℕ → Round} {k : ℕ} {t t' : Conn} (got : Bytes)
    (h : (clientRound cfg (env k) k t).2 = some t') :
    rounds cfg env k got t = ⟨k, got, t⟩ ::
      rounds cfg env (k + 1) (got ++ (roundReads (env k).mallocOk t).flatten) t' := by
  rw [rounds]
  split
  · rename_i h'
    rw [h] at h'
    cases h'
  · rename_i h'
    rw [h] at h'
    cases h'
    rfl

/-- The rounds are those of `handle_client`. -/
theorem handleClient_rounds (cfg : ServerConfig) (env : ℕ → Round) (t : Conn) :
    handleClient cfg env t =
      (rounds cfg env 0 [] t).flatMap fun s => (clientRound cfg (env s.k) s.k s.conn).1 := by
  have hfrom : ∀ got, clientFrom cfg env 0 t =
      (rounds cfg env 0 got t).flatMap fun s => (clientRound cfg (env s.k) s.k s.conn).1 := by
    generalize 0 = k
    induction k, t using clientFrom_induct cfg env with
    | last k t h =>
      intro got
      rw [clientFrom_last h, rounds_last got h, List.flatMap_singleton]
    | next k t t' h ih =>
      intro got
      rw [clientFrom_next h, rounds_next got h, List.flatMap_cons, ← ih]
  exact hfrom []

theorem readChunks_stream (max : ℕ) (stream : Bytes) (sched : List ReadOutcome) (buf : Bytes) :
    (readChunks max stream sched buf).flatten ++ (readLoop max stream sched buf).2.stream =
      stream := by
  induction sched generalizing stream buf with
  | nil =>
    unfold readLoop
    split <;> rfl
  | cons o os ih =>
    unfold readLoop readChunks
    split
    · cases hr : readOutcome o (min (max - buf.length) maxRead) stream with
      | none => rfl
      | some b =>
        have hsplit := List.prefix_append_drop (readOutcome_taken hr).1
        dsimp only
        cases findBlankLine (buf ++ b) (buf.length - 3) with
        | some n =>
          dsimp only
          rw [List.flatten_singleton, ← hsplit]
        | none =>
          dsimp only
          rw [List.flatten_cons, List.append_assoc, ih, ← hsplit]
    · rfl

theorem readLoop_block_prefix {max : ℕ} {stream buf block : Bytes} {sched : List ReadOutcome}
    {t' : Conn} (h : readLoop max stream sched buf = (some block, t')) :
    block <+: buf ++ (readChunks max stream sched buf).flatten := by
  have hreturned := readLoop_returned h
  clear h
  induction hreturned with
  | full _ => exact List.prefix_append _ _
  | found hroom hread hfound =>
    rw [readChunks, if_pos hroom, hread]
    dsimp only
    rw [hfound]
    dsimp only
    rw [List.flatten_singleton]
    exact List.take_prefix _ _
  | more hroom hread hnone _ ih =>
    rw [readChunks, if_pos hroom, hread]
    dsimp only
    rw [hnone]
    dsimp only
    rw [List.flatten_cons, ← List.append_assoc]
    exact ih

theorem roundReads_nonempty {mallocOk : Bool} {t : Conn} (h : ¬ ReceivesNothing mallocOk t) :
    (roundReads mallocOk t).flatten ≠ [] := by
  unfold ReceivesNothing at h
  push Not at h
  obtain ⟨hmalloc, o, ho, hread⟩ := h
  replace hmalloc := eq_true_of_ne_false hmalloc
  obtain ⟨os, hsched⟩ : ∃ os, t.sched = o :: os := by
    cases hs : t.sched with
    | nil =>
      rw [hs] at ho
      cases ho
    | cons o' os =>
      rw [hs] at ho
      cases ho
      exact ⟨os, rfl⟩
  obtain ⟨b, hb⟩ := Option.ne_none_iff_exists'.mp hread
  have hb_ne := (readOutcome_taken hb).2
  have hwant : min (rawBufSize - 1 - ([] : Bytes).length) maxRead = maxRead := by decide
  rw [roundReads, if_pos hmalloc, hsched, readChunks, if_pos (by decide), hwant, hb]
  dsimp only
  split
  · rw [List.flatten_singleton]
    exact hb_ne
  · rw [List.flatten_cons]
    exact List.append_ne_nil_of_left_ne_nil hb_ne _

/-- A round that is followed by another one has received the blank line of its block, if it was
not cut. -/
theorem roundReads_blank {cfg : ServerConfig} {env : Round} {k : ℕ} {t t' : Conn}
    (h : (clientRound cfg env k t).2 = some t') (hcut : ¬ BlockCut t) :
    blankLine <:+: (roundReads env.mallocOk t).flatten := by
  have hstep := clientRound_step cfg env k t
  generalize clientRound cfg env k t = r at h hstep
  cases hstep with
  | kept block req t'' r hp _ _ _ =>
    have hmalloc : env.mallocOk = true := by
      cases hm : env.mallocOk with
      | true => rfl
      | false =>
        rw [hm] at hp
        cases hp
    have hread := (httpParseRequest_ok hp).1
    have hblank : blankLine <:+: block := by
      by_contra hno
      exact hcut ⟨block, t'', hread, hno⟩
    have hpre := readLoop_block_prefix hread
    rw [List.nil_append] at hpre
    rw [roundReads, if_pos hmalloc]
    exact hblank.trans hpre.isInfix
  | _ => cases h

theorem roundWire_eq (cfg : ServerConfig) (env : Round) (k : ℕ) (t : Conn) : ∃ r,
    roundWire cfg env k t = (roundReads env.mallocOk t).map .received ++ [.wrote r] := by
  have hstep := clientRound_step cfg env k t
  unfold roundWire
  generalize clientRound cfg env k t = r at hstep
  cases hstep <;> exact ⟨_, rfl⟩

/-! ### Points of the run -/

theorem responses_append (v w : List Wire) : responses (v ++ w) = responses v + responses w :=
  List.countP_append

theorem delivered_append (v w : List Wire) : delivered (v ++ w) = delivered v ++ delivered w :=
  List.flatMap_append

theorem delivered_reads (reads : List Bytes) :
    delivered (reads.map .received) = reads.flatten := by
  rw [delivered, List.flatMap_map]
  exact List.flatMap_id ..

theorem responses_reads {reads : List Bytes} {front : List Wire}
    (h : front <+: reads.map Wire.received) : responses front = 0 := by
  rw [responses, List.countP_eq_zero]
  intro w hw
  obtain ⟨b, _, rfl⟩ := List.mem_map.mp (h.subset hw)
  exact Bool.false_ne_true

theorem round_counts (reads : List Bytes) (r : Response) :
    responses (reads.map .received ++ [.wrote r]) = 1 ∧
      delivered (reads.map .received ++ [.wrote r]) = reads.flatten := by
  constructor
  · rw [responses_append, responses_reads (List.prefix_refl _)]
    rfl
  · rw [delivered_append, delivered_reads]
    exact List.append_nil _

/-- The law from a point on at which `n` responses were written and `got` was delivered. -/
def SolicitedFrom (n : ℕ) (got : Bytes) (w : List Wire) : Prop :=
  ∀ front, front <+: w → n + responses front ≤ requestsBegun (got ++ delivered front)

theorem solicitedFrom_zero (w : List Wire) : SolicitedFrom 0 [] w ↔ Solicited w := by
  simp only [SolicitedFrom, Solicited, Nat.zero_add, List.nil_append]

theorem solicitedFrom_append {n : ℕ} {got : Bytes} {v w : List Wire} :
    SolicitedFrom n got (v ++ w) ↔ SolicitedFrom n got v ∧
      SolicitedFrom (n + responses v) (got ++ delivered v) w := by
  constructor
  · intro h
    refine ⟨fun front hf => h front (hf.trans (List.prefix_append v w)), fun front hf => ?_⟩
    have hwhole := h (v ++ front) ((List.prefix_append_right_inj v).mpr hf)
    rw [responses_append, delivered_append] at hwhole
    rw [List.append_assoc, Nat.add_assoc]
    exact hwhole
  · rintro ⟨hv, hw⟩ front hf
    rcases List.prefix_or_prefix_of_prefix hf (List.prefix_append v w) with hle | ⟨u, rfl⟩
    · exact hv front hle
    · have hrest := hw u ((List.prefix_append_right_inj v).mp hf)
      rw [List.append_assoc, Nat.add_assoc] at hrest
      rw [responses_append, delivered_append]
      exact hrest

theorem solicitedFrom_round {n : ℕ} {got : Bytes} (hn : n ≤ requestsBegun got)
    (reads : List Bytes) (r : Response) :
    SolicitedFrom n got (reads.map .received ++ [.wrote r]) ↔
      n < requestsBegun (got ++ reads.flatten) := by
  constructor
  · intro h
    have hend := h _ (List.prefix_refl _)
    rw [(round_counts reads r).1, (round_counts reads r).2] at hend
    exact hend
  · intro h
    rw [solicitedFrom_append, delivered_reads, responses_reads (List.prefix_refl _)]
    refine ⟨fun front hf => ?_, fun front hf => ?_⟩
    · rw [responses_reads hf]
      exact hn.trans (requestsBegun_mono _ _)
    · have hle : responses front ≤ 1 := List.countP_le_length.trans hf.length_le
      have hmono := requestsBegun_mono (got ++ reads.flatten) (delivered front)
      omega

theorem solicitedFrom_rounds (cfg : ServerConfig) (env : ℕ → Round) (k : ℕ) (t : Conn) :
    ∀ got, k ≤ requestsBegun got →
      (SolicitedFrom k got
        ((rounds cfg env k got t).flatMap fun s => roundWire cfg (env s.k) s.k s.conn) ↔
        ∀ s ∈ rounds cfg env k got t, s.k < requestsBegun (s.through env)) := by
  induction k, t using clientFrom_induct cfg env with
  | last k t h =>
    intro got hk
    obtain ⟨r, hr⟩ := roundWire_eq cfg (env k) k t
    rw [rounds_last got h, List.flatMap_singleton, List.forall_mem_singleton, hr]
    exact solicitedFrom_round hk _ r
  | next k t t' h ih =>
    intro got hk
    obtain ⟨r, hr⟩ := roundWire_eq cfg (env k) k t
    have hround := solicitedFrom_round hk (roundReads (env k).mallocOk t) r
    obtain ⟨hcount, hbytes⟩ := round_counts (roundReads (env k).mallocOk t) r
    rw [← hr] at hround hcount hbytes
    rw [rounds_next got h, List.flatMap_cons, List.forall_mem_cons, solicitedFrom_append, hround,
      hcount, hbytes]
    exact and_congr_right fun hlt => ih _ hlt

theorem solicited_rounds (cfg : ServerConfig) (env : ℕ → Round) (t : Conn) :
    Solicited (clientWire cfg env t) ↔
      ∀ s ∈ rounds cfg env 0 [] t, s.k < requestsBegun (s.through env) := by
  rw [← solicitedFrom_zero]
  exact solicitedFrom_rounds cfg env 0 t [] (Nat.zero_le _)

/-! ### Blank lines and rounds -/

theorem rounds_ended {cfg : ServerConfig} {env : ℕ → Round} {before after : List RoundStart}
    {s : RoundStart} : ∀ {k got t}, k ≤ requestsEnded got →
      rounds cfg env k got t = before ++ s :: after → (∀ q ∈ before, ¬ BlockCut q.conn) →
      s.k ≤ requestsEnded s.got := by
  induction before with
  | nil =>
    intro k got t hk h _
    rw [rounds, List.nil_append] at h
    obtain ⟨rfl, _⟩ := List.cons.inj h
    exact hk
  | cons q before ih =>
    intro k got t hk h hcut
    cases hr : (clientRound cfg (env k) k t).2 with
    | none =>
      rw [rounds_last got hr] at h
      have := congrArg List.length h
      simp at this
    | some t' =>
      rw [rounds_next got hr, List.cons_append] at h
      obtain ⟨rfl, hrest⟩ := List.cons.inj h
      have hblank := roundReads_blank hr (hcut _ (List.mem_cons_self ..))
      have hended := requestsEnded_append got hblank
      exact ih (by omega) hrest fun x hx => hcut x (List.mem_cons_of_mem _ hx)

/-- Responses never outnumber the requests begun exactly when a round that receives nothing,
and a round behind a block that was cut, finds a request begun that no earlier round has
answered. -/
theorem solicited_iff (cfg : ServerConfig) (env : ℕ → Round) (t : Conn) :
    Solicited (clientWire cfg env t) ↔
      ∀ before s after, rounds cfg env 0 [] t = before ++ s :: after →
        ReceivesNothing (env s.k).mallocOk s.conn ∨ (∃ q ∈ before, BlockCut q.conn) →
        s.k < requestsBegun (s.through env) := by
  rw [solicited_rounds]
  constructor
  · intro h before s after hs _
    exact h s (by rw [hs]; exact List.mem_append_right _ (List.mem_cons_self ..))
  · intro h s hs
    obtain ⟨before, after, hsplit⟩ := List.append_of_mem hs
    by_cases hbad : ReceivesNothing (env s.k).mallocOk s.conn ∨ ∃ q ∈ before, BlockCut q.conn
    · exact h before s after hsplit hbad
    · push Not at hbad
      have hended := rounds_ended (Nat.zero_le _) hsplit hbad.2
      have hbegun := requestsBegun_append s.got (roundReads_nonempty hbad.1)
      exact lt_of_le_of_lt hended hbegun

theorem idle_answered : ¬ Solicited (clientWire bareServer (fun _ => bareRound)
    ⟨missingRequest, [.data 25, .fail]⟩) := by
  have hread : readHeaders ⟨missingRequest, [.data 25, .fail]⟩ (rawBufSize - 1) =
      (some missingRequest, ⟨[], [.fail]⟩) := by
    decide +kernel
  obtain ⟨req, hreq, hkeep, _⟩ := missingRequest_parsed
  have hp := httpParseRequest_of_block hread (by decide +kernel) hreq
  have hnext : (clientRound bareServer bareRound 0 ⟨missingRequest, [.data 25, .fail]⟩).2 =
      some ⟨[], [.fail]⟩ := by
    rw [clientRound]
    simp only [show bareRound.mallocOk = true from rfl, hp]
    simp [denied, bareServer, hkeep, bareRound]
  have hbytes : roundReads true ⟨missingRequest, [.data 25, .fail]⟩ = [missingRequest] := by
    decide +kernel
  intro h
  rw [solicited_rounds, rounds_next [] hnext, List.forall_mem_cons] at h
  have hlast := h.2 ⟨1, missingRequest, ⟨[], [.fail]⟩⟩ (by
    rw [rounds]
    simp [bareRound, hbytes])
  have hbegun : requestsBegun (RoundStart.through (fun _ => bareRound)
      ⟨1, missingRequest, ⟨[], [.fail]⟩⟩) = 1 := by
    decide +kernel
  rw [hbegun] at hlast
  exact absurd hlast (by decide)

end LocalMarks.Server

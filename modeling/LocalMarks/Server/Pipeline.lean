import LocalMarks.Http.ReadHeaders
import LocalMarks.Server.HandleClient
import Mathlib.Data.List.Forall2

/-!
# Requests sent back to back

`read_headers` stops at the blank line. What a read delivered behind it stays in the raw buffer
of the request that was read, and is gone with it.
-/

namespace LocalMarks.Server
open LocalMarks.Lib
open LocalMarks.Http

/-! ### A stream in chunks -/

def ChunkOk (c : Bytes) : Prop := c ≠ [] ∧ c.length ≤ maxRead

def chunked (chunks : List Bytes) : Conn :=
  ⟨chunks.flatten, chunks.map fun c => .data c.length⟩

theorem chunked_nil : chunked [] = ⟨[], []⟩ := rfl

theorem chunked_cons (c : Bytes) (cs : List Bytes) :
    chunked (c :: cs) = ⟨c ++ (chunked cs).stream, .data c.length :: (chunked cs).sched⟩ := rfl

theorem readOutcome_chunk {c rest : Bytes} {want : ℕ} (hne : c ≠ []) (hw : c.length ≤ want) :
    readOutcome (.data c.length) want (c ++ rest) = some c := by
  unfold readOutcome
  dsimp only
  rw [min_eq_left hw, List.take_left, if_neg hne]

/-- Chunks that make up the rest of a block are read, and nothing else. -/
theorem readLoop_block {block rest : Bytes} {os : List ReadOutcome} {max : ℕ}
    (hblock : EndsAtBlank block) (hmax : block.length < max) {chunks : List Bytes}
    (hchunks : ∀ c ∈ chunks, ChunkOk c) {buf : Bytes} (hbuf : buf ++ chunks.flatten = block)
    (hne : chunks ≠ []) :
    readLoop max (chunks.flatten ++ rest) (chunks.map (fun c => .data c.length) ++ os) buf =
      (some block, ⟨rest, os⟩) := by
  induction chunks generalizing buf with
  | nil => exact absurd rfl hne
  | cons c cs ih =>
    obtain ⟨hc_ne, hc_len⟩ := hchunks c (List.mem_cons_self ..)
    have hpos := List.length_pos_iff.mpr hc_ne
    have hfour := hblock.length
    have hlen := congrArg List.length hbuf
    rw [List.flatten_cons, List.length_append, List.length_append] at hlen
    rw [List.map_cons, List.cons_append, readLoop, if_pos (by omega), List.flatten_cons,
      List.append_assoc, readOutcome_chunk hc_ne (by omega)]
    dsimp only
    rw [List.drop_left]
    rw [List.flatten_cons, ← List.append_assoc] at hbuf
    have hcs := fun x hx => hchunks x (List.mem_cons_of_mem c hx)
    cases cs with
    | nil =>
      rw [List.flatten_nil, List.append_nil] at hbuf
      have hfound := findBlankLine_whole hblock [] (show buf.length - 3 + 4 ≤ block.length by omega)
      rw [List.append_nil] at hfound
      rw [hbuf, hfound]
      dsimp only
      rw [List.take_length, List.flatten_nil, List.nil_append, List.map_nil, List.nil_append]
    | cons d ds =>
      have hmore : (d :: ds).flatten ≠ [] := by
        rw [List.flatten_cons]
        exact List.append_ne_nil_of_left_ne_nil (hcs d (List.mem_cons_self ..)).1 _
      rw [findBlankLine_before hblock hbuf.symm hmore]
      exact ih hcs hbuf (List.cons_ne_nil _ _)

theorem readLoop_le {max : ℕ} {stream buf b : Bytes} {sched : List ReadOutcome} {t' : Conn}
    (h : readLoop max stream sched buf = (some b, t')) :
    t'.stream.length + b.length ≤ stream.length + buf.length := by
  have hreturned := readLoop_returned h
  clear h
  induction hreturned with
  | full _ => exact le_rfl
  | found _ hread _ =>
    have hc := readOutcome_length hread
    rw [List.length_take, List.length_drop, List.length_append]
    omega
  | more _ hread _ _ ih =>
    have hc := readOutcome_length hread
    rw [List.length_drop, List.length_append] at ih
    omega

theorem readOutcome_short {c rest : Bytes} {want : ℕ} (hpos : 0 < want) (hw : want < c.length) :
    readOutcome (.data c.length) want (c ++ rest) = some (c.take want) := by
  unfold readOutcome
  dsimp only
  rw [min_eq_right hw.le, List.take_append_of_le_length hw.le, if_neg]
  intro h
  have := congrArg List.length h
  rw [List.length_take, List.length_nil] at this
  omega

theorem readLoop_overflow {max : ℕ} {c stream buf b : Bytes} {sched : List ReadOutcome} {t' : Conn}
    (hroom : buf.length + 1 < max) (hc : c.length ≤ maxRead) (hw : max - buf.length < c.length)
    (h : readLoop max (c ++ stream) (.data c.length :: sched) buf = (some b, t'))
    (hb : b.length < max) :
    t'.stream.length + b.length ≠ c.length + stream.length + buf.length := by
  have hwant : min (max - buf.length) maxRead = max - buf.length := by omega
  rw [readLoop, if_pos hroom, hwant, readOutcome_short (by omega) hw] at h
  have htake : (c.take (max - buf.length)).length = max - buf.length := by
    rw [List.length_take]
    omega
  dsimp only at h
  cases hf : findBlankLine (buf ++ c.take (max - buf.length)) (buf.length - 3) with
  | some n =>
    rw [hf] at h
    cases h
    simp only [List.length_take, List.length_drop, List.length_append] at *
    omega
  | none =>
    rw [hf] at h
    dsimp only at h
    rw [readLoop_full (by rw [List.length_append]; omega)] at h
    cases h
    rw [List.length_append] at hb
    omega

theorem readLoop_aligned {max : ℕ} {chunks : List Bytes} (hchunks : ∀ c ∈ chunks, ChunkOk c)
    {buf b : Bytes} {t' : Conn}
    (h : readLoop max (chunked chunks).stream (chunked chunks).sched buf = (some b, t'))
    (hb : b.length < max)
    (hall : t'.stream.length + b.length = (chunked chunks).stream.length + buf.length) :
    ∃ front back, chunks = front ++ back ∧ b = buf ++ front.flatten ∧ t' = chunked back := by
  induction chunks generalizing buf with
  | nil =>
    rw [chunked_nil, readLoop] at h
    split at h
    · cases h
    · cases h
      exact ⟨[], [], rfl, (List.append_nil _).symm, rfl⟩
  | cons c cs ih =>
    obtain ⟨hc_ne, hc_len⟩ := hchunks c (List.mem_cons_self ..)
    by_cases hfull : max ≤ buf.length + 1
    · rw [readLoop_full hfull] at h
      cases h
      exact ⟨[], c :: cs, rfl, (List.append_nil _).symm, rfl⟩
    · rw [chunked_cons] at h hall
      rw [List.length_append] at hall
      by_cases hw : c.length ≤ max - buf.length
      · rw [readLoop, if_pos (by omega), readOutcome_chunk hc_ne (by omega)] at h
        dsimp only at h
        rw [List.drop_left] at h
        cases hf : findBlankLine (buf ++ c) (buf.length - 3) with
        | some n =>
          rw [hf] at h
          cases h
          dsimp only at hall
          rw [List.length_take, List.length_append] at hall
          refine ⟨[c], cs, rfl, ?_, rfl⟩
          rw [List.take_of_length_le (by rw [List.length_append]; omega), List.flatten_cons,
            List.flatten_nil, List.append_nil]
        | none =>
          rw [hf] at h
          obtain ⟨front, back, hcs, hbuf, ht⟩ :=
            ih (fun x hx => hchunks x (List.mem_cons_of_mem c hx)) h
              (by rw [List.length_append]; omega)
          refine ⟨c :: front, back, by rw [hcs, List.cons_append], ?_, ht⟩
          rw [hbuf, List.append_assoc, List.flatten_cons]
      · exact absurd hall (readLoop_overflow (by omega) hc_len (by omega) h hb)

/-! ### What is answered -/

def Event.parsedRequest : Event → Option HttpRequest
  | .parsed _ req => some req
  | _ => none

def Event.answered : Event → Option (HttpRequest × Response)
  | .respond _ (some req) r => some (req, r)
  | _ => none

/-- The requests are parsed and answered, each once and in order, as if each had been sent
alone. The rounds are counted from `k`. -/
structure AnsweredInOrder (cfg : ServerConfig) (env : ℕ → Round) (k : ℕ) (messages : List Message)
    (es : List Event) : Prop where
  parsed : List.Forall₂ (fun m req => parseBlock m.block = some req) messages
    (es.filterMap Event.parsedRequest)
  answered : List.Forall₂ (fun (m, i) (req, r) => parseBlock m.block = some req ∧
      answer (env i).svc cfg.firstDb req true = some r) (messages.zipIdx k)
    (es.filterMap Event.answered)

/-- Each block ends where a chunk ends. -/
def Aligned (blocks chunks : List Bytes) : Prop :=
  ∀ i, ∃ j, (blocks.take i).flatten = (chunks.take j).flatten

/-- No chunk holds bytes of two requests, the raw buffers can be allocated, and no path
contains `..`. -/
structure Servable (env : ℕ → Round) (k : ℕ) (messages : List Message) (chunks : List Bytes) :
    Prop where
  aligned : Aligned (messages.map Message.block) chunks
  memory : ∀ i < messages.length, (env (k + i)).mallocOk = true
  paths : ∀ m ∈ messages, ¬ m.Traverses

theorem aligned_cons {b : Bytes} {bs chunks : List Bytes} :
    Aligned (b :: bs) chunks ↔
      ∃ front back, chunks = front ++ back ∧ front.flatten = b ∧ Aligned bs back := by
  constructor
  · intro h
    obtain ⟨j, hj⟩ := h 1
    rw [List.take_succ_cons, List.take_zero, List.flatten_cons, List.flatten_nil,
      List.append_nil] at hj
    refine ⟨chunks.take j, chunks.drop j, (List.take_append_drop j chunks).symm, hj.symm, ?_⟩
    intro i
    obtain ⟨n, hn⟩ := h (i + 1)
    rw [List.take_succ_cons, List.flatten_cons] at hn
    by_cases hjn : j ≤ n
    · refine ⟨n - j, ?_⟩
      rw [show n = j + (n - j) by omega, List.take_add, List.flatten_append, ← hj] at hn
      exact List.append_cancel_left hn
    · -- fewer chunks hold more blocks only if these are empty
      refine ⟨0, ?_⟩
      have hpre : (chunks.take n).flatten <+: (chunks.take j).flatten :=
        (List.take_prefix_take_left (by omega)).flatten
      rw [← hn, ← hj] at hpre
      have hlen := hpre.length_le
      rw [List.length_append] at hlen
      rw [List.take_zero, List.flatten_nil]
      exact List.length_eq_zero_iff.mp (by omega)
  · rintro ⟨front, back, rfl, rfl, h⟩ i
    cases i with
    | zero => exact ⟨0, rfl⟩
    | succ i =>
      obtain ⟨j, hj⟩ := h i
      refine ⟨front.length + j, ?_⟩
      rw [List.take_succ_cons, List.flatten_cons, hj, List.take_length_add_append,
        List.flatten_append]

/-! ### The requests that are read use up the stream -/

/-- The bytes of the header blocks that were parsed. -/
def parsedBytes (es : List Event) : ℕ :=
  ((es.filterMap Event.parsedRequest).map HttpRequest.rawLen).sum

theorem parsedBytes_append (es fs : List Event) :
    parsedBytes (es ++ fs) = parsedBytes es + parsedBytes fs := by
  simp only [parsedBytes, List.filterMap_append, List.map_append, List.sum_append]

theorem httpParseRequest_le {t t' : Conn} {mallocOk : Bool} {block : Bytes} {req : HttpRequest}
    (h : httpParseRequest t mallocOk = .ok block req t') :
    t'.stream.length + req.rawLen ≤ t.stream.length := by
  obtain ⟨hread, hparse⟩ := httpParseRequest_ok h
  have hle := readLoop_le hread
  rw [parseBlock_rawLen hparse]
  exact hle

theorem clientRound_bytes (cfg : ServerConfig) (env : Round) (k : ℕ) (t : Conn) :
    parsedBytes (clientRound cfg env k t).1 + ((clientRound cfg env k t).2.elim 0
      fun t' => t'.stream.length) ≤ t.stream.length := by
  have hstep := clientRound_step cfg env k t
  generalize clientRound cfg env k t = r at hstep
  cases hstep with
  | noMemory => exact Nat.zero_le _
  | readFailed => exact Nat.zero_le _
  | badLine => exact Nat.zero_le _
  | denied block req t' r hp hd hr =>
    have hle := httpParseRequest_le hp
    show req.rawLen ≤ t.stream.length
    omega
  | closed block req t' r hp hd hk hr =>
    have hle := httpParseRequest_le hp
    show req.rawLen ≤ t.stream.length
    omega
  | kept block req t' r hp hd hk hr =>
    have hle := httpParseRequest_le hp
    cases env.shutdown with
    | true =>
      show req.rawLen ≤ t.stream.length
      omega
    | false =>
      show req.rawLen + t'.stream.length ≤ t.stream.length
      omega

theorem clientFrom_bytes (cfg : ServerConfig) (env : ℕ → Round) (k : ℕ) (t : Conn) :
    parsedBytes (clientFrom cfg env k t) ≤ t.stream.length := by
  induction k, t using clientFrom_induct cfg env with
  | last k t h =>
    have hround := clientRound_bytes cfg (env k) k t
    rw [h] at hround
    rw [clientFrom_last h]
    exact hround
  | next k t t' h ih =>
    have hround := clientRound_bytes cfg (env k) k t
    rw [h, Option.elim_some] at hround
    rw [clientFrom_next h, parsedBytes_append]
    omega

/-! ### One round, without authentication and shutdown -/

/-- The connection is kept as long as the client wants it. -/
structure KeepsOpen (cfg : ServerConfig) (env : ℕ → Round) : Prop where
  user : cfg.user = none
  pass : cfg.pass = none
  timeout : 0 < cfg.keepAliveTimeout
  running : ∀ k, (env k).shutdown = false

variable {cfg : ServerConfig} {env : ℕ → Round}

theorem KeepsOpen.not_denied (ho : KeepsOpen cfg env) (req : HttpRequest) :
    denied cfg req = false := by
  rw [denied, ho.user, ho.pass]
  rfl

theorem KeepsOpen.wantsKeepAlive (ho : KeepsOpen cfg env) {req : HttpRequest}
    (hversion : req.version.bytes = ascii "HTTP/1.1") (hstays : StaysOpen req) :
    wantsKeepAlive req cfg.keepAliveTimeout = true := by
  have htimeout := ho.timeout
  rw [Server.wantsKeepAlive, if_neg (by omega), if_pos hversion, hstays]
  rfl

theorem clientFrom_unserved {k : ℕ} {t : Conn}
    (h : ∀ block req t', httpParseRequest t (env k).mallocOk ≠ .ok block req t') :
    (clientFrom cfg env k t).filterMap Event.parsedRequest = [] ∧
      (clientFrom cfg env k t).filterMap Event.answered = [] := by
  have hstep := clientRound_step cfg (env k) k t
  generalize hr : clientRound cfg (env k) k t = r at hstep
  cases hstep with
  | denied block req t' r hp hd hresp => exact absurd hp (h block req t')
  | closed block req t' r hp hd hk hresp => exact absurd hp (h block req t')
  | kept block req t' r hp hd hk hresp => exact absurd hp (h block req t')
  | _ =>
    rw [clientFrom_last (by rw [hr]), hr]
    exact ⟨rfl, rfl⟩

theorem clientFrom_served (ho : KeepsOpen cfg env) {k : ℕ} {t t' : Conn} {block : Bytes}
    {req : HttpRequest} (hp : httpParseRequest t (env k).mallocOk = .ok block req t')
    (hk : Server.wantsKeepAlive req cfg.keepAliveTimeout = true) :
    ∃ r, answer (env k).svc cfg.firstDb req true = some r ∧
      (clientFrom cfg env k t).filterMap Event.parsedRequest =
        req :: (clientFrom cfg env (k + 1) t').filterMap Event.parsedRequest ∧
      (clientFrom cfg env k t).filterMap Event.answered =
        (req, r) :: (clientFrom cfg env (k + 1) t').filterMap Event.answered := by
  obtain ⟨r, hr⟩ := Option.isSome_iff_exists.mp (answer_ends (env k).svc cfg.firstDb req
    true).written
  have hround : clientRound cfg (env k) k t = ([.acquire k, .read k (some block), .parsed k req,
      .respond k (some req) r, .release k, .setTimeout cfg.keepAliveTimeout], some t') := by
    rw [clientRound, hp]
    simp [ho.not_denied, hk, hr, wrote, ho.running]
  refine ⟨r, hr, ?_⟩
  rw [clientFrom_next (congrArg Prod.snd hround), hround]
  exact ⟨rfl, rfl⟩

/-! ### Back to back -/

theorem parsedBytes_of_blocks {messages : List Message} {es : List Event}
    (h : List.Forall₂ (fun m req => parseBlock m.block = some req) messages
      (es.filterMap Event.parsedRequest)) :
    parsedBytes es = (messages.map Message.block).flatten.length := by
  unfold parsedBytes
  generalize es.filterMap Event.parsedRequest = reqs at h
  induction h with
  | nil => rfl
  | cons hm _ ih =>
    rw [List.map_cons, List.sum_cons, ih, List.map_cons, List.flatten_cons, List.length_append,
      parseBlock_rawLen hm]

theorem clientFrom_chunked_nil (cfg : ServerConfig) (env : ℕ → Round) (k : ℕ) :
    AnsweredInOrder cfg env k [] (clientFrom cfg env k (chunked [])) := by
  have hnone : ∀ block req t', httpParseRequest (chunked []) (env k).mallocOk ≠
      .ok block req t' := by
    intro block req t' hp
    have hread : readHeaders (chunked []) (rawBufSize - 1) = (none, chunked []) := rfl
    rw [(httpParseRequest_ok hp).1] at hread
    cases hread
  obtain ⟨h1, h2⟩ := clientFrom_unserved hnone
  exact ⟨h1 ▸ .nil, h2 ▸ .nil⟩

theorem chunks_eq_nil {chunks : List Bytes} (hchunks : ∀ c ∈ chunks, ChunkOk c)
    (h : chunks.flatten = []) : chunks = [] := by
  cases chunks with
  | nil => rfl
  | cons c cs =>
    rw [List.flatten_cons] at h
    exact absurd (List.append_eq_nil_iff.mp h).1 (hchunks c (List.mem_cons_self ..)).1

theorem readHeaders_front {block : Bytes} {front : List Bytes} (back : List Bytes)
    (hblock : EndsAtBlank block) (hfit : block.length ≤ 8190) (hchunks : ∀ c ∈ front, ChunkOk c)
    (hfront : front.flatten = block) :
    readHeaders (chunked (front ++ back)) (rawBufSize - 1) = (some block, chunked back) := by
  have hfour := hblock.length
  have hne : front ≠ [] := by
    rintro rfl
    rw [← hfront] at hfour
    exact absurd hfour (by decide)
  unfold readHeaders chunked
  rw [List.flatten_append, List.map_append]
  exact readLoop_block hblock (show block.length < 8191 by omega) hchunks
    (by rw [List.nil_append, hfront]) hne

theorem httpParseRequest_front {m : Message} {front : List Bytes} (back : List Bytes)
    (hfit : m.block.length ≤ 8190) (hchunks : ∀ c ∈ front, ChunkOk c)
    (hfront : front.flatten = m.block) {req : HttpRequest} (hreq : parseBlock m.block = some req) :
    httpParseRequest (chunked (front ++ back)) true = .ok m.block req (chunked back) := by
  have hfour := m.block_ends.length
  apply httpParseRequest_of_block (readHeaders_front back m.block_ends hfit hchunks hfront) _ hreq
  exact List.ne_nil_of_length_pos (by omega)

theorem answeredInOrder_of_servable (ho : KeepsOpen cfg env) {messages : List Message}
    {chunks : List Bytes} {k : ℕ} (hfit : ∀ m ∈ messages, m.block.length ≤ 8190)
    (hchunks : ∀ c ∈ chunks, ChunkOk c)
    (hstream : chunks.flatten = (messages.map Message.block).flatten)
    (h : Servable env k messages chunks) :
    AnsweredInOrder cfg env k messages (clientFrom cfg env k (chunked chunks)) := by
  induction messages generalizing chunks k with
  | nil =>
    rw [chunks_eq_nil hchunks hstream]
    exact clientFrom_chunked_nil cfg env k
  | cons m ms ih =>
    obtain ⟨haligned, hmemory, hpaths⟩ := h
    rw [List.map_cons] at haligned hstream
    obtain ⟨front, back, rfl, hfront, hback⟩ := aligned_cons.mp haligned
    have hmalloc : (env k).mallocOk = true := hmemory 0 (Nat.succ_pos _)
    obtain ⟨req, hreq, _, _, hversion, hstays⟩ :=
      m.block_parsed.2 (hpaths m (List.mem_cons_self ..))
    have hp := httpParseRequest_front back (hfit m (List.mem_cons_self ..))
      (fun c hc => hchunks c (List.mem_append_left back hc)) hfront hreq
    rw [← hmalloc] at hp
    obtain ⟨r, hr, hparsed, hanswered⟩ :=
      clientFrom_served ho hp (ho.wantsKeepAlive hversion hstays)
    rw [List.flatten_append, hfront, List.flatten_cons] at hstream
    obtain ⟨hparsed', hanswered'⟩ := ih (k := k + 1)
      (fun x hx => hfit x (List.mem_cons_of_mem m hx))
      (fun c hc => hchunks c (List.mem_append_right front hc)) (List.append_cancel_left hstream)
      ⟨hback, fun i hi => by
        rw [Nat.add_right_comm]
        exact hmemory (i + 1) (Nat.succ_lt_succ hi),
        fun x hx => hpaths x (List.mem_cons_of_mem m hx)⟩
    constructor
    · rw [hparsed]
      exact .cons hreq hparsed'
    · rw [hanswered, List.zipIdx_cons]
      exact .cons ⟨hreq, hr⟩ hanswered'

/-- A served round of a message: the request is the message's, and it was not refused. -/
theorem first_served (ho : KeepsOpen cfg env) {m : Message} {ms : List Message} {t : Conn} {k : ℕ}
    (h : AnsweredInOrder cfg env k (m :: ms) (clientFrom cfg env k t)) :
    ¬ m.Traverses ∧ ∃ block req t',
      httpParseRequest t (env k).mallocOk = .ok block req t' ∧ parseBlock m.block = some req ∧
        AnsweredInOrder cfg env (k + 1) ms (clientFrom cfg env (k + 1) t') := by
  obtain ⟨hparsed, hanswered⟩ := h
  have hpaths : ¬ m.Traverses := by
    intro htrav
    generalize (clientFrom cfg env k t).filterMap Event.parsedRequest = reqs at hparsed
    cases hparsed with
    | cons hreq _ =>
      rw [m.block_parsed.1 htrav] at hreq
      cases hreq
  obtain ⟨req, hreq, _, _, hversion, hstays⟩ := m.block_parsed.2 hpaths
  cases hp : httpParseRequest t (env k).mallocOk with
  | ok block req' t' =>
    obtain ⟨es, hes⟩ := clientFrom_start cfg env k hp
    obtain rfl : req = req' := by
      rw [hes] at hparsed
      cases hparsed with
      | cons hfirst _ => exact Option.some.inj (hreq.symm.trans hfirst)
    obtain ⟨r, _, hparsed', hanswered'⟩ :=
      clientFrom_served ho hp (ho.wantsKeepAlive hversion hstays)
    rw [hparsed'] at hparsed
    rw [hanswered', List.zipIdx_cons] at hanswered
    cases hparsed with
    | cons _ hrest =>
      cases hanswered with
      | cons _ hrest' => exact ⟨hpaths, block, req, t', rfl, hreq, hrest, hrest'⟩
  | _ =>
    have hnone : ∀ block req t', httpParseRequest t (env k).mallocOk ≠ .ok block req t' := by
      simp [hp]
    rw [(clientFrom_unserved hnone).1] at hparsed
    cases hparsed

/-- When the requests behind it are answered too, the first one was read without a byte of the
next: its block is a whole number of chunks. -/
theorem first_aligned (ho : KeepsOpen cfg env) {m : Message} {ms : List Message}
    {chunks : List Bytes} {k : ℕ} (hfit : m.block.length ≤ 8190)
    (hchunks : ∀ c ∈ chunks, ChunkOk c)
    (hstream : chunks.flatten = m.block ++ (ms.map Message.block).flatten)
    (h : AnsweredInOrder cfg env k (m :: ms) (clientFrom cfg env k (chunked chunks))) :
    ¬ m.Traverses ∧ (env k).mallocOk = true ∧ ∃ front back, chunks = front ++ back ∧
      front.flatten = m.block ∧ back.flatten = (ms.map Message.block).flatten ∧
        AnsweredInOrder cfg env (k + 1) ms (clientFrom cfg env (k + 1) (chunked back)) := by
  obtain ⟨hpaths, block, req, t', hp, hreq, hrest⟩ := first_served ho h
  obtain ⟨hread, hblock⟩ := httpParseRequest_ok hp
  have hmalloc : (env k).mallocOk = true := by
    cases hmem : (env k).mallocOk with
    | true => rfl
    | false =>
      rw [hmem] at hp
      cases hp
  have hlen : block.length = m.block.length := by
    rw [← parseBlock_rawLen hblock, parseBlock_rawLen hreq]
  -- the rest of the stream holds the other blocks and nothing else
  have hle := readLoop_le hread
  have hbytes := clientFrom_bytes cfg env (k + 1) t'
  rw [parsedBytes_of_blocks hrest.parsed] at hbytes
  have htotal := congrArg List.length hstream
  rw [List.length_append] at htotal
  have hall : t'.stream.length + block.length =
      (chunked chunks).stream.length + ([] : Bytes).length := by
    rw [List.length_nil] at hle ⊢
    have hchunked : (chunked chunks).stream.length = chunks.flatten.length := rfl
    omega
  have hroom : block.length < rawBufSize - 1 := by
    show block.length < 8191
    omega
  obtain ⟨front, back, rfl, hfront, rfl⟩ := readLoop_aligned hchunks hread hroom hall
  rw [List.nil_append] at hfront
  rw [List.flatten_append, ← hfront] at hstream
  obtain ⟨rfl, hback⟩ := List.append_inj hstream hlen
  exact ⟨hpaths, hmalloc, front, back, rfl, hfront.symm, hback, hrest⟩

theorem servable_of_answeredInOrder (ho : KeepsOpen cfg env) {messages : List Message}
    {chunks : List Bytes} {k : ℕ} (hfit : ∀ m ∈ messages, m.block.length ≤ 8190)
    (hchunks : ∀ c ∈ chunks, ChunkOk c)
    (hstream : chunks.flatten = (messages.map Message.block).flatten)
    (h : AnsweredInOrder cfg env k messages (clientFrom cfg env k (chunked chunks))) :
    Servable env k messages chunks := by
  induction messages generalizing chunks k with
  | nil => exact ⟨fun i => ⟨0, by rw [List.map_nil, List.take_nil, List.take_zero]⟩, nofun, nofun⟩
  | cons m ms ih =>
    obtain ⟨hpaths, hmalloc, front, back, rfl, hfront, hback, hrest⟩ :=
      first_aligned ho (hfit m (List.mem_cons_self ..)) hchunks hstream h
    obtain ⟨haligned, hmemory, hrest_paths⟩ := ih (fun x hx => hfit x (List.mem_cons_of_mem m hx))
      (fun c hc => hchunks c (List.mem_append_right front hc)) hback hrest
    refine ⟨?_, ?_, ?_⟩
    · rw [List.map_cons]
      exact aligned_cons.mpr ⟨front, back, rfl, hfront, haligned⟩
    · intro i hi
      cases i with
      | zero => exact hmalloc
      | succ i =>
        rw [← Nat.add_assoc, Nat.add_right_comm]
        exact hmemory i (Nat.lt_of_succ_lt_succ hi)
    · intro x hx
      rcases List.mem_cons.mp hx with rfl | hx
      · exact hpaths
      · exact hrest_paths x hx

/-- Requests sent back to back are all answered in order exactly when each of them ends where a
chunk ends, the raw buffers can be allocated, and no path contains `..`. -/
theorem pipelined_iff (ho : KeepsOpen cfg env) {messages : List Message} {chunks : List Bytes}
    (hfit : ∀ m ∈ messages, m.block.length ≤ 8190) (hchunks : ∀ c ∈ chunks, ChunkOk c)
    (hstream : chunks.flatten = (messages.map Message.block).flatten) :
    AnsweredInOrder cfg env 0 messages (handleClient cfg env (chunked chunks)) ↔
      Servable env 0 messages chunks :=
  ⟨servable_of_answeredInOrder ho hfit hchunks hstream,
    answeredInOrder_of_servable ho hfit hchunks hstream⟩

/-! ### Two requests -/

def missing : Message where
  head := false
  target := ascii "/missing"
  headers := []
  target_ne := by decide
  target_ok := by decide +kernel
  stays := nofun

theorem bareServer_keepsOpen : KeepsOpen bareServer fun _ => bareRound :=
  ⟨rfl, rfl, by decide, fun _ => rfl⟩

theorem missing_block : missing.block.length = 25 := by decide

theorem missing_not_traverses : ¬ missing.Traverses := by
  unfold Message.Traverses
  decide +kernel

theorem missing_fits : ∀ m ∈ [missing, missing], m.block.length ≤ 8190 := by
  simp [missing_block]

theorem pipelined_two : AnsweredInOrder bareServer (fun _ => bareRound) 0 [missing, missing]
    (handleClient bareServer (fun _ => bareRound) (chunked [missing.block, missing.block])) := by
  have hchunks : ∀ c ∈ [missing.block, missing.block], ChunkOk c := by
    have hne : missing.block ≠ [] := by decide
    simp [ChunkOk, maxRead, missing_block, hne]
  refine (pipelined_iff bareServer_keepsOpen missing_fits hchunks rfl).mpr ⟨?_, ?_, ?_⟩
  · exact fun i => ⟨i, rfl⟩
  · exact fun _ _ => rfl
  · simp [missing_not_traverses]

theorem pipelined_lost : ¬ AnsweredInOrder bareServer (fun _ => bareRound) 0 [missing, missing]
    (handleClient bareServer (fun _ => bareRound) (chunked [missing.block ++ missing.block])) := by
  have hchunks : ∀ c ∈ [missing.block ++ missing.block], ChunkOk c := by
    have hne : missing.block ≠ [] := by decide
    simp [ChunkOk, maxRead, missing_block, hne]
  intro h
  have hservable := servable_of_answeredInOrder bareServer_keepsOpen missing_fits hchunks
    (by simp) h
  obtain ⟨j, hj⟩ := hservable.aligned 1
  have hlen := congrArg List.length hj
  cases j with
  | zero => exact absurd hlen (by simp [missing_block])
  | succ j => exact absurd hlen (by simp [missing_block])

end LocalMarks.Server

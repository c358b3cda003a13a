import LocalMarks.Http.RequestLine
import LocalMarks.Server.Framing
import LocalMarks.Server.Pipeline

/-!
# The responses that a client reads

A client that sends its requests one by one knows which of them were HEAD requests. When the
kernel takes the responses whole, it reads them back, and the k-th of them is the one to its k-th
request.
-/

namespace LocalMarks.Server
open LocalMarks.Lib
open LocalMarks.Http

/-! ### HEAD requests -/

/-- The block begins with the method HEAD. -/
def asksHead (block : Bytes) : Bool := (ascii "HEAD ").isPrefixOf block

theorem splitLines_head {s first : Bytes} {lines : List Bytes} (h : splitLines s = first :: lines) :
    first <+: s := by
  induction s using splitLines.induct generalizing first lines with
  | case1 => cases h
  | case2 rest ih =>
    rw [splitLines] at h
    obtain rfl := (List.cons.inj h).1
    exact List.nil_prefix
  | case3 c rest hno hnil ih =>
    rw [splitLines, hnil] at h
    · obtain rfl := (List.cons.inj h).1
      exact List.prefix_append [c] rest
    · exact hno
  | case4 c rest hno line lines' hrest ih =>
    rw [splitLines, hrest] at h
    · obtain rfl := (List.cons.inj h).1
      exact List.cons_prefix_cons.mpr ⟨rfl, ih hrest⟩
    · exact hno

theorem asksHead_iff {method after : Bytes} (h : 32 ∉ method) :
    asksHead (method ++ 32 :: after) = true ↔ method = ascii "HEAD" := by
  have hhead : ascii "HEAD " = ascii "HEAD" ++ [32] := by decide
  rw [asksHead, List.isPrefixOf_iff_prefix, hhead]
  constructor
  · intro hprefix
    obtain ⟨rest, hrest⟩ := hprefix
    rw [List.append_assoc] at hrest
    have hfound := strchr_append rest (by decide : (32 : Byte) ∉ ascii "HEAD")
    rw [List.singleton_append] at hrest
    rw [hrest, strchr_append after h] at hfound
    exact congrArg Prod.fst (Option.some.inj hfound)
  · rintro rfl
    exact ⟨after, by rw [List.append_assoc, List.singleton_append]⟩

theorem methodOf_head {name : Bytes} : methodOf name = .head ↔ name = ascii "HEAD" := by
  unfold methodOf
  split
  · rename_i hget
    exact iff_of_false (by decide) (by rw [hget]; decide)
  · split
    · exact iff_of_true rfl ‹_›
    · exact iff_of_false (by decide) ‹_›

theorem parseBlock_asksHead {block : Bytes} {req : HttpRequest}
    (h : parseBlock block = some req) : asksHead block = decide (req.method = .head) := by
  have hcstr : cstr block <+: block := List.takeWhile_prefix _
  rw [Bool.eq_iff_iff, decide_eq_true_eq]
  cases hsplit : splitLines (cstr block) with
  | nil =>
    -- the block is empty or begins with a NUL
    have hempty := splitLines_eq_nil hsplit
    obtain rfl : emptyRequest block.length = req := by
      rw [parseBlock, hsplit] at h
      exact Option.some.inj h
    refine iff_of_false (fun hhead => ?_) (by decide : ¬ HttpMethod.get = .head)
    obtain ⟨rest, rfl⟩ := List.isPrefixOf_iff_prefix.mp hhead
    cases hempty
  | cons first lines =>
    rcases parseBlock_taken h with hempty | ⟨first', lines', p, hsplit', hp, htaken, -⟩
    · rw [hempty] at hsplit
      cases hsplit
    · obtain ⟨rfl, hmethod, -⟩ := lineParts_some.mp hp
      obtain ⟨after, hafter⟩ := (splitLines_head hsplit').trans hcstr
      rw [LineParts.line, List.append_assoc, List.cons_append] at hafter
      rw [htaken.1, methodOf_head, ← hafter, asksHead_iff hmethod]

/-! ### What arrives -/

/-- Chunks that bring header blocks one after the other, none of them bytes of two blocks. Behind
the last one there may be the beginning of another. -/
inductive Arrives : List Bytes → List Bytes → Prop where
  | cut {b more : Bytes} {chunks : List Bytes} : EndsAtBlank b → b.length ≤ 8190 →
      chunks.flatten ++ more = b → more ≠ [] → Arrives [] chunks
  | whole {b : Bytes} {bs front back : List Bytes} : EndsAtBlank b → b.length ≤ 8190 →
      front.flatten = b → Arrives bs back → Arrives (b :: bs) (front ++ back)

theorem readLoop_cut {b : Bytes} {max : ℕ} (hblock : EndsAtBlank b) (hfit : b.length < max)
    {chunks : List Bytes} (hchunks : ∀ c ∈ chunks, ChunkOk c) {buf more : Bytes}
    (hb : buf ++ chunks.flatten ++ more = b) (hmore : more ≠ []) :
    (readLoop max (chunked chunks).stream (chunked chunks).sched buf).1 = none := by
  have hpos := List.length_pos_iff.mpr hmore
  induction chunks generalizing buf with
  | nil =>
    have hlen := congrArg List.length hb
    rw [List.length_append, List.length_append] at hlen
    rw [chunked_nil, readLoop, if_pos (by omega)]
  | cons c cs ih =>
    obtain ⟨hc_ne, hc_len⟩ := hchunks c (List.mem_cons_self ..)
    rw [List.flatten_cons] at hb
    have hlen := congrArg List.length hb
    simp only [List.length_append] at hlen
    rw [chunked_cons, readLoop, if_pos (by omega), readOutcome_chunk hc_ne (by omega)]
    dsimp only
    have hrest : b = (buf ++ c) ++ (cs.flatten ++ more) := by
      rw [← hb]
      simp only [List.append_assoc]
    rw [findBlankLine_before hblock hrest (List.append_ne_nil_of_right_ne_nil _ hmore),
      List.drop_left]
    refine ih (fun x hx => hchunks x (List.mem_cons_of_mem c hx)) ?_
    rw [hrest, ← List.append_assoc]

theorem Arrives.parsed {blocks chunks : List Bytes} (h : Arrives blocks chunks)
    (hchunks : ∀ c ∈ chunks, ChunkOk c) :
    blocks = [] ∧ (∃ t', httpParseRequest (chunked chunks) true = .readFailed t') ∨
      ∃ b bs back, blocks = b :: bs ∧ Arrives bs back ∧ (∀ c ∈ back, ChunkOk c) ∧
        httpParseRequest (chunked chunks) true = blockResult b (chunked back) := by
  cases h with
  | @cut b more _ hblock hfit hb hmore =>
    left
    have hlt : b.length < rawBufSize - 1 := Nat.lt_succ_of_le hfit
    have hnone :
        (readLoop (rawBufSize - 1) (chunked chunks).stream (chunked chunks).sched []).1 = none :=
      readLoop_cut hblock hlt hchunks hb hmore
    obtain ⟨t', ht'⟩ : ∃ t', readHeaders (chunked chunks) (rawBufSize - 1) = (none, t') :=
      ⟨_, Prod.ext hnone rfl⟩
    exact ⟨rfl, t', by rw [httpParseRequest, if_pos rfl, ht']⟩
  | @whole b bs front back hblock hfit hfront hback =>
    right
    have hfour := hblock.length
    have hread := readHeaders_front back hblock hfit
      (fun c hc => hchunks c (List.mem_append_left back hc)) hfront
    exact ⟨b, bs, back, rfl, hback, fun c hc => hchunks c (List.mem_append_right front hc),
      httpParseRequest_read hread (List.ne_nil_of_length_pos (by omega))⟩

/-! ### The responses and their requests -/

/-- The response to a request, or the one that is written when no request could be read. -/
def responseTo (cfg : ServerConfig) (env : Round) (block : Option Bytes) : Option Response :=
  match if env.mallocOk then block.bind parseBlock else none with
  | none => some badRequest
  | some req =>
    if denied cfg req then authSendChallenge env.svc.date
    else answer env.svc cfg.firstDb req (wantsKeepAlive req cfg.keepAliveTimeout)

/-- One round of a client that sends its requests one by one. -/
structure RoundOf (cfg : ServerConfig) (env : Round) (k : ℕ) (blocks : List Bytes)
    (round : List Event × Option Conn) : Prop where
  answer : ∃ r, answers round.1 = [(k, r)] ∧ responseTo cfg env blocks.head? = some r
  request : ∀ j req r, .respond j (some req) r ∈ round.1 →
    j = k ∧ blocks.head?.bind parseBlock = some req
  next : ∀ t', round.2 = some t' → ∃ b bs back, blocks = b :: bs ∧ t' = chunked back ∧
    Arrives bs back ∧ ∀ c ∈ back, ChunkOk c

section Round
variable {cfg : ServerConfig} {env : Round} {k : ℕ}

theorem RoundOf.refused {blocks : List Bytes} {es : List Event}
    (hanswers : answers es = [(k, badRequest)])
    (hresponse : responseTo cfg env blocks.head? = some badRequest)
    (hnone : ∀ j req r, .respond j (some req) r ∉ es) : RoundOf cfg env k blocks (es, none) :=
  ⟨⟨_, hanswers, hresponse⟩, fun j req r hmem => absurd hmem (hnone j req r), nofun⟩

theorem RoundOf.responded {b : Bytes} {bs back : List Bytes} {req : HttpRequest} {r : Response}
    {later : List Event} {next : Option Conn} (hb : parseBlock b = some req)
    (hresponse : responseTo cfg env (some b) = some r)
    (hlater : ∀ e ∈ later, e = .release k ∨ e = .setTimeout cfg.keepAliveTimeout)
    (hnext : ∀ t' ∈ next, t' = chunked back) (hback : Arrives bs back)
    (hreads : ∀ c ∈ back, ChunkOk c) :
    RoundOf cfg env k (b :: bs) (.acquire k :: .read k (some b) :: .parsed k req ::
      .respond k (some req) r :: later, next) := by
  have hsilent : answers later = [] := by
    refine List.filterMap_eq_nil_iff.mpr fun e he => ?_
    rcases hlater e he with rfl | rfl <;> rfl
  refine ⟨⟨r, congrArg ((k, r) :: ·) hsilent, hresponse⟩, fun j q r' hmem => ?_, fun t' ht' => ?_⟩
  · simp only [List.mem_cons, reduceCtorEq, false_or] at hmem
    rcases hmem with hmem | hmem
    · cases hmem
      exact ⟨rfl, hb⟩
    · rcases hlater _ hmem with h | h <;> cases h
  · exact ⟨b, bs, back, rfl, hnext t' ht', hback, hreads⟩

theorem Arrives.round {blocks chunks : List Bytes} (h : Arrives blocks chunks)
    (hchunks : ∀ c ∈ chunks, ChunkOk c) (cfg : ServerConfig) (env : Round) (k : ℕ) :
    RoundOf cfg env k blocks (clientRound cfg env k (chunked chunks)) := by
  unfold clientRound
  cases hmalloc : env.mallocOk with
  | false => exact .refused rfl (by rw [responseTo, hmalloc]; rfl) (by simp)
  | true =>
    rcases h.parsed hchunks with ⟨rfl, t', hparse⟩ | ⟨b, bs, back, rfl, hback, hreads, hparse⟩
    · rw [hparse]
      exact .refused rfl (by rw [responseTo, hmalloc]; rfl) (by simp)
    · rw [hparse, blockResult]
      cases hb : parseBlock b with
      | none => exact .refused rfl (by rw [responseTo, hmalloc]; simp [hb]) (by simp)
      | some req =>
        dsimp only [Option.elim_some]
        have hlast : ∀ t' ∈ (none : Option Conn), t' = chunked back :=
          fun t' ht' => absurd ht' (Option.not_mem_none t')
        have hresponse : responseTo cfg env (some b) =
            if denied cfg req then authSendChallenge env.svc.date
            else answer env.svc cfg.firstDb req (wantsKeepAlive req cfg.keepAliveTimeout) := by
          rw [responseTo, hmalloc, if_pos rfl, Option.bind_some, hb]
        by_cases hdenied : denied cfg req = true
        · obtain ⟨r, hr⟩ := Option.isSome_iff_exists.mp (authSendChallenge_isSome env.svc.date)
          rw [if_pos hdenied] at hresponse
          rw [if_pos hdenied, hr]
          exact .responded hb (hresponse.trans hr) (by simp) hlast hback hreads
        · obtain ⟨r, hr⟩ := Option.isSome_iff_exists.mp (answer_ends env.svc cfg.firstDb req
            (wantsKeepAlive req cfg.keepAliveTimeout)).written
          rw [if_neg hdenied] at hresponse
          rw [if_neg hdenied, hr]
          have hwritten := hresponse.trans hr
          cases wantsKeepAlive req cfg.keepAliveTimeout with
          | false => exact .responded hb hwritten (by simp) hlast hback hreads
          | true =>
            cases env.shutdown with
            | true => exact .responded hb hwritten (by simp) hlast hback hreads
            | false => exact .responded hb hwritten (by simp) (by simp) hback hreads

end Round

theorem clientFrom_responses (cfg : ServerConfig) (env : ℕ → Round) (k : ℕ) (t : Conn) :
    ∀ blocks chunks, t = chunked chunks → Arrives blocks chunks → (∀ c ∈ chunks, ChunkOk c) →
      (∀ i a, (answers (clientFrom cfg env k t))[i]? = some a →
        a.1 = k + i ∧ responseTo cfg (env (k + i)) blocks[i]? = some a.2) ∧
      ∀ j req r, .respond j (some req) r ∈ clientFrom cfg env k t →
        ∃ i, j = k + i ∧ blocks[i]?.bind parseBlock = some req := by
  induction k, t using clientFrom_induct cfg env with
  | last k t h =>
    rintro blocks chunks rfl harrives hchunks
    obtain ⟨⟨r, hanswers, hresponse⟩, hrequest, -⟩ := harrives.round hchunks cfg (env k) k
    rw [clientFrom_last h, hanswers]
    constructor
    · intro i a ha
      cases i with
      | zero =>
        obtain rfl := Option.some.inj ha
        exact ⟨rfl, by rw [← List.head?_eq_getElem?]; exact hresponse⟩
      | succ i => cases ha
    · intro j req r' hmem
      obtain ⟨rfl, hb⟩ := hrequest j req r' hmem
      exact ⟨0, rfl, by rw [← List.head?_eq_getElem?]; exact hb⟩
  | next k t t' h ih =>
    rintro blocks chunks rfl harrives hchunks
    obtain ⟨⟨r, hanswers, hresponse⟩, hrequest, hnext⟩ := harrives.round hchunks cfg (env k) k
    obtain ⟨b, bs, back, rfl, ht', hback, hreads⟩ := hnext t' h
    obtain ⟨hlater, hlater_requests⟩ := ih bs back ht' hback hreads
    rw [clientFrom_next h, answers_append, hanswers, List.singleton_append]
    constructor
    · intro i a ha
      cases i with
      | zero =>
        obtain rfl := Option.some.inj ha
        exact ⟨rfl, hresponse⟩
      | succ i =>
        obtain ⟨hround, hsucc⟩ := hlater i a ha
        rw [Nat.add_right_comm] at hround hsucc
        exact ⟨hround, hsucc⟩
    · intro j req r' hmem
      rcases List.mem_append.mp hmem with hmem | hmem
      · obtain ⟨rfl, hb⟩ := hrequest j req r' hmem
        exact ⟨0, rfl, hb⟩
      · obtain ⟨i, rfl, hb⟩ := hlater_requests j req r' hmem
        exact ⟨i + 1, Nat.add_right_comm k 1 i, hb⟩

/-- A client that sends its requests one by one, over a kernel that takes the responses whole, reads
off the socket what the server has written, up to the first response that closes the connection:
the k-th status, headers and body are those of the response to its k-th request. -/
theorem responses_read {cfg : ServerConfig} {env : ℕ → Round} {blocks chunks : List Bytes}
    {kernel : ℕ → ℕ → List KernelResult} (hdate : ∀ k, (13 : Byte) ∉ (env k).svc.date.bytes)
    (harrives : Arrives blocks chunks) (hchunks : ∀ c ∈ chunks, ChunkOk c)
    (htaken : TakesAll kernel (handleClient cfg env (chunked chunks))) :
    ∃ bytes, onSocket kernel (handleClient cfg env (chunked chunks)) [] = some bytes ∧
      readResponses (fun k => blocks[k]?.any asksHead) 0 bytes =
        (untilClose (answers (handleClient cfg env (chunked chunks)))).map (fun a =>
          a.2.received (blocks[a.1]?.any asksHead)) ∧
      ∀ (k : ℕ) (a : ℕ × Response), (answers (handleClient cfg env (chunked chunks)))[k]? = some a →
        a.1 = k ∧ responseTo cfg (env k) blocks[k]? = some a.2 := by
  obtain ⟨hresponses, hrequests⟩ :=
    clientFrom_responses cfg env 0 (chunked chunks) blocks chunks rfl harrives hchunks
  refine ⟨_, htaken.onSocket [], ?_, fun k a ha => ?_⟩
  · refine clientFrom_read cfg env _ hdate 0 (chunked chunks) fun j req r hmem => ?_
    obtain ⟨i, rfl, hb⟩ := hrequests j req r hmem
    obtain ⟨b, hblock, hparse⟩ := Option.bind_eq_some_iff.mp hb
    rw [zero_add, hblock, Option.any_some, parseBlock_asksHead hparse]
  · have hk := hresponses k a ha
    rwa [zero_add] at hk

theorem hiTarget_ne : ascii "/hi" ≠ [] := by decide

theorem hiTarget_ok : ∀ c ∈ ascii "/hi", c ≠ 0 ∧ isSpace c = false := by decide +kernel

theorem noHeaders_stays : ∀ h ∈ ([] : List HeaderLine),
    h.name.map lowerByte = ascii "connection" → strcasestr h.value (ascii "close") = false :=
  fun _ hh => absurd hh List.not_mem_nil

/-- A file and then its headers, the first request in two pieces. -/
def hiMessage (head : Bool) : Message where
  head := head
  target := ascii "/hi"
  headers := []
  target_ne := hiTarget_ne
  target_ok := hiTarget_ok
  stays := noHeaders_stays

def hiBlocks : List Bytes := [(hiMessage false).block, (hiMessage true).block]

def hiChunks : List Bytes :=
  [(hiMessage false).block.take 5, (hiMessage false).block.drop 5, (hiMessage true).block]

theorem hiBlock_length (head : Bool) : (hiMessage head).block.length ≤ 21 := by
  cases head <;> decide

theorem hiBlocks_arrive : Arrives hiBlocks hiChunks := by
  have hfit : ∀ head, (hiMessage head).block.length ≤ 8190 := fun head =>
    (hiBlock_length head).trans (by decide)
  have hrest : Arrives [] [] := .cut (hiMessage false).block_ends (hfit false) rfl (by decide)
  have hsecond : Arrives [(hiMessage true).block] (hiChunks.drop 2 ++ []) :=
    .whole (hiMessage true).block_ends (hfit true) (by simp [hiChunks]) hrest
  have hboth : Arrives hiBlocks (hiChunks.take 2 ++ (hiChunks.drop 2 ++ [])) :=
    .whole (hiMessage false).block_ends (hfit false) (by simp [hiChunks]) hsecond
  exact hboth

theorem hiChunks_ok : ∀ c ∈ hiChunks, ChunkOk c := by
  unfold ChunkOk
  decide +kernel

def hiEvents : List Event := handleClient bareServer (fun _ => hiRound) (chunked hiChunks)

theorem responses_read_hi :
    ∃ bytes, onSocket (generous (sentBytes hiEvents).length) hiEvents [] = some bytes ∧
      readResponses (fun k => hiBlocks[k]?.any asksHead) 0 bytes =
        (untilClose (answers hiEvents)).map (fun a =>
          a.2.received (hiBlocks[a.1]?.any asksHead)) ∧
      ∀ (k : ℕ) (a : ℕ × Response), (answers hiEvents)[k]? = some a →
        a.1 = k ∧ responseTo bareServer hiRound hiBlocks[k]? = some a.2 := by
  have hdate : (13 : Byte) ∉ hiRound.svc.date.bytes := by decide +kernel
  exact responses_read (fun _ => hdate) hiBlocks_arrive hiChunks_ok (generous_takesAll le_rfl)

end LocalMarks.Server

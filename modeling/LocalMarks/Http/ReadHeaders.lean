import LocalMarks.Http.Message
import LocalMarks.Lib.Search

/-!
# Reading a header block

`read_headers` over all ways in which the reads may cut the stream: the blank line it finds, and
what it returns when the buffer is full before there is one.
-/

namespace LocalMarks.Http
open LocalMarks.Lib

/-! ### One read -/

theorem readOutcome_length {o : ReadOutcome} {want : ℕ} {stream c : Bytes}
    (h : readOutcome o want stream = some c) : c.length ≤ want ∧ c.length ≤ stream.length := by
  unfold readOutcome at h
  split at h
  · cases h
  · dsimp only at h
    split at h
    · cases h
    · cases h
      rw [List.length_take]
      omega

theorem readOutcome_taken {o : ReadOutcome} {want : ℕ} {stream b : Bytes}
    (h : readOutcome o want stream = some b) : b <+: stream ∧ b ≠ [] := by
  unfold readOutcome at h
  split at h
  · cases h
  · dsimp only at h
    split at h
    · cases h
    · rename_i hne
      cases h
      exact ⟨List.take_prefix _ _, hne⟩

theorem readOutcome_data {k want : ℕ} {stream : Bytes} (hk : 0 < k) (hw : 0 < want)
    (hs : stream ≠ []) :
    readOutcome (.data k) want stream = some (stream.take (min k want)) := by
  have hpos := List.length_pos_iff.mpr hs
  unfold readOutcome
  refine if_neg fun h => ?_
  have hlen := congrArg List.length h
  rw [List.length_take, List.length_nil] at hlen
  omega

/-! ### The scan for the blank line -/

theorem blankLine_length : blankLine.length = 4 := rfl

theorem findBlankLine_before {block buf z : Bytes} (hblock : EndsAtBlank block)
    (h : block = buf ++ z) (hz : z ≠ []) (scan : ℕ) : findBlankLine buf scan = none := by
  unfold findBlankLine
  rw [Option.map_eq_none_iff, Option.eq_none_iff_forall_not_mem]
  intro hit hmem
  obtain ⟨before, after⟩ := hit
  have hbuf : buf = buf.take scan ++ (before ++ blankLine ++ after) := by
    rw [← strstr_some hmem, List.take_append_drop]
  have hafter := hblock.2 (buf.take scan ++ before) (after ++ z) (by
    rw [h]
    nth_rewrite 1 [hbuf]
    simp only [List.append_assoc])
  exact hz (List.append_eq_nil_iff.mp hafter).2

theorem findBlankLine_whole {block : Bytes} (hblock : EndsAtBlank block) (z : Bytes) {scan : ℕ}
    (hscan : scan + 4 ≤ block.length) : findBlankLine (block ++ z) scan = some block.length := by
  obtain ⟨pre, hpre⟩ := hblock.1
  have hlen := congrArg List.length hpre
  rw [List.length_append, blankLine_length] at hlen
  have hat : blankLine <+: ((block ++ z).drop scan).drop (pre.length - scan) := by
    rw [List.drop_drop, ← hpre, List.append_assoc, show scan + (pre.length - scan) = pre.length by
      omega, List.drop_left]
    exact List.prefix_append _ _
  have hfound : (strstr blankLine ((block ++ z).drop scan)).isSome := by
    rw [strstr_isSome]
    exact hat.isInfix.trans (List.drop_suffix _ _).isInfix
  obtain ⟨⟨before, after⟩, hr⟩ := Option.isSome_iff_exists.mp hfound
  have hle : before.length ≤ pre.length - scan := by
    by_contra hlt
    exact strstr_first hr (Nat.lt_of_not_le hlt) hat
  -- what was found lies in the block, so it is its end
  have hin : (block ++ z).take scan ++ before ++ blankLine <+: block := by
    refine List.prefix_of_prefix_length_le ?_ (List.prefix_append block z) ?_
    · refine ⟨after, ?_⟩
      nth_rewrite 2 [← List.take_append_drop scan (block ++ z)]
      rw [strstr_some hr]
      simp only [List.append_assoc]
    · simp only [List.length_append, List.length_take, blankLine_length]
      omega
  obtain ⟨rest, hrest⟩ := hin
  have hnil := hblock.2 _ rest hrest.symm
  have htotal := congrArg List.length hrest
  simp only [List.length_append, List.length_take, hnil, List.length_nil,
    blankLine_length] at htotal
  rw [findBlankLine, hr, Option.map_some]
  congr 1
  show scan + before.length + 4 = block.length
  omega

theorem findBlankLine_some {b : Bytes} {scan n : ℕ} (h : findBlankLine b scan = some n) :
    blankLine <:+ b.take n := by
  obtain ⟨⟨before, after⟩, hr, rfl⟩ := Option.map_eq_some_iff.mp h
  have hdrop : b.drop scan = before ++ blankLine ++ after := strstr_some hr
  have hlt : scan ≤ b.length := by
    by_contra hlt
    rw [List.drop_eq_nil_of_le (by omega)] at hdrop
    simp [blankLine] at hdrop
  have hb : b = b.take scan ++ before ++ blankLine ++ after := by
    nth_rewrite 1 [← List.take_append_drop scan b]
    rw [hdrop]
    simp only [List.append_assoc]
  refine ⟨b.take scan ++ before, ?_⟩
  nth_rewrite 2 [hb]
  rw [List.take_left']
  simp only [List.length_append, List.length_take, blankLine_length]
  omega

/-- The overlap of three bytes is enough: with no blank line in the old bytes and none found,
there is none in all of them. -/
theorem findBlankLine_overlap {buf b : Bytes} (hbuf : ¬ blankLine <:+: buf)
    (h : findBlankLine (buf ++ b) (buf.length - 3) = none) : ¬ blankLine <:+: buf ++ b := by
  rw [← strstr_none, strstr_drop (k := buf.length - 3) (by rw [List.length_append]; omega)]
  · rw [Option.map_eq_none_iff]
    exact Option.map_eq_none_iff.mp h
  · intro i hi hat
    apply hbuf
    rw [List.drop_append_of_le_length (by omega)] at hat
    have hold := List.prefix_of_prefix_length_le hat (List.prefix_append (buf.drop i) b)
      (by rw [List.length_drop, blankLine_length]; omega)
    exact hold.isInfix.trans (List.drop_suffix _ _).isInfix

/-! ### The loop -/

theorem readLoop_full {max : ℕ} {stream buf : Bytes} {sched : List ReadOutcome}
    (h : max ≤ buf.length + 1) :
    readLoop max stream sched buf = (some buf, ⟨stream, sched⟩) := by
  cases sched with
  | nil => rw [readLoop, if_neg (by omega)]
  | cons o os => rw [readLoop, if_neg (by omega)]

/-- The bytes that the reads bring into a buffer of `max` bytes until it is full, blank line or
not; none when a read fails first. -/
def fill (max : ℕ) (stream : Bytes) : List ReadOutcome → Bytes → Option Bytes
  | [], buf => if buf.length + 1 < max then none else some buf
  | o :: os, buf =>
    if buf.length + 1 < max then
      (readOutcome o (min (max - buf.length) maxRead) stream).bind fun b =>
        fill max (stream.drop b.length) os (buf ++ b)
    else some buf

theorem fill_full {max : ℕ} {stream buf : Bytes} {sched : List ReadOutcome}
    (h : max ≤ buf.length + 1) : fill max stream sched buf = some buf := by
  cases sched with
  | nil => rw [fill, if_neg (by omega)]
  | cons o os => rw [fill, if_neg (by omega)]

theorem readLoop_cases (max : ℕ) (stream : Bytes) (o : ReadOutcome) (os : List ReadOutcome)
    (buf : Bytes) :
    (max ≤ buf.length + 1 ∧
      readLoop max stream (o :: os) buf = (some buf, ⟨stream, o :: os⟩) ∧
      fill max stream (o :: os) buf = some buf) ∨
    (buf.length + 1 < max ∧
      readLoop max stream (o :: os) buf = (none, ⟨stream, os⟩) ∧
      fill max stream (o :: os) buf = none) ∨
    ∃ b, buf.length + 1 < max ∧
      readOutcome o (min (max - buf.length) maxRead) stream = some b ∧
      fill max stream (o :: os) buf = fill max (stream.drop b.length) os (buf ++ b) ∧
      ((∃ n, findBlankLine (buf ++ b) (buf.length - 3) = some n ∧
        readLoop max stream (o :: os) buf =
          (some ((buf ++ b).take n), ⟨stream.drop b.length, os⟩)) ∨
      (findBlankLine (buf ++ b) (buf.length - 3) = none ∧
        readLoop max stream (o :: os) buf =
          readLoop max (stream.drop b.length) os (buf ++ b))) := by
  by_cases hroom : buf.length + 1 < max
  · right
    rw [readLoop, fill, if_pos hroom, if_pos hroom]
    cases hr : readOutcome o (min (max - buf.length) maxRead) stream with
    | none => exact Or.inl ⟨hroom, rfl, rfl⟩
    | some b =>
      right
      refine ⟨b, hroom, rfl, rfl, ?_⟩
      dsimp only
      cases hf : findBlankLine (buf ++ b) (buf.length - 3) with
      | some n => exact Or.inl ⟨n, rfl, rfl⟩
      | none => exact Or.inr ⟨rfl, rfl⟩
  · left
    exact ⟨by omega, readLoop_full (by omega), fill_full (by omega)⟩

/-- How a run of the loop comes to return a block: the buffer is full, the blank line is found, or
a read that brings neither is followed by such a run. -/
inductive Returned (max : ℕ) : Bytes → List ReadOutcome → Bytes → Bytes → Conn → Prop where
  | full {stream buf : Bytes} {sched : List ReadOutcome} : max ≤ buf.length + 1 →
      Returned max stream sched buf buf ⟨stream, sched⟩
  | found {stream buf c : Bytes} {o : ReadOutcome} {os : List ReadOutcome} {n : ℕ} :
      buf.length + 1 < max → readOutcome o (min (max - buf.length) maxRead) stream = some c →
      findBlankLine (buf ++ c) (buf.length - 3) = some n →
      Returned max stream (o :: os) buf ((buf ++ c).take n) ⟨stream.drop c.length, os⟩
  | more {stream buf c b : Bytes} {o : ReadOutcome} {os : List ReadOutcome} {t' : Conn} :
      buf.length + 1 < max → readOutcome o (min (max - buf.length) maxRead) stream = some c →
      findBlankLine (buf ++ c) (buf.length - 3) = none →
      Returned max (stream.drop c.length) os (buf ++ c) b t' →
      Returned max stream (o :: os) buf b t'

theorem readLoop_returned {max : ℕ} {stream buf b : Bytes} {sched : List ReadOutcome} {t' : Conn}
    (h : readLoop max stream sched buf = (some b, t')) : Returned max stream sched buf b t' := by
  induction sched generalizing stream buf with
  | nil =>
    unfold readLoop at h
    split at h
    · cases h
    · rename_i hroom
      cases h
      exact .full (Nat.not_lt.mp hroom)
  | cons o os ih =>
    obtain ⟨hroom, hloop, -⟩ | ⟨-, hloop, -⟩ | ⟨c, hroom, hread, -, hnext⟩ :=
      readLoop_cases max stream o os buf
    · rw [hloop] at h
      cases h
      exact .full hroom
    · rw [hloop] at h
      cases h
    · rcases hnext with ⟨n, hfound, hloop⟩ | ⟨hnone, hloop⟩
      · rw [hloop] at h
        cases h
        exact .found hroom hread hfound
      · rw [hloop] at h
        exact .more hroom hread hnone (ih h)

/-- What a read that can deliver `k` bytes brings into a buffer with `n` bytes. -/
def readSize (max k n : ℕ) : ℕ := min k (min (max - n) maxRead)

theorem fill_data {max k : ℕ} {stream buf : Bytes} {os : List ReadOutcome}
    (hroom : buf.length + 1 < max) (hk : 0 < k) (hs : stream ≠ []) :
    fill max stream (.data k :: os) buf =
      fill max (stream.drop (readSize max k buf.length)) os
        (buf ++ stream.take (readSize max k buf.length)) := by
  rw [fill, if_pos hroom, readOutcome_data hk (lt_min (by omega) (by decide)) hs, Option.bind_some,
    List.length_take, ← List.drop_eq_drop_min, readSize]

theorem readLoop_data {max k : ℕ} {stream buf : Bytes} {os : List ReadOutcome}
    (hroom : buf.length + 1 < max) (hk : 0 < k) (hs : stream ≠ []) {found : Option ℕ}
    (hfound : findBlankLine (buf ++ stream.take (readSize max k buf.length)) (buf.length - 3) =
      found) :
    readLoop max stream (.data k :: os) buf =
      found.elim
        (readLoop max (stream.drop (readSize max k buf.length)) os
          (buf ++ stream.take (readSize max k buf.length)))
        fun n => (some ((buf ++ stream.take (readSize max k buf.length)).take n),
          ⟨stream.drop (readSize max k buf.length), os⟩) := by
  have hdrop : stream.drop (stream.take (readSize max k buf.length)).length =
      stream.drop (readSize max k buf.length) := by
    rw [List.length_take, ← List.drop_eq_drop_min]
  have hread : readOutcome (.data k) (min (max - buf.length) maxRead) stream =
      some (stream.take (readSize max k buf.length)) :=
    readOutcome_data hk (lt_min (by omega) (by decide)) hs
  cases found with
  | none => simp only [readLoop, if_pos hroom, hread, hfound, hdrop, Option.elim_none]
  | some n => simp only [readLoop, if_pos hroom, hread, hfound, hdrop, Option.elim_some]

theorem fill_extends {max : ℕ} {stream buf b : Bytes} {sched : List ReadOutcome}
    (h : fill max stream sched buf = some b) : buf <+: b := by
  induction sched generalizing stream buf with
  | nil =>
    unfold fill at h
    split at h
    · cases h
    · cases h
      exact List.prefix_refl _
  | cons o os ih =>
    obtain ⟨-, -, hfill⟩ | ⟨-, -, hfill⟩ | ⟨c, -, -, hfill, -⟩ := readLoop_cases max stream o os buf
    · rw [hfill] at h
      cases h
      exact List.prefix_refl _
    · rw [hfill] at h
      cases h
    · rw [hfill] at h
      exact (List.prefix_append buf c).trans (ih h)

theorem readLoop_cut {max : ℕ} {stream buf b : Bytes} {sched : List ReadOutcome}
    (h : fill max stream sched buf = some b) (hb : ¬ blankLine <:+: b) :
    ∃ t', readLoop max stream sched buf = (some b, t') := by
  induction sched generalizing stream buf with
  | nil =>
    unfold fill at h
    split at h
    · cases h
    · rename_i hroom
      cases h
      exact ⟨_, if_neg hroom⟩
  | cons o os ih =>
    obtain ⟨-, hloop, hfill⟩ | ⟨-, -, hfill⟩ | ⟨c, -, -, hfill, hnext⟩ :=
      readLoop_cases max stream o os buf
    · rw [hfill] at h
      cases h
      exact ⟨_, hloop⟩
    · rw [hfill] at h
      cases h
    · rw [hfill] at h
      rcases hnext with ⟨n, hfound, -⟩ | ⟨-, hloop⟩
      · -- what was found would be in the buffer
        refine absurd ?_ hb
        have htake := (findBlankLine_some hfound).isInfix.trans (List.take_prefix n _).isInfix
        exact htake.trans (fill_extends h).isInfix
      · rw [hloop]
        exact ih h

theorem readLoop_some {max : ℕ} {stream buf b : Bytes} {sched : List ReadOutcome} {t' : Conn}
    (hbuf : ¬ blankLine <:+: buf) (h : readLoop max stream sched buf = (some b, t')) :
    blankLine <:+ b ∨ fill max stream sched buf = some b ∧ ¬ blankLine <:+: b := by
  have hreturned := readLoop_returned h
  clear h
  induction hreturned with
  | full hroom => exact Or.inr ⟨fill_full hroom, hbuf⟩
  | found hroom hread hfound => exact Or.inl (findBlankLine_some hfound)
  | more hroom hread hnone _ ih =>
    rw [fill, if_pos hroom, hread, Option.bind_some]
    exact ih (findBlankLine_overlap hbuf hnone)

/-! ### Any way of cutting the stream -/

/-- The first blank line of the stream ends at offset `p`. -/
def FirstBlank (stream : Bytes) (p : ℕ) : Prop :=
  blankLine <:+ stream.take p ∧ ∀ q < p, ¬ blankLine <:+ stream.take q

theorem FirstBlank.le {stream : Bytes} {p : ℕ} (h : FirstBlank stream p) : p ≤ stream.length := by
  by_contra hlt
  have hall := h.2 stream.length (by omega)
  rw [List.take_length] at hall
  have hend := h.1
  rw [List.take_of_length_le (by omega)] at hend
  exact hall hend

theorem FirstBlank.ends {stream : Bytes} {p : ℕ} (h : FirstBlank stream p) :
    EndsAtBlank (stream.take p) := by
  refine ⟨h.1, ?_⟩
  intro before after hblock
  by_contra hafter
  have hpos := List.length_pos_iff.mpr hafter
  have hlen := congrArg List.length hblock
  rw [List.length_take, List.length_append] at hlen
  apply h.2 (before ++ blankLine).length (by omega)
  have hpre := List.prefix_append (before ++ blankLine) after
  rw [← hblock] at hpre
  rw [← List.prefix_iff_eq_take.mp (hpre.trans (List.take_prefix p stream))]
  exact List.suffix_append before blankLine

theorem readLoop_first {stream : Bytes} {p max : ℕ} (hp : FirstBlank stream p) (hmax : p < max)
    {ks : List ℕ} (hks : ∀ k ∈ ks, 0 < k) (os : List ReadOutcome) {n : ℕ} (hn : n < p)
    (hsum : p ≤ n + (ks.map (min · maxRead)).sum) :
    ∃ t', readLoop max (stream.drop n) (ks.map .data ++ os) (stream.take n) =
      (some (stream.take p), t') := by
  induction ks generalizing n with
  | nil =>
    rw [List.map_nil, List.sum_nil] at hsum
    omega
  | cons k ks ih =>
    have hle := hp.le
    have hlen : (stream.take n).length = n := by
      rw [List.length_take]
      omega
    have hrest : stream.drop n ≠ [] := fun h => by
      have := List.drop_eq_nil_iff.mp h
      omega
    have hk := hks k (List.mem_cons_self ..)
    have hpos : 0 < maxRead := by decide
    rw [List.map_cons, List.sum_cons] at hsum
    obtain ⟨found, hfound⟩ : ∃ found, findBlankLine (stream.take n ++
        (stream.drop n).take (readSize max k (stream.take n).length))
        ((stream.take n).length - 3) = found := ⟨_, rfl⟩
    rw [List.map_cons, List.cons_append, readLoop_data (by omega) hk hrest hfound]
    rw [hlen, ← List.take_add] at hfound
    rw [hlen, ← List.take_add, List.drop_drop]
    have hsize : readSize max k n = min k (min (max - n) maxRead) := rfl
    generalize readSize max k n = j at *
    by_cases hin : n + j < p
    · -- the block goes on, so nothing is found
      have hcut : stream.take p = stream.take (n + j) ++ (stream.take p).drop (n + j) := by
        nth_rewrite 1 [← List.take_append_drop (n + j) (stream.take p)]
        rw [List.take_take, min_eq_left hin.le]
      have hmore : (stream.take p).drop (n + j) ≠ [] := fun h => by
        have := List.drop_eq_nil_iff.mp h
        rw [List.length_take] at this
        omega
      rw [findBlankLine_before hp.ends hcut hmore] at hfound
      rw [← hfound]
      exact ih (fun x hx => hks x (List.mem_cons_of_mem _ hx)) hin (by omega)
    · -- its last byte is there
      have hfour := hp.ends.length
      rw [List.length_take] at hfour
      have hcut : stream.take (n + j) = stream.take p ++ (stream.drop p).take (n + j - p) := by
        rw [← List.take_add, Nat.add_sub_cancel' (by omega)]
      have hend := findBlankLine_whole hp.ends ((stream.drop p).take (n + j - p))
        (show n - 3 + 4 ≤ (stream.take p).length by rw [List.length_take]; omega)
      rw [← hcut, hfound, List.length_take, min_eq_left hle] at hend
      rw [hend, Option.elim_some, List.take_take, min_eq_left (by omega)]
      exact ⟨_, rfl⟩

theorem EndsAtBlank.first {block : Bytes} (h : EndsAtBlank block) (rest : Bytes) :
    FirstBlank (block ++ rest) block.length := by
  constructor
  · rw [List.take_left]
    exact h.1
  · intro q hq hearlier
    obtain ⟨before, hbefore⟩ := hearlier
    rw [List.take_append_of_le_length hq.le] at hbefore
    have hsplit : block = before ++ blankLine ++ block.drop q := by
      rw [hbefore, List.take_append_drop]
    have := List.drop_eq_nil_iff.mp (h.2 _ _ hsplit)
    omega

/-- A connection on which reads that succeed bring the bytes of a header block, and perhaps
more behind it. -/
structure Delivery (block : Bytes) where
  rest : Bytes
  sizes : List ℕ
  later : List ReadOutcome
  pos : ∀ k ∈ sizes, 0 < k
  enough : block.length ≤ (sizes.map (min · maxRead)).sum

def Delivery.conn {block : Bytes} (d : Delivery block) : Conn :=
  ⟨block ++ d.rest, d.sizes.map .data ++ d.later⟩

theorem Delivery.read {block : Bytes} (d : Delivery block) (hblock : EndsAtBlank block)
    {max : ℕ} (hmax : block.length < max) :
    ∃ t', readHeaders d.conn max = (some block, t') := by
  have hfour := hblock.length
  have hfirst := readLoop_first (hblock.first d.rest) hmax d.pos d.later
    (show 0 < block.length by omega) (by rw [zero_add]; exact d.enough)
  rwa [List.drop_zero, List.take_zero, List.take_left] at hfirst

/-! ### The ways out of `http_parse_request` -/

def blockResult (block : Bytes) (t' : Conn) : ParseResult :=
  (parseBlock block).elim (.badLine block t') fun req => .ok block req t'

theorem httpParseRequest_read {t t' : Conn} {block : Bytes}
    (hr : readHeaders t (rawBufSize - 1) = (some block, t')) (hne : block ≠ []) :
    httpParseRequest t true = blockResult block t' := by
  unfold blockResult
  cases hp : parseBlock block with
  | none => simp only [httpParseRequest, hr, hp, if_true, if_neg hne, Option.elim_none]
  | some req => simp only [httpParseRequest, hr, hp, if_true, if_neg hne, Option.elim_some]

/-- A block that was parsed, with or without success, was read and is not empty. -/
theorem httpParseRequest_block {t t' : Conn} {mallocOk : Bool} {block : Bytes}
    (h : httpParseRequest t mallocOk = .badLine block t' ∨
      ∃ req, httpParseRequest t mallocOk = .ok block req t') :
    mallocOk = true ∧ readHeaders t (rawBufSize - 1) = (some block, t') ∧ block ≠ [] := by
  cases mallocOk with
  | false => rcases h with h | ⟨req, h⟩ <;> cases h
  | true =>
    refine ⟨rfl, ?_⟩
    rcases hr : readHeaders t (rawBufSize - 1) with ⟨_ | b, t2⟩
    · simp [httpParseRequest, hr] at h
    · by_cases hb : b = []
      · simp [httpParseRequest, hr, hb] at h
      · rw [httpParseRequest_read hr hb, blockResult] at h
        cases hp : parseBlock b with
        | none =>
          rw [hp] at h
          rcases h with h | ⟨req, h⟩ <;> cases h
          exact ⟨rfl, hb⟩
        | some r =>
          rw [hp] at h
          rcases h with h | ⟨req, h⟩ <;> cases h
          exact ⟨rfl, hb⟩

theorem httpParseRequest_badLine {t t' : Conn} {mallocOk : Bool} {block : Bytes}
    (h : httpParseRequest t mallocOk = .badLine block t') : parseBlock block = none := by
  obtain ⟨rfl, hr, hne⟩ := httpParseRequest_block (Or.inl h)
  rw [httpParseRequest_read hr hne, blockResult] at h
  cases hp : parseBlock block with
  | none => rfl
  | some req =>
    rw [hp] at h
    cases h

theorem httpParseRequest_ok {t t' : Conn} {mallocOk : Bool} {block : Bytes} {req : HttpRequest}
    (h : httpParseRequest t mallocOk = .ok block req t') :
    readHeaders t (rawBufSize - 1) = (some block, t') ∧ parseBlock block = some req := by
  obtain ⟨rfl, hr, hne⟩ := httpParseRequest_block (Or.inr ⟨req, h⟩)
  rw [httpParseRequest_read hr hne, blockResult] at h
  cases hp : parseBlock block with
  | none =>
    rw [hp] at h
    cases h
  | some r =>
    rw [hp] at h
    cases h
    exact ⟨hr, rfl⟩

theorem httpParseRequest_of_block {t t' : Conn} {block : Bytes} {req : HttpRequest}
    (hr : readHeaders t (rawBufSize - 1) = (some block, t')) (hne : block ≠ [])
    (hp : parseBlock block = some req) : httpParseRequest t true = .ok block req t' := by
  rw [httpParseRequest_read hr hne, blockResult, hp, Option.elim_some]

theorem Delivery.parse {block : Bytes} (d : Delivery block) (hblock : EndsAtBlank block)
    (hfit : block.length < rawBufSize - 1) :
    ∃ t', httpParseRequest d.conn true = blockResult block t' := by
  obtain ⟨t', hread⟩ := d.read hblock hfit
  have hfour := hblock.length
  exact ⟨t', httpParseRequest_read hread (List.ne_nil_of_length_pos (by omega))⟩

/-! ### Complete blocks -/

/-- What `read_headers` returns with a positive length ends with a blank line. -/
def ReturnsComplete (t : Conn) (max : ℕ) : Prop :=
  ∀ buf t', readHeaders t max = (some buf, t') → buf ≠ [] → blankLine <:+ buf

/-- Every block that `http_parse_request` parses ends with a blank line. -/
def ParsesComplete (t : Conn) : Prop :=
  ∀ mallocOk block t', (httpParseRequest t mallocOk = .badLine block t' ∨
    ∃ req, httpParseRequest t mallocOk = .ok block req t') → blankLine <:+ block

/-- Bytes that fill the buffer have a blank line among them. -/
def BlankInTime (t : Conn) (max : ℕ) : Prop :=
  ∀ b, fill max t.stream t.sched [] = some b → b = [] ∨ blankLine <:+: b

theorem blankLine_ne : ¬ blankLine <:+: [] := by
  intro h
  cases List.infix_nil.mp h

theorem readHeaders_complete (t : Conn) (max : ℕ) : ReturnsComplete t max ↔ BlankInTime t max := by
  constructor
  · intro h b hb
    by_contra hcut
    obtain ⟨hne, hno⟩ := not_or.mp hcut
    obtain ⟨t', hread⟩ := readLoop_cut hb hno
    exact hno (h b t' hread hne).isInfix
  · intro h buf t' hread hne
    rcases readLoop_some blankLine_ne hread with hend | ⟨hfill, hno⟩
    · exact hend
    · rcases h buf hfill with hnil | hblank
      · exact absurd hnil hne
      · exact absurd hblank hno

/-- A block without an end is returned, and parsed, exactly when the reads fill the buffer
before there is a blank line. -/
theorem complete_iff (t : Conn) :
    (∀ max, ReturnsComplete t max ↔ BlankInTime t max) ∧
      (ParsesComplete t ↔ BlankInTime t (rawBufSize - 1)) := by
  refine ⟨readHeaders_complete t, ?_⟩
  rw [← readHeaders_complete]
  constructor
  · intro h buf t' hread hne
    apply h true buf t'
    rw [httpParseRequest_read hread hne, blockResult]
    cases parseBlock buf with
    | none => exact Or.inl rfl
    | some req => exact Or.inr ⟨req, rfl⟩
  · intro h mallocOk block t' hparse
    obtain ⟨-, hread, hne⟩ := httpParseRequest_block hparse
    exact h block t' hread hne

/-- A cookie longer than the buffer, with the credentials behind it. -/
def longCookie : Conn where
  stream := ascii "GET / HTTP/1.1\r\n" ++ (ascii "Cookie: " ++ (List.replicate 8200 97 ++
    ascii "\r\nAuthorization: Basic dTpw\r\n\r\n"))
  sched := [.data 4096, .data 4095]

/-- What the buffer holds then, with `n` bytes of the cookie. -/
def cookieBlock (n : ℕ) : Bytes :=
  ascii "GET / HTTP/1.1\r\n" ++ (ascii "Cookie: " ++ List.replicate n 97)

theorem cookieBlock_open (n : ℕ) : ¬ blankLine <:+: cookieBlock n := by
  intro h
  -- a blank line has two line feeds
  have hcount := h.sublist.count_le 10
  have htwo : List.count 10 blankLine = 2 := by decide
  have hfirst : List.count 10 (ascii "GET / HTTP/1.1\r\n") = 1 := by decide
  have hname : List.count 10 (ascii "Cookie: ") = 0 := by decide
  rw [cookieBlock, List.count_append, List.count_append, hfirst, hname, htwo,
    List.count_replicate, if_neg (by decide)] at hcount
  omega

theorem cookieBlock_parsed (n : ℕ) : ∃ req, parseBlock (cookieBlock n) = some req := by
  have hnul : (0 : Byte) ∉ cookieBlock n := by
    intro h
    rcases List.mem_append.mp h with h | h
    · exact absurd h (by decide +kernel)
    · rcases List.mem_append.mp h with h | h
      · exact absurd h (by decide +kernel)
      · exact absurd (List.eq_of_mem_replicate h) (by decide)
  have hline : ∀ c ∈ ascii "GET / HTTP/1.1", c ≠ 13 := by decide +kernel
  have hsplit := splitLines_line (crlf_free hline) (ascii "Cookie: " ++ List.replicate n 97)
  have hhead : ascii "GET / HTTP/1.1" ++ crlf = ascii "GET / HTTP/1.1\r\n" := by decide
  rw [hhead] at hsplit
  unfold parseBlock
  rw [cstr_of_nul_free hnul, cookieBlock, hsplit]
  exact ⟨_, rfl⟩

theorem longCookie_fill :
    fill (rawBufSize - 1) longCookie.stream longCookie.sched [] = some (cookieBlock 8167) := by
  have hhead : (ascii "GET / HTTP/1.1\r\n").length = 16 := by decide
  have hname : (ascii "Cookie: ").length = 8 := by decide
  have hlen : 8191 ≤ longCookie.stream.length := by
    simp only [longCookie, List.length_append, List.length_replicate, hhead, hname]
    omega
  have hstream : longCookie.stream.take (16 + (8 + 8167)) = cookieBlock 8167 := by
    rw [longCookie, cookieBlock, ← hhead, List.take_length_add_append, ← hname,
      List.take_length_add_append, List.take_append_of_le_length, List.take_replicate]
    · rfl
    · rw [List.length_replicate]
      omega
  have hne : longCookie.stream ≠ [] := List.ne_nil_of_length_pos (by omega)
  have hrest : longCookie.stream.drop 4096 ≠ [] := fun h => by
    have := List.drop_eq_nil_iff.mp h
    omega
  have hfirst : (longCookie.stream.take 4096).length = 4096 := by
    rw [List.length_take]
    omega
  have hmax : maxRead = 4096 := rfl
  calc fill (rawBufSize - 1) longCookie.stream longCookie.sched []
      = fill 8191 (longCookie.stream.drop 4096) [.data 4095] (longCookie.stream.take 4096) :=
        fill_data (by decide) (by decide) hne
    _ = some (longCookie.stream.take (4096 + 4095)) := by
        rw [fill_data (by omega) (by decide) hrest, hfirst, readSize, List.take_add]
        refine if_neg ?_
        rw [List.length_append, hfirst, List.length_take, List.length_drop]
        omega
    _ = some (cookieBlock 8167) := congrArg some hstream

theorem longCookie_accepted : ¬ ReturnsComplete longCookie (rawBufSize - 1) ∧
    ∃ block req t', httpParseRequest longCookie true = .ok block req t' ∧
      ¬ blankLine <:+ block := by
  have hno := cookieBlock_open 8167
  have hne : cookieBlock 8167 ≠ [] := List.append_ne_nil_of_left_ne_nil (by decide) _
  obtain ⟨t', hread⟩ := readLoop_cut longCookie_fill hno
  obtain ⟨req, hreq⟩ := cookieBlock_parsed 8167
  constructor
  · intro h
    exact hno (h _ _ hread hne).isInfix
  · exact ⟨_, req, t', httpParseRequest_of_block hread hne hreq, fun h => hno h.isInfix⟩

end LocalMarks.Http

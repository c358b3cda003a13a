import LocalMarks.Http.ReadHeaders

/-!
# The raw buffer as memory

`read_headers` with every index of its buffer written out: what stands at each of them when it
returns, and which of them it has touched.
-/

namespace LocalMarks.Http
open LocalMarks.Lib

/-- A buffer, with the indices that were read or written. -/
structure Memory where
  byte : ℕ → Byte
  touched : List ℕ

/-- A read into `buf + n` that may use `want` bytes and has delivered `b`. -/
def Memory.readInto (m : Memory) (n want : ℕ) (b : Bytes) : Memory where
  byte i := if n ≤ i then (b[i - n]?).getD (m.byte i) else m.byte i
  touched := List.range' n want ++ m.touched

def Memory.load (m : Memory) (i : ℕ) : Byte × Memory := (m.byte i, ⟨m.byte, i :: m.touched⟩)

def Memory.store (m : Memory) (i : ℕ) (c : Byte) : Memory :=
  ⟨fun j => if j = i then c else m.byte j, i :: m.touched⟩

/-- Whether `pat` stands at `i`. The comparison stops at the first byte that differs. -/
def Memory.matchAt (m : Memory) (i : ℕ) : Bytes → Bool × Memory
  | [] => (true, m)
  | c :: cs =>
    let (d, m') := m.load i
    if d = c then m'.matchAt (i + 1) cs else (false, m')

/-- The inner loop, from index `i`: the offset behind the blank line. -/
def Memory.scan (m : Memory) (n i : ℕ) : Option ℕ × Memory :=
  if i + 3 < n then
    let (found, m') := m.matchAt i blankLine
    if found then (some (i + 4), m') else m'.scan n (i + 1)
  else (none, m)
termination_by n - i

/-- What a run returns and leaves, with the number of reads that succeeded. -/
structure Reading where
  result : Option ℕ
  mem : Memory
  conn : Conn
  reads : ℕ

/-- The outer loop with `n` bytes in the buffer. -/
def readLoopMem (max : ℕ) (stream : Bytes) : List ReadOutcome → Memory → ℕ → ℕ → Reading
  | [], m, n, reads =>
    if n + 1 < max then ⟨none, m.readInto n (min (max - n) maxRead) [], ⟨stream, []⟩, reads⟩
    else ⟨some n, m.store n 0, ⟨stream, []⟩, reads⟩
  | o :: os, m, n, reads =>
    if n + 1 < max then
      let want := min (max - n) maxRead
      match readOutcome o want stream with
      | none => ⟨none, m.readInto n want [], ⟨stream, os⟩, reads⟩
      | some b =>
        let stream' := stream.drop b.length
        let n' := n + b.length
        match (m.readInto n want b).scan n' (n - 3) with
        | (some p, m') => ⟨some p, m'.store p 0, ⟨stream', os⟩, reads + 1⟩
        | (none, m') => readLoopMem max stream' os m' n' (reads + 1)
    else ⟨some n, m.store n 0, ⟨stream, o :: os⟩, reads⟩

/-- `read_headers` on a buffer with the bytes that `malloc` has left in it. -/
def readHeadersMem (t : Conn) (max : ℕ) (byte : ℕ → Byte) : Reading :=
  readLoopMem max t.stream t.sched ⟨byte, []⟩ 0 0

/-! ### What stands in the buffer -/

/-- The bytes stand at the beginning of the buffer. -/
def Memory.Holds (m : Memory) (b : Bytes) : Prop := ∀ i c, b[i]? = some c → m.byte i = c

theorem Memory.readInto_holds {m : Memory} {buf : Bytes} (h : m.Holds buf) (want : ℕ) (b : Bytes) :
    (m.readInto buf.length want b).Holds (buf ++ b) := by
  intro i c hc
  by_cases hi : i < buf.length
  · rw [List.getElem?_append_left hi] at hc
    exact (if_neg (by omega)).trans (h i c hc)
  · rw [List.getElem?_append_right (by omega)] at hc
    refine (if_pos (by omega)).trans ?_
    rw [hc, Option.getD_some]

theorem Memory.store_holds {m : Memory} {b : Bytes} (h : m.Holds b) {i : ℕ} (c : Byte) :
    (m.store i c).Holds (b.take i) := by
  intro j d hd
  have hj : j < i := by
    by_contra hij
    rw [List.getElem?_eq_none (by rw [List.length_take]; omega)] at hd
    cases hd
  rw [List.getElem?_take_of_lt hj] at hd
  exact (if_neg hj.ne).trans (h j d hd)

theorem Memory.store_byte (m : Memory) (i : ℕ) (c : Byte) : (m.store i c).byte i = c := if_pos rfl

/-! ### Comparing and scanning -/

theorem Memory.matchAt_byte (m : Memory) (i : ℕ) (pat : Bytes) :
    (m.matchAt i pat).2.byte = m.byte := by
  induction pat generalizing m i with
  | nil => rfl
  | cons c cs ih =>
    unfold matchAt
    dsimp only [load]
    split
    · exact ih _ _
    · rfl

theorem Memory.matchAt_touched (m : Memory) (i : ℕ) (pat : Bytes) :
    ∀ j ∈ (m.matchAt i pat).2.touched, j ∈ m.touched ∨ j < i + pat.length := by
  induction pat generalizing m i with
  | nil => exact fun j hj => Or.inl hj
  | cons c cs ih =>
    intro j hj
    rw [List.length_cons]
    unfold matchAt at hj
    dsimp only [load] at hj
    split at hj
    · rcases ih _ _ j hj with hj | hj
      · rcases List.mem_cons.mp hj with rfl | hj
        · right
          omega
        · exact Or.inl hj
      · right
        omega
    · rcases List.mem_cons.mp hj with rfl | hj
      · right
        omega
      · exact Or.inl hj

theorem Memory.matchAt_iff {m : Memory} {b : Bytes} (h : m.Holds b) (i : ℕ) (pat : Bytes)
    (hi : i + pat.length ≤ b.length) : (m.matchAt i pat).1 = true ↔ pat <+: b.drop i := by
  induction pat generalizing m i with
  | nil => exact iff_of_true rfl List.nil_prefix
  | cons c cs ih =>
    rw [List.length_cons] at hi
    have hlt : i < b.length := by omega
    have hbyte : m.byte i = b[i] := h i _ (List.getElem?_eq_getElem hlt)
    rw [List.drop_eq_getElem_cons hlt, List.cons_prefix_cons]
    unfold matchAt
    dsimp only [load]
    split
    · rename_i hc
      rw [ih (m := ⟨m.byte, i :: m.touched⟩) h (i + 1) (by omega)]
      exact ⟨fun hp => ⟨hc.symm.trans hbyte, hp⟩, And.right⟩
    · rename_i hc
      exact iff_of_false Bool.false_ne_true fun hp => hc (hbyte.trans hp.1.symm)

theorem Memory.scan_byte (m : Memory) (n i : ℕ) : (m.scan n i).2.byte = m.byte := by
  fun_induction m.scan n i with
  | case1 m i hi m' hm => rw [← m.matchAt_byte i blankLine, hm]
  | case2 m i hi found m' hm hfound ih => rw [ih, ← m.matchAt_byte i blankLine, hm]
  | case3 => rfl

theorem Memory.scan_touched (m : Memory) (n i : ℕ) :
    ∀ j ∈ (m.scan n i).2.touched, j ∈ m.touched ∨ j < n := by
  fun_induction m.scan n i with
  | case1 m i hi m' hm =>
    intro j hj
    have hmatch := m.matchAt_touched i blankLine j
    rw [hm, blankLine_length] at hmatch
    exact (hmatch hj).imp_right fun h => by omega
  | case2 m i hi found m' hm hfound ih =>
    intro j hj
    have hmatch := m.matchAt_touched i blankLine j
    rw [hm, blankLine_length] at hmatch
    exact (ih j hj).elim (fun h => (hmatch h).imp_right fun h => by omega) Or.inr
  | case3 => exact fun j hj => Or.inl hj

theorem Memory.scan_eq {m : Memory} {b : Bytes} (h : m.Holds b) (i : ℕ) :
    (m.scan b.length i).1 = findBlankLine b i := by
  fun_induction m.scan b.length i with
  | case1 m i hi m' hm =>
    have hat := (matchAt_iff h i blankLine (by rw [blankLine_length]; omega)).mp
      (by rw [hm])
    have hlt : i < b.length := by omega
    rw [List.drop_eq_getElem_cons hlt] at hat
    rw [findBlankLine, List.drop_eq_getElem_cons hlt, strstr,
      if_pos (List.isPrefixOf_iff_prefix.mpr hat)]
    rfl
  | case2 m i hi found m' hm hfound ih =>
    have hat := matchAt_iff h i blankLine (by rw [blankLine_length]; omega)
    have hlt : i < b.length := by omega
    rw [hm, List.drop_eq_getElem_cons hlt] at hat
    have hbyte : m'.Holds b := by
      have := m.matchAt_byte i blankLine
      rw [hm] at this
      intro j c hc
      rw [this]
      exact h j c hc
    rw [ih hbyte, findBlankLine, findBlankLine, List.drop_eq_getElem_cons hlt, strstr, if_neg,
      Option.map_map]
    · refine congrFun (congrArg Option.map (funext fun r => ?_)) _
      show i + 1 + r.1.length + 4 = i + (r.1.length + 1) + 4
      omega
    · intro hp
      exact hfound (hat.mpr (List.isPrefixOf_iff_prefix.mp hp))
  | case3 m i hi =>
    have hnone : strstr blankLine (b.drop i) = none := by
      rw [strstr_none]
      intro hin
      have := hin.length_le
      rw [blankLine_length, List.length_drop] at this
      omega
    rw [findBlankLine, hnone]
    rfl

/-! ### The loop -/

def Memory.Within (m : Memory) (max : ℕ) : Prop := ∀ j ∈ m.touched, j ≤ max

theorem Memory.readInto_within {m : Memory} {max n : ℕ} (h : m.Within max) (hn : n ≤ max)
    (b : Bytes) : (m.readInto n (min (max - n) maxRead) b).Within max := by
  intro j hj
  rcases List.mem_append.mp hj with hj | hj
  · have := List.mem_range'_1.mp hj
    omega
  · exact h j hj

theorem Memory.scan_within {m : Memory} {max n : ℕ} (h : m.Within max) (hn : n ≤ max) (i : ℕ) :
    (m.scan n i).2.Within max := by
  intro j hj
  rcases m.scan_touched n i j hj with hj | hj
  · exact h j hj
  · omega

theorem Memory.store_within {m : Memory} {max p : ℕ} (h : m.Within max) (hp : p ≤ max) (c : Byte) :
    (m.store p c).Within max := by
  intro j hj
  rcases List.mem_cons.mp hj with rfl | hj
  · exact hp
  · exact h j hj

theorem Memory.scan_le {m : Memory} {n i p : ℕ} (h : (m.scan n i).1 = some p) : p ≤ n := by
  fun_induction m.scan n i with
  | case1 m i hi m' hm =>
    cases h
    omega
  | case2 m i hi found m' hm hfound ih => exact ih h
  | case3 => cases h

theorem Memory.scan_read {m : Memory} {buf : Bytes} (h : m.Holds buf) (want : ℕ) (b : Bytes)
    (i : ℕ) :
    ((m.readInto buf.length want b).scan (buf.length + b.length) i).1 =
        findBlankLine (buf ++ b) i ∧
      ((m.readInto buf.length want b).scan (buf.length + b.length) i).2.Holds (buf ++ b) := by
  have hholds := readInto_holds h want b
  rw [← List.length_append]
  constructor
  · exact scan_eq hholds i
  · intro j c hc
    rw [scan_byte]
    exact hholds j c hc

/-- The run on the memory returns what the run on the bytes does, and it stands in the buffer
with a NUL behind it. -/
def Reading.Agrees (r : Reading) (run : Option Bytes × Conn) : Prop :=
  r.result = run.1.map List.length ∧ r.conn = run.2 ∧
    ∀ b ∈ run.1, r.mem.Holds b ∧ r.mem.byte b.length = 0

theorem Reading.agrees_none (m : Memory) (t' : Conn) (reads : ℕ) :
    Reading.Agrees ⟨none, m, t', reads⟩ (none, t') := by
  refine ⟨rfl, rfl, ?_⟩
  intro b hb
  cases hb

theorem Reading.agrees_some {m : Memory} {buf : Bytes} (h : m.Holds buf) {p : ℕ}
    (hp : p ≤ buf.length) (t' : Conn) (reads : ℕ) :
    Reading.Agrees ⟨some p, m.store p 0, t', reads⟩ (some (buf.take p), t') := by
  have hlen : (buf.take p).length = p := by
    rw [List.length_take]
    omega
  refine ⟨congrArg some hlen.symm, rfl, ?_⟩
  intro b hb
  cases hb
  rw [hlen]
  exact ⟨m.store_holds h 0, m.store_byte p 0⟩

theorem Reading.agrees_full {m : Memory} {buf : Bytes} (h : m.Holds buf) (t' : Conn) (reads : ℕ) :
    Reading.Agrees ⟨some buf.length, m.store buf.length 0, t', reads⟩ (some buf, t') := by
  have := agrees_some h le_rfl t' reads
  rwa [List.take_length] at this

theorem readLoopMem_agrees {max : ℕ} {stream buf : Bytes} {sched : List ReadOutcome}
    {m : Memory} (h : m.Holds buf) (reads : ℕ) :
    (readLoopMem max stream sched m buf.length reads).Agrees (readLoop max stream sched buf) := by
  induction sched generalizing stream buf m reads with
  | nil =>
    unfold readLoop readLoopMem
    split
    · exact Reading.agrees_none ..
    · exact Reading.agrees_full h ..
  | cons o os ih =>
    unfold readLoop readLoopMem
    split
    · dsimp only
      cases hr : readOutcome o (min (max - buf.length) maxRead) stream with
      | none => exact Reading.agrees_none ..
      | some b =>
        obtain ⟨hfound, hholds⟩ :=
          m.scan_read h (min (max - buf.length) maxRead) b (buf.length - 3)
        dsimp only
        rw [← hfound]
        rcases hscan : (m.readInto buf.length (min (max - buf.length) maxRead) b).scan
          (buf.length + b.length) (buf.length - 3) with ⟨_ | p, m'⟩
        · rw [hscan] at hholds
          have hrest : (readLoopMem max (stream.drop b.length) os m' (buf ++ b).length
              (reads + 1)).Agrees (readLoop max (stream.drop b.length) os (buf ++ b)) :=
            ih hholds (reads + 1)
          rwa [List.length_append] at hrest
        · have hp := Memory.scan_le (congrArg Prod.fst hscan)
          rw [← List.length_append] at hp
          rw [hscan] at hholds
          exact Reading.agrees_some hholds hp ..
    · exact Reading.agrees_full h ..

theorem readLoopMem_within {max n reads : ℕ} {stream : Bytes} {sched : List ReadOutcome}
    {m : Memory} (hn : n ≤ max) (hreads : reads ≤ n) (hm : m.Within max) :
    (readLoopMem max stream sched m n reads).mem.Within max ∧
      (readLoopMem max stream sched m n reads).reads ≤ max := by
  induction sched generalizing stream m n reads with
  | nil =>
    unfold readLoopMem
    split
    · exact ⟨m.readInto_within hm hn [], hreads.trans hn⟩
    · exact ⟨m.store_within hm hn 0, hreads.trans hn⟩
  | cons o os ih =>
    unfold readLoopMem
    split
    · dsimp only
      cases hr : readOutcome o (min (max - n) maxRead) stream with
      | none => exact ⟨m.readInto_within hm hn [], hreads.trans hn⟩
      | some b =>
        have hlen := (readOutcome_length hr).1
        have hpos := List.length_pos_iff.mpr (readOutcome_taken hr).2
        have hmax : n + b.length ≤ max := by omega
        have hwithin := Memory.scan_within (m.readInto_within hm hn b) hmax (n - 3)
        dsimp only
        rcases hscan : (m.readInto n (min (max - n) maxRead) b).scan (n + b.length) (n - 3) with
          ⟨_ | p, m'⟩ <;> rw [hscan] at hwithin
        · exact ih hmax (by omega) hwithin
        · have hp := Memory.scan_le (congrArg Prod.fst hscan)
          refine ⟨m'.store_within hwithin (hp.trans hmax) 0, ?_⟩
          show reads + 1 ≤ max
          omega
    · exact ⟨m.store_within hm hn 0, hreads.trans hn⟩

/-! ### What `read_headers` leaves in its buffer -/

/-- Every way of cutting the stream gives the same block, which ends with its first blank
line; and with any reads at all, `read_headers` stays in its buffer and makes no more reads than
it has room for bytes. -/
theorem readHeadersMem_spec (max : ℕ) (byte : ℕ → Byte) :
    (∀ (stream : Bytes) (p : ℕ) (ks : List ℕ) (os : List ReadOutcome), FirstBlank stream p →
      p ≤ max - 1 → (∀ k ∈ ks, 0 < k) → p ≤ (ks.map (min · maxRead)).sum →
      (readHeadersMem ⟨stream, ks.map .data ++ os⟩ max byte).result = some p ∧
        (∀ i < p, stream[i]? =
          some ((readHeadersMem ⟨stream, ks.map .data ++ os⟩ max byte).mem.byte i)) ∧
        (readHeadersMem ⟨stream, ks.map .data ++ os⟩ max byte).mem.byte p = 0) ∧
    ∀ t : Conn, (∀ i ∈ (readHeadersMem t max byte).mem.touched, i ≤ max) ∧
      (readHeadersMem t max byte).reads ≤ max := by
  constructor
  · intro stream p ks os hp hmax hks hsum
    have hle := hp.le
    have hfour := hp.ends.length
    rw [List.length_take] at hfour
    obtain ⟨t', hread⟩ := readLoop_first hp (show p < max by omega) hks os (show 0 < p by omega)
      (by rwa [zero_add])
    have hempty : Memory.Holds ⟨byte, []⟩ [] := fun i c hc => by cases hc
    have hagrees : (readHeadersMem ⟨stream, ks.map .data ++ os⟩ max byte).Agrees
        (readLoop max stream (ks.map .data ++ os) []) := readLoopMem_agrees hempty 0
    rw [List.drop_zero, List.take_zero] at hread
    rw [hread] at hagrees
    obtain ⟨hresult, -, hmem⟩ := hagrees
    obtain ⟨hholds, hnul⟩ := hmem _ rfl
    have hlen : (stream.take p).length = p := by
      rw [List.length_take, min_eq_left hle]
    rw [hlen] at hnul
    refine ⟨hresult.trans (congrArg some hlen), ?_, hnul⟩
    intro i hi
    have hget := List.getElem?_eq_getElem (show i < stream.length by omega)
    have hbyte := hholds i stream[i] (by rw [List.getElem?_take_of_lt hi, hget])
    exact hget.trans (congrArg some hbyte.symm)
  · intro t
    exact readLoopMem_within (Nat.zero_le _) le_rfl fun j hj => by cases hj

theorem readHeadersMem_split :
    (readHeadersMem ⟨ascii "GET / HTTP/1.1\r\n\r\nGET", [15, 1, 5].map .data ++ []⟩ 8191
      fun _ => 1).result = some 18 := by
  have hfirst : FirstBlank (ascii "GET / HTTP/1.1\r\n\r\nGET") 18 := by
    unfold FirstBlank
    decide
  exact ((readHeadersMem_spec 8191 fun _ => 1).1 _ 18 [15, 1, 5] [] hfirst (by decide)
    (by decide) (by decide)).1

end LocalMarks.Http

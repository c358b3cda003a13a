import LocalMarks.Http.RawMemory
import LocalMarks.Http.RequestLine

/-!
# Parsing in the raw buffer

`http_parse_request` does not copy its lines: it writes a NUL behind each piece of text where it
stands. Here the pieces are indices into the buffer, and none of the writes for one line reaches
the next one.
-/

namespace LocalMarks.Http
open LocalMarks.Lib

/-! ### Strings in a buffer -/

def cstrAt (buf : Bytes) (i : ℕ) : Bytes := cstr (buf.drop i)

def strchrAt (buf : Bytes) (i : ℕ) (c : Byte) : Option ℕ :=
  (strchr c (cstrAt buf i)).map fun r => i + r.1.length

def strstrAt (buf : Bytes) (i : ℕ) (pat : Bytes) : Option ℕ :=
  (strstr pat (cstrAt buf i)).map fun r => i + r.1.length

/-- `str_trim`: the new start, and the buffer with a NUL behind the last character that is no
blank. -/
def strTrim (buf : Bytes) (s : ℕ) : ℕ × Bytes :=
  let start := s + ((cstrAt buf s).takeWhile isSpace).length
  let stop := start + ((cstrAt buf start).reverse.dropWhile isSpace).length
  (start, buf.set stop 0)

/-! ### `http_parse_request` -/

/-- The query, and the buffer with a NUL in the place of the question mark. -/
def cutQuery (buf : Bytes) (uri : ℕ) : Bytes × Bytes :=
  match strchrAt buf uri 63 with
  | none => ([], buf)
  | some q => (cstrAt (buf.set q 0) (q + 1), buf.set q 0)

/-- `parse_request_line`, with the buffer as it leaves it. -/
def parseRequestLineAt (buf : Bytes) (line : ℕ) (r : HttpRequest) : Option HttpRequest × Bytes :=
  match strchrAt buf line 32 with
  | none => (none, buf)
  | some sp1 =>
    let buf := buf.set sp1 0
    let name := cstrAt buf line
    let uri := sp1 + 1
    match strchrAt buf uri 32 with
    | none => (none, buf)
    | some sp2 =>
      let buf := buf.set sp2 0
      let version := cstrAt buf (sp2 + 1)
      let (query, buf) := cutQuery buf uri
      let r := { r with
        method := methodOf name
        methodStr := fieldOf 16 methodSize_pos ((name.take 15).map upperByte)
        version := fieldOf 16 methodSize_pos ((version.take 15).takeWhile (· != 13))
        query := fieldOf 2048 querySize_pos query
        path := fieldOf 4096 pathSize_pos (httpUrlDecode 4096 (cstrAt buf uri)) }
      if (strstr (ascii "..") r.path.bytes).isSome then (none, buf) else (some r, buf)

theorem hostSize_pos : 0 < 256 := Nat.succ_pos _
theorem authSize_pos : 0 < 512 := Nat.succ_pos _
theorem connectionSize_pos : 0 < 32 := Nat.succ_pos _
theorem ifNoneMatchSize_pos : 0 < 128 := Nat.succ_pos _
theorem ifModifiedSinceSize_pos : 0 < 64 := Nat.succ_pos _

/-- What `parse_header` does with a name and a value. -/
def storeHeader (lname value : Bytes) (r : HttpRequest) : HttpRequest :=
  if lname = ascii "host" then { r with host := fieldOf 256 hostSize_pos value }
  else if lname = ascii "authorization" then { r with auth := fieldOf 512 authSize_pos value }
  else if lname = ascii "connection" then
    { r with connection := fieldOf 32 connectionSize_pos value }
  else if lname = ascii "if-none-match" then
    { r with ifNoneMatch := fieldOf 128 ifNoneMatchSize_pos value }
  else if lname = ascii "if-modified-since" then
    { r with ifModifiedSince := fieldOf 64 ifModifiedSinceSize_pos value }
  else if lname = ascii "range" then
    if (ascii "bytes=").isPrefixOf value then parseRange (value.drop 6) r else r
  else r

/-- `parse_header`, with the buffer as it leaves it. -/
def parseHeaderAt (buf : Bytes) (line : ℕ) (r : HttpRequest) : HttpRequest × Bytes :=
  match strchrAt buf line 58 with
  | none => (r, buf)
  | some colon =>
    let buf := buf.set colon 0
    let (name, buf) := strTrim buf line
    let (value, buf) := strTrim buf (colon + 1)
    (storeHeader (((cstrAt buf name).take 255).map lowerByte) (cstrAt buf value) r, buf)

/-- The end of the line, which becomes a NUL, and the start of the next one. -/
def cutLine (buf : Bytes) (line : ℕ) : Bytes × ℕ :=
  match strstrAt buf line crlf with
  | some next => (buf.set next 0, next + 2)
  | none => (buf, line + (cstrAt buf line).length)

/-- The loop over the lines, with a bound on their number. -/
def parseLoopAt : ℕ → Bytes → ℕ → Bool → HttpRequest → Option HttpRequest
  | 0, _, _, _, r => some r
  | fuel + 1, buf, line, first, r =>
    if cstrAt buf line = [] then some r
    else
      let (buf, next) := cutLine buf line
      if first then
        match parseRequestLineAt buf line r with
        | (none, _) => none
        | (some r, buf) => parseLoopAt fuel buf next false r
      else if cstrAt buf line = [] then parseLoopAt fuel buf next false r
      else
        let (r, buf) := parseHeaderAt buf line r
        parseLoopAt fuel buf next false r

/-! ### One string at its place -/

theorem cstrAt_here {s : Bytes} (hs : 0 ∉ s) (pre tail : Bytes) :
    cstrAt (pre ++ (s ++ 0 :: tail)) pre.length = s := by
  rw [cstrAt, List.drop_left, cstr_append_nul, cstr_of_nul_free hs]

theorem drop_here (pre s : Bytes) (k : ℕ) : (pre ++ s).drop (pre.length + k) = s.drop k := by
  rw [← List.drop_drop, List.drop_left]

theorem cstrAt_inside {a b : Bytes} (hb : 0 ∉ b) (pre tail : Bytes) :
    cstrAt (pre ++ ((a ++ b) ++ 0 :: tail)) (pre.length + a.length) = b := by
  rw [cstrAt, drop_here, List.append_assoc, List.drop_left, cstr_append_nul, cstr_of_nul_free hb]

theorem set_here {s : Bytes} {k : ℕ} (hk : k ≤ s.length) (pre tail : Bytes) :
    (pre ++ (s ++ 0 :: tail)).set (pre.length + k) 0 = pre ++ (s.set k 0 ++ 0 :: tail) := by
  rw [List.set_append_right _ _ (by omega), Nat.add_sub_cancel_left]
  rcases Nat.lt_or_ge k s.length with hlt | hge
  · rw [List.set_append_left _ _ hlt]
  · rw [List.set_append_right _ _ hge, List.set_eq_of_length_le hge, Nat.sub_eq_zero_of_le hk]
    rfl

theorem set_middle (a b : Bytes) (c : Byte) : (a ++ c :: b).set a.length 0 = a ++ 0 :: b := by
  rw [List.set_append_right _ _ le_rfl, Nat.sub_self]
  rfl

theorem strchrAt_here {s : Bytes} (hs : 0 ∉ s) (pre tail : Bytes) (c : Byte) :
    strchrAt (pre ++ (s ++ 0 :: tail)) pre.length c =
      (strchr c s).map fun r => pre.length + r.1.length := by
  rw [strchrAt, cstrAt_here hs]

theorem cut_here (pre a b tail : Bytes) (c : Byte) :
    (pre ++ ((a ++ c :: b) ++ 0 :: tail)).set (pre.length + a.length) 0 =
      pre ++ (a ++ 0 :: (b ++ 0 :: tail)) := by
  rw [set_here (by rw [List.length_append]; omega), set_middle, List.append_assoc]
  rfl

theorem behind_here (pre a s : Bytes) :
    pre ++ (a ++ 0 :: s) = (pre ++ a ++ [0]) ++ s ∧
      (pre ++ a ++ [0]).length = pre.length + a.length + 1 := by
  constructor
  · simp only [List.append_assoc, List.singleton_append]
  · simp only [List.length_append, List.length_singleton]

theorem trim_cut (s : Bytes) :
    ∃ back, s = s.takeWhile isSpace ++ (trim s ++ back) ∧ s.dropWhile isSpace = trim s ++ back := by
  have hpre : trim s <+: s.dropWhile isSpace := by
    rw [trim, ← List.reverse_suffix, List.reverse_reverse]
    exact List.dropWhile_suffix _
  obtain ⟨back, hback⟩ := hpre
  refine ⟨back, ?_, hback.symm⟩
  rw [hback, List.takeWhile_append_dropWhile]

theorem strTrim_here {s : Bytes} (hs : 0 ∉ s) (pre tail : Bytes) :
    ∃ k s', s'.length = s.length ∧
      strTrim (pre ++ (s ++ 0 :: tail)) pre.length = (pre.length + k, pre ++ (s' ++ 0 :: tail)) ∧
      ∀ tail', cstr ((s' ++ 0 :: tail').drop k) = trim s := by
  obtain ⟨back, hcut, hdrop⟩ := trim_cut s
  have htrim : 0 ∉ trim s := fun h => hs ((trim_part s).subset h)
  have hlen : ((s.dropWhile isSpace).reverse.dropWhile isSpace).length = (trim s).length :=
    List.length_reverse.symm
  have hrest : cstrAt (pre ++ (s ++ 0 :: tail)) (pre.length + (s.takeWhile isSpace).length) =
      s.dropWhile isSpace := by
    have hnul : 0 ∉ s.dropWhile isSpace := fun h => hs ((List.dropWhile_suffix _).subset h)
    have hin := cstrAt_inside (a := s.takeWhile isSpace) hnul pre tail
    rwa [List.takeWhile_append_dropWhile] at hin
  have hstep : strTrim (pre ++ (s ++ 0 :: tail)) pre.length =
      (pre.length + (s.takeWhile isSpace).length, (pre ++ (s ++ 0 :: tail)).set
        (pre.length + (s.takeWhile isSpace).length + (trim s).length) 0) := by
    unfold strTrim
    dsimp only
    rw [cstrAt_here hs, hrest, hlen]
  generalize s.takeWhile isSpace = front at *
  generalize trim s = t at *
  have hle : front.length + t.length ≤ s.length := by
    rw [hcut, List.length_append, List.length_append]
    omega
  refine ⟨front.length, s.set (front.length + t.length) 0, List.length_set, ?_, ?_⟩
  · rw [hstep, Nat.add_assoc, set_here hle]
  · intro tail'
    rw [hcut]
    cases back with
    | nil =>
      rw [List.append_nil, ← List.length_append, List.set_eq_of_length_le le_rfl,
        List.append_assoc, List.drop_left, cstr_append_nul, cstr_of_nul_free htrim]
    | cons c cs =>
      rw [← List.append_assoc, ← List.length_append, set_middle, List.append_assoc,
        List.append_assoc, List.drop_left]
      exact (cstr_append_nul t (cs ++ 0 :: tail')).trans (cstr_of_nul_free htrim)

/-! ### One line at its place -/

theorem parseHeader_eq {line before after : Bytes} (h : strchr 58 line = some (before, after))
    (r : HttpRequest) :
    parseHeader line r = storeHeader (((trim before).take 255).map lowerByte) (trim after) r := by
  unfold parseHeader
  rw [h]
  rfl

/-- A header line is parsed as the text that it is, and nothing outside of it is written. -/
theorem parseHeaderAt_here {line : Bytes} (hline : 0 ∉ line) (pre tail : Bytes)
    (r : HttpRequest) :
    ∃ line', line'.length = line.length ∧
      parseHeaderAt (pre ++ (line ++ 0 :: tail)) pre.length r =
        (parseHeader line r, pre ++ (line' ++ 0 :: tail)) := by
  cases hcolon : strchr 58 line with
  | none =>
    refine ⟨line, rfl, ?_⟩
    simp only [parseHeaderAt, parseHeader, strchrAt_here hline, hcolon, Option.map_none]
  | some parts =>
    obtain ⟨before, after⟩ := parts
    rw [parseHeader_eq hcolon]
    obtain ⟨rfl, -⟩ := strchr_some.mp hcolon
    have hbefore : 0 ∉ before := fun h => hline (List.mem_append_left _ h)
    have hafter : 0 ∉ after := fun h => hline (List.mem_append_right _ (List.mem_cons_of_mem _ h))
    obtain ⟨j, name', hname_len, hname, hname_text⟩ :=
      strTrim_here hbefore pre (after ++ 0 :: tail)
    obtain ⟨hbehind, hbehind_len⟩ := behind_here pre name' (after ++ 0 :: tail)
    obtain ⟨k, value', hvalue_len, hvalue, hvalue_text⟩ :=
      strTrim_here hafter (pre ++ name' ++ [0]) tail
    rw [← hbehind, hbehind_len, hname_len, ← (behind_here pre name' (value' ++ 0 :: tail)).1]
      at hvalue
    refine ⟨name' ++ 0 :: value', ?_, ?_⟩
    · simp only [List.length_append, List.length_cons, hname_len, hvalue_len]
    · have hn : cstrAt (pre ++ (name' ++ 0 :: (value' ++ 0 :: tail))) (pre.length + j) =
          trim before := by
        rw [cstrAt, drop_here]
        exact hname_text _
      have hv : cstrAt (pre ++ (name' ++ 0 :: (value' ++ 0 :: tail)))
          (pre.length + before.length + 1 + k) = trim after := by
        rw [(behind_here pre name' (value' ++ 0 :: tail)).1, cstrAt, ← hname_len,
          ← (behind_here pre name' (value' ++ 0 :: tail)).2, drop_here]
        exact hvalue_text tail
      unfold parseHeaderAt
      rw [strchrAt_here hline, hcolon, Option.map_some]
      dsimp only
      rw [cut_here, hname]
      dsimp only
      rw [hvalue]
      dsimp only
      rw [hn, hv, List.append_assoc]
      rfl

theorem cutQuery_here {uri : Bytes} (huri : 0 ∉ uri) (pre tail : Bytes) :
    ∃ uri', uri'.length = uri.length ∧
      cutQuery (pre ++ (uri ++ 0 :: tail)) pre.length =
        (uriQuery uri, pre ++ (uri' ++ 0 :: tail)) ∧
      cstrAt (pre ++ (uri' ++ 0 :: tail)) pre.length = uriPath uri := by
  unfold cutQuery uriQuery uriPath
  rw [strchrAt_here huri]
  cases hq : strchr 63 uri with
  | none => exact ⟨uri, rfl, rfl, cstrAt_here huri pre tail⟩
  | some parts =>
    obtain ⟨path, query⟩ := parts
    obtain ⟨rfl, -⟩ := strchr_some.mp hq
    have hpath : 0 ∉ path := fun h => huri (List.mem_append_left _ h)
    have hquery : 0 ∉ query := fun h => huri (List.mem_append_right _ (List.mem_cons_of_mem _ h))
    obtain ⟨hbehind, hlen⟩ := behind_here pre path (query ++ 0 :: tail)
    have htext : cstrAt (pre ++ (path ++ 0 :: (query ++ 0 :: tail)))
        (pre.length + path.length + 1) = query := by
      rw [hbehind, ← hlen, cstrAt_here hquery]
    have hwhole : pre ++ (path ++ 0 :: (query ++ 0 :: tail)) =
        pre ++ ((path ++ 0 :: query) ++ 0 :: tail) := by
      rw [List.append_assoc]
      rfl
    refine ⟨path ++ 0 :: query, by simp, ?_, ?_⟩
    · rw [Option.map_some]
      dsimp only
      rw [cut_here, htext, hwhole]
      rfl
    · rw [← hwhole]
      exact cstrAt_here hpath pre _

theorem parseRequestLineAt_here {line : Bytes} (hline : 0 ∉ line) (pre tail : Bytes)
    (r : HttpRequest) :
    ∃ line', line'.length = line.length ∧
      parseRequestLineAt (pre ++ (line ++ 0 :: tail)) pre.length r =
        (parseRequestLine line r, pre ++ (line' ++ 0 :: tail)) := by
  rw [parseRequestLine_eq]
  cases hsp1 : strchr 32 line with
  | none =>
    refine ⟨line, rfl, ?_⟩
    unfold parseRequestLineAt lineParts
    rw [strchrAt_here hline, hsp1]
    rfl
  | some parts =>
    obtain ⟨name, rest⟩ := parts
    obtain ⟨rfl, hsp1_not⟩ := strchr_some.mp hsp1
    have hname : 0 ∉ name := fun h => hline (List.mem_append_left _ h)
    have hrest : 0 ∉ rest := fun h => hline (List.mem_append_right _ (List.mem_cons_of_mem _ h))
    have hfirst : strchrAt (pre ++ ((name ++ 32 :: rest) ++ 0 :: tail)) pre.length 32 =
        some (pre.length + name.length) := by
      rw [strchrAt_here hline, hsp1, Option.map_some]
    obtain ⟨hbehind, hlen⟩ := behind_here pre name (rest ++ 0 :: tail)
    have hsecond : strchrAt (pre ++ (name ++ 0 :: (rest ++ 0 :: tail)))
        (pre.length + name.length + 1) 32 =
          (strchr 32 rest).map fun r => pre.length + name.length + 1 + r.1.length := by
      rw [hbehind, ← hlen, strchrAt_here hrest]
    cases hsp2 : strchr 32 rest with
    | none =>
      refine ⟨name ++ 0 :: rest, by simp, ?_⟩
      unfold parseRequestLineAt lineParts
      rw [hfirst]
      dsimp only
      rw [cut_here, hsecond, hsp1, hsp2, Option.bind_some, List.append_assoc]
      dsimp only
      rw [hsp2]
      rfl
    | some parts =>
      obtain ⟨uri, version⟩ := parts
      obtain ⟨rfl, hsp2_not⟩ := strchr_some.mp hsp2
      have huri : 0 ∉ uri := fun h => hrest (List.mem_append_left _ h)
      have hversion : 0 ∉ version :=
        fun h => hrest (List.mem_append_right _ (List.mem_cons_of_mem _ h))
      have hparts : lineParts (name ++ 32 :: (uri ++ 32 :: version)) = some ⟨name, uri, version⟩ :=
        lineParts_some.mpr ⟨rfl, hsp1_not, hsp2_not⟩
      -- the URI and the version behind the two NULs
      obtain ⟨uri', huri_len, hcut, hpath⟩ :=
        cutQuery_here huri (pre ++ name ++ [0]) (version ++ 0 :: tail)
      have hset : (pre ++ (name ++ 0 :: ((uri ++ 32 :: version) ++ 0 :: tail))).set
          (pre.length + name.length + 1 + uri.length) 0 =
            (pre ++ name ++ [0]) ++ (uri ++ 0 :: (version ++ 0 :: tail)) := by
        rw [hbehind, ← hlen, cut_here]
      have hv : cstrAt ((pre ++ name ++ [0]) ++ (uri ++ 0 :: (version ++ 0 :: tail)))
          (pre.length + name.length + 1 + uri.length + 1) = version := by
        obtain ⟨hbehind2, hlen2⟩ := behind_here (pre ++ name ++ [0]) uri (version ++ 0 :: tail)
        rw [← hlen, ← hlen2, hbehind2, cstrAt_here hversion]
      have hn : cstrAt (pre ++ (name ++ 0 :: ((uri ++ 32 :: version) ++ 0 :: tail))) pre.length =
          name := cstrAt_here hname pre _
      rw [hlen] at hcut hpath
      refine ⟨name ++ 0 :: (uri' ++ 0 :: version), by simp [huri_len], ?_⟩
      unfold parseRequestLineAt
      rw [hfirst]
      dsimp only
      rw [cut_here, hsecond, hsp2, Option.map_some]
      dsimp only
      rw [hset, hcut]
      dsimp only
      rw [hn, hv, hpath, hparts, Option.bind_some]
      have hbuf : (pre ++ name ++ [0]) ++ (uri' ++ 0 :: (version ++ 0 :: tail)) =
          pre ++ ((name ++ 0 :: (uri' ++ 0 :: version)) ++ 0 :: tail) := by
        simp only [List.append_assoc, List.cons_append, List.nil_append]
      rw [hbuf]
      show (if (strstr _ (r.withParts ⟨name, uri, version⟩).path.bytes).isSome = true then _
        else _) = _
      split <;> rfl

/-! ### The loop -/

theorem splitLines_found {s line rest : Bytes} (h : strstr crlf s = some (line, rest)) :
    s = line ++ crlf ++ rest ∧ splitLines s = line :: splitLines rest := by
  have hs := strstr_some h
  refine ⟨hs, ?_⟩
  have hline : ¬ crlf <:+: line := by
    intro hinfix
    obtain ⟨front, back, hin⟩ := hinfix
    have hlt : front.length < line.length := by
      rw [← hin]
      simp [crlf]
    apply strstr_first h hlt
    rw [hs, ← hin]
    simp only [List.append_assoc, List.drop_left]
    exact List.prefix_append _ _
  rw [hs, splitLines_line hline]

theorem splitLines_last {s : Bytes} (h : strstr crlf s = none) (hs : s ≠ []) :
    splitLines s = [s] := by
  induction s with
  | nil => exact absurd rfl hs
  | cons c cs ih =>
    have hno := strstr_none.mp h
    have hcs : ¬ crlf <:+: cs := fun hin => hno (hin.trans (List.suffix_cons c cs).isInfix)
    cases cs with
    | nil =>
      rw [splitLines, splitLines]
      intro rest hc hrest
      cases hrest
    | cons d ds =>
      have hrest := ih (strstr_none.mpr hcs) (List.cons_ne_nil _ _)
      apply splitLines_cons ?_ hrest
      intro hc hd
      rw [hc, show d = 10 from Option.some.inj hd] at hno
      exact hno (List.prefix_append [13, 10] ds).isInfix

theorem cutLine_here {s : Bytes} (hs : 0 ∉ s) (hne : s ≠ []) (pre tail : Bytes) :
    ∃ line rest tail' next, splitLines s = line :: splitLines rest ∧ 0 ∉ line ∧ 0 ∉ rest ∧
      rest.length < s.length ∧
      cutLine (pre ++ (s ++ 0 :: tail)) pre.length = (pre ++ (line ++ 0 :: tail'), next) ∧
      ∀ line' : Bytes, line'.length = line.length → ∃ pre' : Bytes, pre'.length = next ∧
        pre ++ (line' ++ 0 :: tail') = pre' ++ (rest ++ 0 :: tail) := by
  cases hcrlf : strstr crlf s with
  | none =>
    refine ⟨s, [], tail, pre.length + s.length, splitLines_last hcrlf hne, hs, List.not_mem_nil,
      List.length_pos_iff.mpr hne, ?_, ?_⟩
    · unfold cutLine strstrAt
      rw [cstrAt_here hs, hcrlf]
      rfl
    · intro line' hlen
      refine ⟨pre ++ line', by rw [List.length_append, hlen], ?_⟩
      rw [List.append_assoc]
      rfl
  | some parts =>
    obtain ⟨line, rest⟩ := parts
    obtain ⟨rfl, hsplit⟩ := splitLines_found hcrlf
    refine ⟨line, rest, 10 :: (rest ++ 0 :: tail), pre.length + line.length + 2, hsplit, ?_, ?_, ?_,
      ?_, ?_⟩
    · exact fun h => hs (List.mem_append_left _ (List.mem_append_left _ h))
    · exact fun h => hs (List.mem_append_right _ h)
    · simp only [List.length_append, crlf, List.length_cons, List.length_nil]
      omega
    · have hset : (line ++ crlf ++ rest).set line.length 0 = line ++ 0 :: 10 :: rest := by
        rw [List.append_assoc]
        exact set_middle line (10 :: rest) 13
      unfold cutLine strstrAt
      rw [cstrAt_here hs, hcrlf, Option.map_some]
      dsimp only
      rw [set_here (by simp), hset, List.append_assoc]
      rfl
    · intro line' hlen
      refine ⟨pre ++ line' ++ [0, 10], ?_, ?_⟩
      · simp only [List.length_append, List.length_cons, List.length_nil, hlen]
      · simp only [List.append_assoc, List.cons_append, List.nil_append]

theorem parseLoopAt_headers {fuel : ℕ} {s : Bytes} (hs : 0 ∉ s) (hfuel : s.length < fuel)
    (pre tail : Bytes) (r : HttpRequest) :
    parseLoopAt fuel (pre ++ (s ++ 0 :: tail)) pre.length false r =
      some ((splitLines s).foldl parseHeaderLine r) := by
  induction fuel generalizing s pre r with
  | zero => cases hfuel
  | succ fuel ih =>
    unfold parseLoopAt
    rw [cstrAt_here hs]
    by_cases hnil : s = []
    · rw [if_pos hnil, hnil]
      rfl
    · obtain ⟨line, rest, tail', next, hsplit, hline, hrest, hless, hcut, hnext⟩ :=
        cutLine_here hs hnil pre tail
      rw [if_neg hnil, hcut, hsplit, List.foldl_cons]
      dsimp only
      rw [if_neg Bool.false_ne_true, cstrAt_here hline, parseHeaderLine]
      by_cases hempty : line = []
      · obtain ⟨pre', hlen, hbuf⟩ := hnext line rfl
        rw [if_pos hempty, if_pos hempty, hbuf, ← hlen]
        exact ih hrest (by omega) pre' r
      · obtain ⟨line', hline_len, hparse⟩ := parseHeaderAt_here hline pre tail' r
        obtain ⟨pre', hlen, hbuf⟩ := hnext line' hline_len
        rw [if_neg hempty, if_neg hempty, hparse]
        dsimp only
        rw [hbuf, ← hlen]
        exact ih hrest (by omega) pre' (parseHeader line r)

theorem cstr_front (block junk : Bytes) :
    ∃ tail, block ++ 0 :: junk = cstr block ++ 0 :: tail := by
  induction block with
  | nil => exact ⟨junk, rfl⟩
  | cons c cs ih =>
    by_cases hc : c = 0
    · rw [hc]
      exact ⟨cs ++ 0 :: junk, rfl⟩
    · obtain ⟨tail, htail⟩ := ih
      have hcstr : cstr (c :: cs) = c :: cstr cs := List.takeWhile_cons_of_pos (by simpa using hc)
      exact ⟨tail, by rw [hcstr, List.cons_append, htail]; rfl⟩

/-- Parsing in place gives what parsing the text gives, whatever stands behind the block. -/
theorem parseLoopAt_eq (block junk : Bytes) :
    parseLoopAt (block.length + 1) (block ++ 0 :: junk) 0 true (emptyRequest block.length) =
      parseBlock block := by
  obtain ⟨tail, htail⟩ := cstr_front block junk
  have hs := cstr_nul_free block
  have hle := (cstr_initial block).length_le
  have hhere := cstrAt_here hs [] tail
  generalize hn : emptyRequest block.length = r
  unfold parseBlock parseLoopAt
  rw [hn, htail]
  rw [List.nil_append, List.length_nil] at hhere
  rw [hhere]
  by_cases hnil : cstr block = []
  · rw [if_pos hnil, hnil]
    rfl
  · obtain ⟨first, rest, tail', next, hsplit, hfirst, hrest, hless, hcut, hnext⟩ :=
      cutLine_here hs hnil [] tail
    obtain ⟨first', hfirst_len, hparse⟩ := parseRequestLineAt_here hfirst [] tail' r
    obtain ⟨pre', hlen, hbuf⟩ := hnext first' hfirst_len
    simp only [List.nil_append, List.length_nil] at hcut hparse hbuf
    rw [if_neg hnil, hcut, hsplit]
    dsimp only
    rw [if_pos rfl, hparse]
    cases parseRequestLine first r with
    | none => rfl
    | some r =>
      dsimp only
      rw [hbuf, ← hlen]
      exact parseLoopAt_headers hrest (by omega) pre' tail r

/-! ### Reading and parsing -/

/-- `http_parse_request` on a raw buffer with the bytes that `malloc` has left in it. -/
def httpParseRequestMem (t : Conn) (mallocOk : Bool) (byte : ℕ → Byte) : ParseResult :=
  if mallocOk then
    let r := readHeadersMem t (rawBufSize - 1) byte
    match r.result with
    | none => .readFailed r.conn
    | some len =>
      if len = 0 then .readFailed r.conn
      else
        let raw := (List.range rawBufSize).map r.mem.byte
        match parseLoopAt (len + 1) raw 0 true (emptyRequest len) with
        | none => .badLine (raw.take len) r.conn
        | some req => .ok (raw.take len) req r.conn
  else .noMemory

theorem readLoop_length {max : ℕ} {stream buf b : Bytes} {sched : List ReadOutcome} {t' : Conn}
    (hbuf : buf.length ≤ max) (h : readLoop max stream sched buf = (some b, t')) :
    b.length ≤ max := by
  have hroom : ∀ {o stream buf c}, readOutcome o (min (max - buf.length) maxRead) stream = some c →
      buf.length ≤ max → (buf ++ c).length ≤ max := by
    intro o stream buf c hread hbuf
    have hc := (readOutcome_length hread).1
    rw [List.length_append]
    omega
  have hreturned := readLoop_returned h
  clear h
  induction hreturned with
  | full _ => exact hbuf
  | @found _ _ _ _ _ n _ hread _ =>
    exact (List.take_prefix n _).length_le.trans (hroom hread hbuf)
  | more _ hread _ _ ih => exact ih (hroom hread hbuf)

theorem Memory.raw_eq {m : Memory} {block : Bytes} {n : ℕ} (h : m.Holds block)
    (hnul : m.byte block.length = 0) (hn : block.length < n) :
    ∃ junk, (List.range n).map m.byte = block ++ 0 :: junk := by
  have hlen : ((List.range n).map m.byte).length = n := by
    rw [List.length_map, List.length_range]
  have htake : ((List.range n).map m.byte).take block.length = block := by
    apply List.ext_getElem
    · rw [List.length_take, hlen, min_eq_left hn.le]
    · intro i hi hib
      rw [List.getElem_take, List.getElem_map, List.getElem_range]
      exact h i _ (List.getElem?_eq_getElem hib)
  have hdrop := List.drop_eq_getElem_cons (show block.length < ((List.range n).map m.byte).length by
    rw [hlen]; exact hn)
  rw [List.getElem_map, List.getElem_range, hnul] at hdrop
  refine ⟨((List.range n).map m.byte).drop (block.length + 1), ?_⟩
  nth_rewrite 1 [← List.take_append_drop block.length ((List.range n).map m.byte)]
  rw [htake, hdrop]

theorem httpParseRequestMem_eq (t : Conn) (mallocOk : Bool) (byte : ℕ → Byte) :
    httpParseRequestMem t mallocOk byte = httpParseRequest t mallocOk := by
  have hempty : Memory.Holds ⟨byte, []⟩ [] := fun i c hc => by cases hc
  have hagrees : (readHeadersMem t (rawBufSize - 1) byte).Agrees
      (readHeaders t (rawBufSize - 1)) := readLoopMem_agrees hempty 0
  cases mallocOk with
  | false => rfl
  | true =>
    obtain ⟨hresult, hconn, hmem⟩ := hagrees
    rcases hread : readHeaders t (rawBufSize - 1) with ⟨_ | block, t'⟩
    · rw [hread] at hresult hconn
      unfold httpParseRequestMem httpParseRequest
      simp only [if_true, hresult, hconn, hread, Option.map_none]
    · rw [hread] at hresult hconn hmem
      obtain ⟨hholds, hnul⟩ := hmem block rfl
      have hlen : block.length < rawBufSize :=
        Nat.lt_of_le_of_lt (readLoop_length (Nat.zero_le _) hread) (by decide)
      obtain ⟨junk, hraw⟩ := Memory.raw_eq hholds hnul hlen
      by_cases hnil : block = []
      · unfold httpParseRequestMem httpParseRequest
        simp only [if_true, hresult, hconn, hread, Option.map_some, hnil, List.length_nil]
      · rw [httpParseRequest_read hread hnil]
        unfold httpParseRequestMem blockResult
        have hpos : block.length ≠ 0 := fun h => hnil (List.length_eq_zero_iff.mp h)
        cases hparse : parseBlock block with
        | none =>
          simp only [if_true, hresult, hconn, Option.map_some, if_neg hpos, hraw, parseLoopAt_eq,
            hparse, List.take_left, Option.elim_none]
        | some req =>
          simp only [if_true, hresult, hconn, Option.map_some, if_neg hpos, hraw, parseLoopAt_eq,
            hparse, List.take_left, Option.elim_some]

end LocalMarks.Http

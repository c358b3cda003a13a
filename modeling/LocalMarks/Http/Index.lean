import LocalMarks.Http.Ranges
import LocalMarks.Http.RequestLine
import LocalMarks.Lib.Strtoll

/-!
# The index in a path (api.c)

Which texts below `/bookmarks/` and `/api/databases/` select a database.
-/

namespace LocalMarks.Http
open LocalMarks.Lib

/-- The two endpoints that take an index. -/
inductive Endpoint where
  | bookmarks
  | databases
  deriving DecidableEq

def Endpoint.path : Endpoint → Bytes → Bytes
  | .bookmarks, s => ascii "/bookmarks/" ++ (s ++ ascii ".json")
  | .databases, s => ascii "/api/databases/" ++ s

/-- The detail of the error for a database whose text is missing. -/
def Endpoint.failure : Endpoint → Bytes
  | .bookmarks => ascii "Cannot load bookmark database"
  | .databases => ascii "Out of memory"

/-- The answer when the texts of the databases are the given ones. -/
def Endpoint.answer (e : Endpoint) (svc : Services) (texts : ℤ → Option Blob) (firstDb : Bool)
    (req : HttpRequest) (keepAlive : Bool) : Option (Option Response) :=
  match e with
  | .bookmarks => apiHandleRequest { svc with bookmarkCopy := texts } firstDb req keepAlive
  | .databases => apiHandleRequest { svc with databaseJson := texts } firstDb req keepAlive

/-- Database `i` is served: whatever the texts of the databases are, the answer is this one's,
or the error for its missing text. -/
def Endpoint.Serves (e : Endpoint) (svc : Services) (firstDb : Bool) (req : HttpRequest)
    (keepAlive : Bool) (i : ℤ) : Prop :=
  ∀ texts, e.answer svc texts firstDb req keepAlive =
    some (jsonOrError svc (texts i) e.failure keepAlive)

/-- A database is served exactly when the text is its index in decimal digits. -/
def Endpoint.Exact (e : Endpoint) (svc : Services) (firstDb : Bool) (req : HttpRequest)
    (keepAlive : Bool) (s : Bytes) : Prop :=
  ∀ i, e.Serves svc firstDb req keepAlive i ↔
    Digits s ∧ (digitsValue s : ℤ) = i ∧ i < svc.dbMetaCount

/-- The text does not fit in `idx_str`, which only one of the endpoints has. -/
def Endpoint.TooLong (e : Endpoint) (s : Bytes) : Prop := e = .bookmarks ∧ 32 ≤ s.length

instance (e : Endpoint) (s : Bytes) : Decidable (e.TooLong s) :=
  inferInstanceAs (Decidable (_ ∧ _))

/-! ### What the text denotes -/

/-- An index in the range of an `int` is not touched by the saturation of `strtol`. -/
theorem databaseIndex_some {svc : Services} (hcount : svc.dbMetaCount < 2 ^ 31) {s : Bytes}
    (hs : s ≠ []) {i : ℤ} :
    databaseIndex svc s = some i ↔ WholeNumber s i ∧ 0 ≤ i ∧ i < svc.dbMetaCount := by
  rw [← strtoll_whole hs]
  cases hz : strtoll s with
  | mk z rest =>
    unfold databaseIndex strtol int64Min int64Max
    simp only [hz, Prod.mk.injEq, ne_eq]
    by_cases hrest : rest = []
    · simp only [hrest, not_true_eq_false, false_or, and_true]
      split <;> simp only [Option.some.injEq, reduceCtorEq, false_iff] <;> omega
    · simp [hrest]

/-- A number has no dot, so that the suffix behind it is the first `.json`. -/
theorem wholeNumber_no_dot {s : Bytes} {z : ℤ} (h : WholeNumber s z) : 46 ∉ s := by
  intro hdot
  have hchars := h.chars hdot
  revert hchars
  decide

theorem strstr_suffix {s : Bytes} (h : 46 ∉ s) :
    strstr (ascii ".json") (s ++ ascii ".json") = some (s, []) := by
  induction s with
  | nil => decide +kernel
  | cons c cs ih =>
    have hc : (46 == c) = false := by
      rw [beq_eq_false_iff_ne]
      exact fun heq => h (heq ▸ List.mem_cons_self ..)
    have hpre : (ascii ".json").isPrefixOf (c :: (cs ++ ascii ".json")) = false := by
      show (46 == c && _) = false
      rw [hc, Bool.false_and]
    rw [List.cons_append, strstr, hpre, if_neg Bool.false_ne_true,
      ih fun hm => h (List.mem_cons_of_mem _ hm), Option.map_some]

theorem bookmarkIndex_path {s index : Bytes}
    (h : bookmarkIndex (Endpoint.bookmarks.path s) = some index) : index = s ∧ s ≠ [] := by
  have hpre : (ascii "/bookmarks/").isPrefixOf (Endpoint.bookmarks.path s) = true :=
    List.isPrefixOf_iff_prefix.mpr (List.prefix_append _ _)
  have hdrop : (Endpoint.bookmarks.path s).drop 11 = s ++ ascii ".json" :=
    List.drop_left' (by decide)
  unfold bookmarkIndex at h
  rw [if_pos hpre, hdrop] at h
  split at h
  · rename_i before hstr
    split at h
    · cases h
    · rename_i hne
      cases h
      have hsplit := strstr_some hstr
      rw [List.append_nil] at hsplit
      have hs := List.append_cancel_right hsplit
      exact ⟨hs.symm, hs ▸ hne⟩
  · cases h

theorem bookmarkIndex_number {s : Bytes} (hs : s ≠ []) (hdot : 46 ∉ s) :
    bookmarkIndex (Endpoint.bookmarks.path s) = some s := by
  have hpre : (ascii "/bookmarks/").isPrefixOf (Endpoint.bookmarks.path s) = true :=
    List.isPrefixOf_iff_prefix.mpr (List.prefix_append _ _)
  have hdrop : (Endpoint.bookmarks.path s).drop 11 = s ++ ascii ".json" :=
    List.drop_left' (by decide)
  unfold bookmarkIndex
  rw [if_pos hpre, hdrop, strstr_suffix hdot]
  exact if_neg hs

/-! ### The index that is served -/

/-- The database that the text selects. -/
def Endpoint.index (e : Endpoint) (svc : Services) (s : Bytes) : Option ℤ :=
  if s = [] ∨ e.TooLong s then none else databaseIndex svc s

theorem Endpoint.index_some {e : Endpoint} {svc : Services} (hcount : svc.dbMetaCount < 2 ^ 31)
    {s : Bytes} {i : ℤ} : e.index svc s = some i ↔
      ¬ e.TooLong s ∧ WholeNumber s i ∧ 0 ≤ i ∧ i < svc.dbMetaCount := by
  unfold Endpoint.index
  by_cases hs : s = []
  · have hnone : ¬ WholeNumber s i := fun h => h.ne_nil hs
    simp [hs, hs ▸ hnone]
  · by_cases hlong : e.TooLong s
    · simp [hlong]
    · rw [if_neg (by simp [hs, hlong]), databaseIndex_some hcount hs]
      simp [hlong]

theorem ne_of_take {n : ℕ} {s t head : Bytes} (hs : s.take n = head) (ht : t.take n ≠ head) :
    s ≠ t := by
  intro heq
  rw [heq] at hs
  exact ht hs

theorem bookmarks_route {req : HttpRequest} {s : Bytes} (firstDb : Bool)
    (hmethod : req.method = .get) (hpath : req.path.bytes = Endpoint.bookmarks.path s) :
    routeOf firstDb req = (bookmarkIndex (Endpoint.bookmarks.path s)).elim .file .bookmark := by
  have htake : (Endpoint.bookmarks.path s).take 11 = ascii "/bookmarks/" :=
    List.take_left' (by decide)
  have hfirst : Endpoint.bookmarks.path s ≠ ascii "/bookmarks.json" := ne_of_take htake (by decide)
  have hlist : Endpoint.bookmarks.path s ≠ ascii "/api/databases" := ne_of_take htake (by decide)
  have hone : ¬ (ascii "/api/databases/").isPrefixOf (Endpoint.bookmarks.path s) = true := by
    intro hpre
    obtain ⟨rest, heq⟩ := List.isPrefixOf_iff_prefix.mp hpre
    rw [← heq, List.take_append_of_le_length (by decide)] at htake
    exact absurd htake (by decide)
  unfold routeOf
  rw [if_neg (not_not.mpr hmethod), hpath]
  cases bookmarkIndex (Endpoint.bookmarks.path s) with
  | some index => rfl
  | none => simp [hfirst, hlist, hone]

theorem databases_route {req : HttpRequest} {s : Bytes} (firstDb : Bool)
    (hmethod : req.method = .get) (hpath : req.path.bytes = Endpoint.databases.path s) :
    routeOf firstDb req = .database s := by
  have htake : (Endpoint.databases.path s).take 15 = ascii "/api/databases/" :=
    List.take_left' (by decide)
  have hdrop : (Endpoint.databases.path s).drop 15 = s := List.drop_left' (by decide)
  have hfirst : Endpoint.databases.path s ≠ ascii "/bookmarks.json" := ne_of_take htake (by decide)
  have hlist : Endpoint.databases.path s ≠ ascii "/api/databases" := ne_of_take htake (by decide)
  have hone : (ascii "/api/databases/").isPrefixOf (Endpoint.databases.path s) = true :=
    List.isPrefixOf_iff_prefix.mpr (List.prefix_append _ _)
  have hindex : bookmarkIndex (Endpoint.databases.path s) = none := by
    refine if_neg fun hpre => ?_
    obtain ⟨rest, heq⟩ := List.isPrefixOf_iff_prefix.mp hpre
    have htake' := congrArg (List.take 2) htake
    rw [List.take_take, ← heq, List.take_append_of_le_length (by decide)] at htake'
    exact absurd htake' (by decide)
  unfold routeOf
  rw [if_neg (not_not.mpr hmethod), hpath, hindex]
  simp [hfirst, hlist, hone, hdrop]

theorem Endpoint.answer_served {e : Endpoint} {svc : Services} {req : HttpRequest} {s : Bytes}
    {i : ℤ} (hcount : svc.dbMetaCount < 2 ^ 31) (firstDb keepAlive : Bool)
    (hmethod : req.method = .get) (hpath : req.path.bytes = e.path s)
    (hi : e.index svc s = some i) : e.Serves svc firstDb req keepAlive i := by
  intro texts
  obtain ⟨hlong, hwhole, hrange⟩ := (Endpoint.index_some hcount).mp hi
  have hs : s ≠ [] := fun hnil => by simp [Endpoint.index, hnil] at hi
  have hindex := (databaseIndex_some hcount hs).mpr ⟨hwhole, hrange⟩
  cases e with
  | bookmarks =>
    have hshort : ¬ 32 ≤ s.length := fun h => hlong ⟨rfl, h⟩
    show apiHandleRequest _ _ _ _ = _
    unfold apiHandleRequest
    rw [bookmarks_route firstDb hmethod hpath, bookmarkIndex_number hs (wholeNumber_no_dot hwhole)]
    dsimp only [Option.elim]
    rw [if_neg hshort]
    have hsame : databaseIndex { svc with bookmarkCopy := texts } s = some i := hindex
    rw [hsame]
    rfl
  | databases =>
    show apiHandleRequest _ _ _ _ = _
    unfold apiHandleRequest
    rw [databases_route firstDb hmethod hpath]
    dsimp only
    rw [if_neg hs]
    have hsame : databaseIndex { svc with databaseJson := texts } s = some i := hindex
    rw [hsame]
    rfl

theorem Endpoint.answer_refused {e : Endpoint} {svc : Services} {req : HttpRequest} {s : Bytes}
    (texts : ℤ → Option Blob) (firstDb keepAlive : Bool) (hmethod : req.method = .get)
    (hpath : req.path.bytes = e.path s) (hi : e.index svc s = none) :
    e.answer svc texts firstDb req keepAlive = none ∨ ∃ detail,
      e.answer svc texts firstDb req keepAlive = some (responseError svc.date 404 detail) := by
  unfold Endpoint.index at hi
  cases e with
  | bookmarks =>
    show apiHandleRequest _ _ _ _ = _ ∨ ∃ detail, apiHandleRequest _ _ _ _ = _
    unfold apiHandleRequest
    rw [bookmarks_route firstDb hmethod hpath]
    cases hb : bookmarkIndex (Endpoint.bookmarks.path s) with
    | none => exact Or.inl rfl
    | some index =>
      obtain ⟨rfl, hs⟩ := bookmarkIndex_path hb
      refine Or.inr ⟨ascii "Bookmark index out of range", ?_⟩
      dsimp only [Option.elim]
      by_cases hlong : 32 ≤ index.length
      · rw [if_pos hlong]
      · rw [if_neg (by simp [hs, Endpoint.TooLong, hlong])] at hi
        have hsame : databaseIndex { svc with bookmarkCopy := texts } index = none := hi
        rw [if_neg hlong, hsame]
  | databases =>
    refine Or.inr ⟨ascii "Database index out of range", ?_⟩
    show apiHandleRequest _ _ _ _ = _
    unfold apiHandleRequest
    rw [databases_route firstDb hmethod hpath]
    dsimp only
    by_cases hs : s = []
    · rw [if_pos hs]
    · rw [if_neg (by simp [hs, Endpoint.TooLong])] at hi
      have hsame : databaseIndex { svc with databaseJson := texts } s = none := hi
      rw [if_neg hs, hsame]

/-- A missing text is not answered like a text or an index out of range. -/
theorem missing_text_ne {date date' : HttpDate} {status : ℕ} {text : Bytes} {mime : Option Bytes}
    {extra : List Bytes} {body detail : Bytes} {keepAlive sendBody : Bool} (h : status ≠ 500) :
    responseSend date status text mime extra body keepAlive sendBody ≠
      responseError date' 500 detail := by
  intro heq
  have hwritten : (responseError date' 500 detail).isSome :=
    responseError_isSome date' detail (by decide)
  obtain ⟨r, hr⟩ := Option.isSome_iff_exists.mp hwritten
  rw [hr] at heq
  exact h ((responseSend_status heq).symm.trans (responseSend_status hr))

theorem Endpoint.serves_iff {e : Endpoint} {svc : Services} {req : HttpRequest} {s : Bytes}
    (hcount : svc.dbMetaCount < 2 ^ 31) (firstDb keepAlive : Bool) (hmethod : req.method = .get)
    (hpath : req.path.bytes = e.path s) (i : ℤ) :
    e.Serves svc firstDb req keepAlive i ↔ e.index svc s = some i := by
  constructor
  · intro h
    cases hj : e.index svc s with
    | none =>
      have hfail := h fun _ => none
      rcases e.answer_refused (fun _ => none) firstDb keepAlive hmethod hpath hj with
        hnone | ⟨detail, h404⟩
      · rw [hnone] at hfail
        cases hfail
      · rw [h404] at hfail
        exact absurd (Option.some.inj hfail) (missing_text_ne (by decide))
    | some j =>
      by_contra hne
      have hij : j ≠ i := fun heq => hne (congrArg some heq)
      let empty : Blob := ⟨[], by decide⟩
      have hi := h fun k => if k = i then none else some empty
      rw [e.answer_served hcount firstDb keepAlive hmethod hpath hj, if_neg hij, if_pos rfl] at hi
      exact absurd (Option.some.inj hi) (missing_text_ne (by decide))
  · exact e.answer_served hcount firstDb keepAlive hmethod hpath

/-- The index of a path selects the databases it denotes in decimal digits, and no other text
does, except where the text is a number in range, perhaps behind blanks and a sign, and either
has other characters than digits or is too long for `idx_str`. -/
theorem indexExact_iff (e : Endpoint) (svc : Services) (hcount : svc.dbMetaCount < 2 ^ 31)
    (firstDb keepAlive : Bool) (req : HttpRequest) (s : Bytes) (hmethod : req.method = .get)
    (hpath : req.path.bytes = e.path s) :
    e.Exact svc firstDb req keepAlive s ↔
      ¬ ∃ i, WholeNumber s i ∧ 0 ≤ i ∧ i < svc.dbMetaCount ∧ (Digits s ↔ e.TooLong s) := by
  have hserves : ∀ i, e.Serves svc firstDb req keepAlive i ↔
      ¬ e.TooLong s ∧ WholeNumber s i ∧ 0 ≤ i ∧ i < svc.dbMetaCount := by
    intro i
    rw [Endpoint.serves_iff hcount firstDb keepAlive hmethod hpath, Endpoint.index_some hcount]
  unfold Endpoint.Exact
  constructor
  · intro h hdev
    obtain ⟨i, hwhole, h0, hlt, hboth⟩ := hdev
    have hi := (hserves i).symm.trans (h i)
    by_cases hlong : e.TooLong s
    · have hdigits := hboth.mpr hlong
      exact (hi.mpr ⟨hdigits, hdigits.whole.unique hwhole, hlt⟩).1 hlong
    · exact hlong (hboth.mp (hi.mp ⟨hlong, hwhole, h0, hlt⟩).1)
  · intro h i
    rw [hserves i]
    constructor
    · intro hi
      obtain ⟨hlong, hwhole, h0, hlt⟩ := hi
      have hdigits : Digits s := by
        by_contra hno
        exact h ⟨i, hwhole, h0, hlt, iff_of_false hno hlong⟩
      exact ⟨hdigits, hdigits.whole.unique hwhole, hlt⟩
    · intro hi
      obtain ⟨hdigits, rfl, hlt⟩ := hi
      have h0 : (0 : ℤ) ≤ digitsValue s := Int.natCast_nonneg _
      refine ⟨fun hlong => ?_, hdigits.whole, h0, hlt⟩
      exact h ⟨_, hdigits.whole, h0, hlt, iff_of_true hdigits hlong⟩

/-- A server with one database, and a request for it. -/
def oneDatabase : Services := { smallServices with dbMetaCount := 1 }

def firstByIndex : HttpRequest :=
  { emptyRequest 0 with
    method := .get
    path := fieldOf 4096 pathSize_pos (ascii "/bookmarks/0.json") }

theorem indexExact_first :
    Endpoint.bookmarks.Exact oneDatabase true firstByIndex true (ascii "0") := by
  have hshort : ¬ Endpoint.bookmarks.TooLong (ascii "0") := by decide
  have hdigits : Digits (ascii "0") := by decide +kernel
  refine (indexExact_iff .bookmarks oneDatabase (by decide) true true firstByIndex (ascii "0")
    rfl (by decide)).mpr ?_
  intro h
  obtain ⟨i, -, -, -, hboth⟩ := h
  exact hshort (hboth.mp hdigits)

theorem plusZero_served : ∃ req,
    parseBlock (ascii "GET /bookmarks/+0.json HTTP/1.1\r\n\r\n") = some req ∧
    req.method = .get ∧ req.path.bytes = Endpoint.bookmarks.path (ascii " 0") ∧
    ¬ Endpoint.bookmarks.Exact oneDatabase true req true (ascii " 0") := by
  have hparse : ∃ req,
      parseBlock (ascii "GET /bookmarks/+0.json HTTP/1.1\r\n\r\n") = some req ∧
      req.method = .get ∧ req.path.bytes = Endpoint.bookmarks.path (ascii " 0") :=
    ⟨_, rfl, rfl, by decide +kernel⟩
  obtain ⟨req, hblock, hmethod, hpath⟩ := hparse
  refine ⟨req, hblock, hmethod, hpath, fun h => ?_⟩
  have hindex : Endpoint.bookmarks.index oneDatabase (ascii " 0") = some 0 := by decide +kernel
  have hserved := Endpoint.answer_served (by decide) true true hmethod hpath hindex
  have hblank := ((h 0).mp hserved).1
  revert hblank
  decide

end LocalMarks.Http

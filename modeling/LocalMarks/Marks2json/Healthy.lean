import LocalMarks.Lib.Collect
import LocalMarks.Marks2json.History

/-!
# The healthy database

What `find-dead` reports and writes depends on the database, on the dead statuses and on what the
checks find, and not on how many of them run at once or on the order in which they complete.
-/

namespace LocalMarks.Marks2json
open LocalMarks.Lib

/-! ### Checking in any order -/

theorem checkAttempt_url {url : Str} {retry : Option CheckResult} {outcome : HeadOutcome}
    {r : CheckResult} (hretry : ∀ r ∈ retry, r.url = url)
    (h : checkAttempt url retry outcome = some r) : r.url = url := by
  cases outcome with
  | connectionError => exact hretry r h
  | raised => cases h
  | _ =>
    obtain rfl := Option.some.inj h
    rfl

theorem checkUrl_url {head : ℕ → HeadOutcome} {url : Str} {r : CheckResult}
    (h : checkUrl head url = some r) : r.url = url := by
  refine checkAttempt_url (fun r hr => ?_) h
  refine checkAttempt_url (fun r hr => ?_) hr
  rw [← Option.some.inj hr]
  rfl

/-- The results for the URLs, sorted by URL; none when a check raises. -/
def checkResults (head : Str → ℕ → HeadOutcome) (urls : List Str) : Option (List CheckResult) :=
  (urls.mapM fun url => checkUrl (head url) url).map (sortBy (·.url))

theorem checkAllUrls_eq (args : FindDeadArgs) (urls : List Str) : checkAllUrls args urls =
    if args.concurrency ≤ 0 then none else checkResults args.head urls := by
  unfold checkAllUrls
  split
  · rfl
  · refine collect_perm (args.schedule.order_perm urls) fun x y a b hx hy hab => ?_
    have hxy : x = y := (checkUrl_url hx).symm.trans (hab.trans (checkUrl_url hy))
    rw [hxy, hy] at hx
    exact (Option.some.inj hx).symm

/-! ### The URLs of a database -/

theorem collectUrls_spec (bookMarks : List Category) : (collectUrls bookMarks).Nodup ∧
    ∀ url, url ∈ collectUrls bookMarks ↔
      url ≠ [] ∧ ∃ bm ∈ allBookmarks bookMarks, bm.url = url := by
  have hfold : ∀ (bms : List Bookmark) (urls : List Str), urls.Nodup →
      (bms.foldl (fun urls bm => if bm.url = [] ∨ bm.url ∈ urls then urls else urls ++ [bm.url])
        urls).Nodup ∧
      ∀ url, url ∈ bms.foldl (fun urls bm =>
          if bm.url = [] ∨ bm.url ∈ urls then urls else urls ++ [bm.url]) urls ↔
        url ∈ urls ∨ url ≠ [] ∧ ∃ bm ∈ bms, bm.url = url := by
    intro bms
    induction bms with
    | nil => exact fun urls hurls => ⟨hurls, by simp⟩
    | cons bm bms ih =>
      intro urls hurls
      rw [List.foldl_cons]
      by_cases hskip : bm.url = [] ∨ bm.url ∈ urls
      · rw [if_pos hskip]
        refine ⟨(ih urls hurls).1, fun url => ((ih urls hurls).2 url).trans ?_⟩
        simp only [List.exists_mem_cons_iff]
        grind
      · rw [if_neg hskip]
        have hnodup : (urls ++ [bm.url]).Nodup := by
          rw [List.nodup_append_comm]
          exact List.nodup_cons.mpr ⟨fun hmem => hskip (Or.inr hmem), hurls⟩
        refine ⟨(ih _ hnodup).1, fun url => ((ih _ hnodup).2 url).trans ?_⟩
        simp only [List.exists_mem_cons_iff, List.mem_append, List.mem_singleton]
        grind
  obtain ⟨hnodup, hmem⟩ := hfold (allBookmarks bookMarks) [] List.nodup_nil
  exact ⟨hnodup, fun url => (hmem url).trans (by simp)⟩

/-- One result for each URL of the database, what its check found. -/
structure OnePerUrl (head : Str → ℕ → HeadOutcome) (bookMarks : List Category)
    (results : List CheckResult) : Prop where
  nodup : (results.map (·.url)).Nodup
  urls : ∀ url, url ∈ results.map (·.url) ↔
    url ≠ [] ∧ ∃ bm ∈ allBookmarks bookMarks, bm.url = url
  outcome : ∀ r ∈ results, checkUrl (head r.url) r.url = some r

theorem checkResults_onePerUrl {head : Str → ℕ → HeadOutcome} {bookMarks : List Category}
    {results : List CheckResult} (h : checkResults head (collectUrls bookMarks) = some results) :
    OnePerUrl head bookMarks results := by
  obtain ⟨unsorted, hmap, rfl⟩ := Option.map_eq_some_iff.mp h
  have hkeys : unsorted.map (·.url) = collectUrls bookMarks :=
    map_key_mapM (fun _ _ hr => checkUrl_url hr) hmap
  have hperm : ((sortBy (·.url) unsorted).map (·.url)).Perm (collectUrls bookMarks) :=
    hkeys ▸ (sortBy_perm _ unsorted).map _
  obtain ⟨hnodup, hmem⟩ := collectUrls_spec bookMarks
  refine ⟨hperm.nodup_iff.mpr hnodup, fun url => hperm.mem_iff.trans (hmem url), fun r hr => ?_⟩
  obtain ⟨-, rfl⟩ := mapM_eq_some.mp hmap
  obtain ⟨url, -, hurl⟩ := List.mem_filterMap.mp ((sortBy_perm _ _).mem_iff.mp hr)
  rw [checkUrl_url hurl]
  exact hurl

/-! ### What is kept -/

/-- The check of the bookmark's URL finds something other than a dead status. -/
def alive (lib : PyLib) (status : Str) (head : Str → ℕ → HeadOutcome) (bm : Bookmark) : Bool :=
  bm.url ≠ [] && (checkUrl (head bm.url) bm.url).any fun r =>
    !(deadStatuses lib status).contains r.category.name

/-- The categories with the bookmarks that are alive, those without any left out. -/
def aliveCategories (lib : PyLib) (status : Str) (head : Str → ℕ → HeadOutcome)
    (bookMarks : List Category) : List Category :=
  (bookMarks.map fun cat =>
    { cat with bookmarks := cat.bookmarks.filter (alive lib status head) }).filter
      fun cat => cat.bookmarks ≠ []

theorem OnePerUrl.mem_healthyUrls {lib : PyLib} {status : Str} {head : Str → ℕ → HeadOutcome}
    {bookMarks : List Category} {results : List CheckResult} {bm : Bookmark}
    (h : OnePerUrl head bookMarks results) (hbm : bm ∈ allBookmarks bookMarks) :
    bm.url ∈ healthyUrls (deadStatuses lib status) results ↔
      alive lib status head bm = true := by
  simp only [healthyUrls, alive, List.mem_map, List.mem_filter, List.contains_eq_mem,
    Bool.and_eq_true, Option.any_eq_true, decide_not, Bool.not_eq_true', decide_eq_false_iff_not]
  constructor
  · intro hr
    obtain ⟨r, ⟨hmem, hcat⟩, hurl⟩ := hr
    have hne := ((h.urls r.url).mp (List.mem_map_of_mem hmem)).1
    have hout := h.outcome r hmem
    rw [hurl] at hne hout
    exact ⟨hne, r, hout, hcat⟩
  · intro halive
    obtain ⟨hne, r, hout, hcat⟩ := halive
    obtain ⟨r', hmem, hurl⟩ := List.mem_map.mp ((h.urls bm.url).mpr ⟨hne, bm, hbm, rfl⟩)
    have hout' := h.outcome r' hmem
    rw [hurl, hout] at hout'
    obtain rfl := Option.some.inj hout'
    exact ⟨r, ⟨hmem, hcat⟩, hurl⟩

theorem OnePerUrl.healthyCategories {lib : PyLib} {status : Str} {head : Str → ℕ → HeadOutcome}
    {bookMarks : List Category} {results : List CheckResult}
    (h : OnePerUrl head bookMarks results) :
    healthyCategories (healthyUrls (deadStatuses lib status) results) bookMarks =
      aliveCategories lib status head bookMarks := by
  have hmap : ∀ cat ∈ bookMarks,
      { cat with bookmarks := cat.bookmarks.filter fun bm =>
        bm.url ∈ healthyUrls (deadStatuses lib status) results } =
      { cat with bookmarks := cat.bookmarks.filter (alive lib status head) } := by
    intro cat hcat
    congr 1
    refine List.filter_congr fun bm hbm => ?_
    rw [Bool.eq_iff_iff, decide_eq_true_eq]
    exact h.mem_healthyUrls (List.mem_flatMap.mpr ⟨cat, hcat, hbm⟩)
  rw [Marks2json.healthyCategories, aliveCategories, List.map_congr_left hmap]

/-- The written database has these categories in some order, each with its bookmarks in some order,
and its counters count exactly these bookmarks. -/
structure Files (cats : List Category) (db : Database) : Prop where
  categories : ∃ stored : List Category, stored.Perm db.bookMarks ∧
    List.Forall₂ (fun cat cat' => cat'.category = cat.category ∧ cat'.bookmarks.Perm cat.bookmarks)
      cats stored
  counters : CountersOf db.counters (allBookmarks cats)

theorem files_sorted (lib : PyLib) (cats : List Category) :
    Files cats (.of (sortDatabase lib cats) (recalcCounters cats)) where
  categories := by
    refine ⟨_, (List.perm_insertionSort _ _).symm, ?_⟩
    rw [List.forall₂_map_right_iff]
    exact List.forall₂_same.mpr fun cat _ => ⟨rfl, sortBookmarks_perm lib cat.bookmarks⟩
  counters := recalcCounters_countersOf cats

theorem cmdFindDead_eq (lib : PyLib) (status : Str) (head : Str → ℕ → HeadOutcome) (db : Database)
    (c : ℤ) (s : Schedule) : cmdFindDead lib ⟨status, c, head, s⟩ true db =
      if collectUrls db.bookMarks = [] then .nothingWritten
      else if c ≤ 0 then .raised
      else (checkResults head (collectUrls db.bookMarks)).elim .raised fun _ =>
        .written (.of (sortDatabase lib (aliveCategories lib status head db.bookMarks))
          (recalcCounters (aliveCategories lib status head db.bookMarks))) := by
  unfold cmdFindDead
  dsimp only
  by_cases hurls : collectUrls db.bookMarks = []
  · rw [if_pos hurls, if_pos hurls]
  · rw [if_neg hurls, if_neg hurls, checkAllUrls_eq]
    by_cases hc : c ≤ 0
    · rw [if_pos hc, if_pos hc]
    · rw [if_neg hc, if_neg hc]
      cases hresults : checkResults head (collectUrls db.bookMarks) with
      | none => rfl
      | some results =>
        dsimp only [Option.elim]
        rw [if_pos rfl, (checkResults_onePerUrl hresults).healthyCategories]

theorem cmdFindDead_written {lib : PyLib} {status : Str} {head : Str → ℕ → HeadOutcome}
    {db : Database} {c : ℤ} {s : Schedule} (hurls : collectUrls db.bookMarks ≠ []) (hc : 0 < c)
    (hresults : (checkResults head (collectUrls db.bookMarks)).isSome = true) :
    ∃ db', cmdFindDead lib ⟨status, c, head, s⟩ true db = .written db' := by
  obtain ⟨results, hresults⟩ := Option.isSome_iff_exists.mp hresults
  rw [cmdFindDead_eq, if_neg hurls, if_neg (by omega), hresults]
  exact ⟨_, rfl⟩

/-- Whatever the number of workers and the order in which the checks complete: the results are
one for each URL, and the database that is written has, category by category, exactly the bookmarks
whose check found no dead status, and counters of exactly these. -/
theorem findDead_independent (lib : PyLib) (status : Str) (head : Str → ℕ → HeadOutcome)
    (db : Database) :
    (∀ c s, checkAllUrls ⟨status, c, head, s⟩ (collectUrls db.bookMarks) =
      if c ≤ 0 then none else checkResults head (collectUrls db.bookMarks)) ∧
    (∀ results, checkResults head (collectUrls db.bookMarks) = some results →
      OnePerUrl head db.bookMarks results) ∧
    (∀ c s, cmdFindDead lib ⟨status, c, head, s⟩ true db =
      if collectUrls db.bookMarks = [] then .nothingWritten
      else if c ≤ 0 then .raised
      else (checkResults head (collectUrls db.bookMarks)).elim .raised fun _ =>
        .written (.of (sortDatabase lib (aliveCategories lib status head db.bookMarks))
          (recalcCounters (aliveCategories lib status head db.bookMarks)))) ∧
    ∀ c s db', cmdFindDead lib ⟨status, c, head, s⟩ true db = .written db' →
      Files (aliveCategories lib status head db.bookMarks) db' := by
  refine ⟨fun c s => checkAllUrls_eq _ _, fun _ => checkResults_onePerUrl,
    cmdFindDead_eq lib status head db, fun c s db' hrun => ?_⟩
  rw [cmdFindDead_eq] at hrun
  split at hrun
  · cases hrun
  · split at hrun
    · cases hrun
    · cases hresults : checkResults head (collectUrls db.bookMarks) with
      | none =>
        rw [hresults] at hrun
        cases hrun
      | some results =>
        rw [hresults] at hrun
        obtain rfl := Outcome.written.inj hrun
        exact files_sorted lib _

/-- Two bookmarks for one URL, which answers at the second attempt, and one for a URL that is
gone. -/
def twoNotes : Database where
  bookMarks := [⟨"Dev".toList, [⟨"A".toList, "https://a.org".toList, [], [], [], none⟩,
    ⟨"B".toList, "https://a.org".toList, [], [], [], none⟩,
    ⟨"C".toList, "https://gone.org".toList, [], [], [], none⟩]⟩]
  bookMarkDomainHash := ∅
  bookMarkTagHash := ∅

def slowAnswer (url : Str) : ℕ → HeadOutcome
  | 0 => .connectionError
  | _ => .response (if url = "https://a.org".toList then 200 else 404)

/-- Checks that complete in the order in which they are submitted, or in the opposite one. -/
def inOrder : Schedule := ⟨id, fun _ => List.Perm.refl _⟩
def backwards : Schedule := ⟨List.reverse, List.reverse_perm⟩

def findDeadArgs (s : Schedule) : FindDeadArgs := ⟨"4xx,5xx,error".toList, 2, slowAnswer, s⟩

theorem findDead_independent_twoNotes :
    OnePerUrl slowAnswer twoNotes.bookMarks
      [⟨"https://a.org".toList, some 200, .ok, none⟩,
        ⟨"https://gone.org".toList, some 404, .clientError, none⟩] ∧
    ∀ s ∈ [inOrder, backwards], ∃ db',
      cmdFindDead plainLib (findDeadArgs s) true twoNotes = .written db' ∧
      Files [⟨"Dev".toList, [⟨"A".toList, "https://a.org".toList, [], [], [], none⟩,
        ⟨"B".toList, "https://a.org".toList, [], [], [], none⟩]⟩] db' := by
  obtain ⟨-, hresults, -, hfiles⟩ :=
    findDead_independent plainLib "4xx,5xx,error".toList slowAnswer twoNotes
  refine ⟨hresults _ (by decide +kernel), fun s _ => ?_⟩
  obtain ⟨db', hrun⟩ : ∃ db', cmdFindDead plainLib (findDeadArgs s) true twoNotes = .written db' :=
    cmdFindDead_written (by decide +kernel) (by decide) (by decide +kernel)
  have halive : aliveCategories plainLib "4xx,5xx,error".toList slowAnswer twoNotes.bookMarks =
      [⟨"Dev".toList, [⟨"A".toList, "https://a.org".toList, [], [], [], none⟩,
        ⟨"B".toList, "https://a.org".toList, [], [], [], none⟩]⟩] := by decide +kernel
  exact ⟨db', hrun, halive ▸ hfiles 2 s db' hrun⟩

end LocalMarks.Marks2json

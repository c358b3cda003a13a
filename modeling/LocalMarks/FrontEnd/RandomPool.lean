import LocalMarks.FrontEnd.Browse
import LocalMarks.FrontEnd.Loading

/-!
# The pool of the random view (main.js, random.js)

The bookmarks that are picked from are set where the browse view is drawn. The random view has a
route of its own.
-/

namespace LocalMarks.FrontEnd.Random
open LocalMarks.Lib LocalMarks.FrontEnd.Browse

abbrev Contents := ℕ → List Category

/-- A run of `renderRandom`: the active database and the pool, none before `initRandom`. -/
structure Pick where
  active : Option ℕ
  pool : Option (List (Bookmark × Str))
  deriving DecidableEq

/-- The variables of main.js and of random.js, and the runs of `renderRandom` so far. -/
structure Page where
  app : App (List Category)
  allBookmarks : Option (List (Bookmark × Str))
  picks : List Pick

def newPage (stored : Option ℕ) : Page := ⟨newApp stored, none, []⟩

/-- The bookmarks with the names of their categories. -/
def bookmarksOf (categories : List Category) : List (Bookmark × Str) :=
  categories.flatMap fun c => c.bookmarks.map fun bm => (bm, c.category)

/-- `initRandom` the first time, later `updateRandomData`. -/
def Page.setBookmarks (page : Page) (categories : List Category) : Page :=
  { page with allBookmarks := some (bookmarksOf categories) }

def Page.renderRandom (page : Page) : Page :=
  { page with picks := page.picks ++ [⟨page.app.active, page.allBookmarks⟩] }

/-- What a route does when the bookmarks are there. -/
def Page.renderWith (i : ℕ) (d : List Category) (page : Page) (route : Route) : Page :=
  let page := { page with app := page.app.renderWith i d route }
  match route with
  | .browse => page.setBookmarks d
  | .info => page
  | .random => page.renderRandom

/-- `ensureDataLoaded` and the route that asked for the data. -/
def Page.ensureDataLoaded (route : Route) (page : Page) : Page :=
  match page.app.active with
  | none => page
  | some dbIdx =>
    if page.app.loadedDbIdx = some dbIdx then
      match page.app.data, page.app.dataPromise with
      | some d, _ => page.renderWith dbIdx d route
      | none, some p => { page with app := page.app.awaitPromise p route }
      | none, none => { page with app := page.app.fetchBookmarks dbIdx route }
    else { page with app := page.app.fetchBookmarks dbIdx route }

def Page.renderRoute (route : Route) (page : Page) : Page :=
  let page := page.ensureDataLoaded route
  if route = .browse then { page with app := { page.app with browsed := true } } else page

/-- `setActiveDbIndex`. `selectDatabase` goes on to the browse route. -/
def Page.setActive (page : Page) (i : ℕ) : Page :=
  { page with app := { page.app with active := some i, browsed := false } }

def Page.respond (contents : Contents) (k : ℕ) (r : Request) (page : Page) : Page :=
  r.waiting.foldl (Page.renderWith r.idx (contents r.idx))
    { page with
      app := { page.app with
        data := some (contents r.idx)
        loadedDbIdx := some r.idx
        dataPromise := none
        inFlight := page.app.inFlight.eraseIdx k } }

/-- A request that fails; nothing is cached for its database. -/
def Page.reject (page : Page) (k : ℕ) : Page :=
  { page with
    app := { page.app with dataPromise := none, inFlight := page.app.inFlight.eraseIdx k } }

inductive Event where
  | setActive (i : ℕ)
  | enter (route : Route)
  | arrive (k : ℕ)
  | fail (k : ℕ)

def exec (contents : Contents) (page : Page) : Event → Option Page
  | .setActive i => some (page.setActive i)
  | .enter route => some (page.renderRoute route)
  | .arrive k => page.app.inFlight[k]?.map fun r => page.respond contents k r
  | .fail k => page.app.inFlight[k]?.map fun _ => page.reject k

/-- `initRandom` has run, and the pool holds the bookmarks of the active database. -/
def Pick.Right (contents : Contents) (pick : Pick) : Prop :=
  ∃ i, pick.active = some i ∧ pick.pool = some (bookmarksOf (contents i))

/-- The browse view was last drawn with the bookmarks of the active database. -/
def Drawn (contents : Contents) (app : App (List Category)) : Prop :=
  ∃ i j, app.active = some i ∧ app.rendered.map Prod.fst = some j ∧
    bookmarksOf (contents j) = bookmarksOf (contents i)

/-- `renderRandom` runs: the random view is entered with the data there, or its data come. -/
def RendersRandom (page : Page) : Event → Prop
  | .enter route => route = .random ∧ ∃ i, page.app.active = some i ∧ page.app.loadedDbIdx = some i
  | .arrive k => ∃ r ∈ page.app.inFlight[k]?, .random ∈ r.waiting
  | .setActive _ | .fail _ => False

/-- The random view is drawn only after the browse view was, with those bookmarks. -/
def AfterBrowse (contents : Contents) (page : Page) (e : Event) : Prop :=
  RendersRandom page e → Drawn contents page.app

/-! ### The variables of main.js -/

theorem renderWith_app (i : ℕ) (d : List Category) (page : Page) (route : Route) :
    (page.renderWith i d route).app = page.app.renderWith i d route := by
  cases route <;> rfl

theorem foldl_renderWith_app (i : ℕ) (d : List Category) (waiting : List Route) (page : Page) :
    (waiting.foldl (Page.renderWith i d) page).app =
      waiting.foldl (App.renderWith i d) page.app := by
  induction waiting generalizing page with
  | nil => rfl
  | cons route waiting ih => rw [List.foldl_cons, List.foldl_cons, ih, renderWith_app]

theorem ensureDataLoaded_app (page : Page) (route : Route) :
    (page.ensureDataLoaded route).app = page.app.ensureDataLoaded route := by
  unfold Page.ensureDataLoaded App.ensureDataLoaded
  cases page.app.active with
  | none => rfl
  | some dbIdx =>
    dsimp only
    split
    · cases page.app.data with
      | some d => exact renderWith_app dbIdx d page route
      | none => cases page.app.dataPromise <;> rfl
    · rfl

theorem renderRoute_app (page : Page) (route : Route) :
    (page.renderRoute route).app = page.app.renderRoute route := by
  unfold Page.renderRoute App.renderRoute
  rw [← ensureDataLoaded_app]
  split <;> rfl

theorem exec_app (contents : Contents) (page : Page) :
    (∀ i, ((page.setActive i).renderRoute .browse).app = page.app.selectDatabase i) ∧
    (∀ route, (page.renderRoute route).app = page.app.renderRoute route) ∧
    ∀ k r, (page.respond contents k r).app = page.app.respond contents k r :=
  ⟨fun _ => renderRoute_app _ _, renderRoute_app page, fun _ _ => foldl_renderWith_app _ _ _ _⟩

/-! ### The pool is that of the browse view -/

structure PageInv (contents : Contents) (page : Page) : Prop where
  data : page.app.data = page.app.loadedDbIdx.map contents
  shown : ∀ i d, page.app.rendered = some (i, d) → d = contents i
  pool : page.allBookmarks = page.app.rendered.map fun p => bookmarksOf p.2
  single : ∀ r ∈ page.app.inFlight, ∃ route, r.waiting = [route]

variable {contents : Contents} {page page' : Page}

theorem newPage_inv (contents : Contents) (stored : Option ℕ) :
    PageInv contents (newPage stored) where
  data := rfl
  shown := by rintro i d ⟨⟩
  pool := rfl
  single := by rintro r ⟨⟩

theorem pick_right_iff (h : PageInv contents page) :
    Pick.Right contents ⟨page.app.active, page.allBookmarks⟩ ↔ Drawn contents page.app := by
  unfold Pick.Right Drawn
  rw [h.pool]
  cases hr : page.app.rendered with
  | none => simp
  | some p =>
    obtain ⟨j, d⟩ := p
    obtain rfl := h.shown j d hr
    simp

theorem renderWith_inv (h : PageInv contents page) (i : ℕ) (route : Route) :
    PageInv contents (page.renderWith i (contents i) route) := by
  cases route with
  | browse =>
    refine ⟨h.data, ?_, rfl, h.single⟩
    rintro _ _ ⟨⟩
    rfl
  | info => exact h
  | random => exact ⟨h.data, h.shown, h.pool, h.single⟩

theorem renderWith_picks (i : ℕ) (d : List Category) (route : Route) :
    (page.renderWith i d route).picks =
      if route = .random then page.picks ++ [⟨page.app.active, page.allBookmarks⟩]
      else page.picks := by
  cases route <;> rfl

theorem ensureDataLoaded_loaded {i : ℕ} (h : PageInv contents page) (route : Route)
    (ha : page.app.active = some i) (hi : page.app.loadedDbIdx = some i) :
    page.ensureDataLoaded route = page.renderWith i (contents i) route := by
  have hd : page.app.data = some (contents i) := by rw [h.data, hi, Option.map_some]
  rw [Page.ensureDataLoaded, ha]
  dsimp only
  rw [if_pos hi, hd]

/-- Otherwise nothing is drawn, and what is new in flight brings the data to one route. -/
theorem ensureDataLoaded_waits (h : PageInv contents page) (route : Route)
    (hno : ¬ ∃ i, page.app.active = some i ∧ page.app.loadedDbIdx = some i) :
    PageInv contents (page.ensureDataLoaded route) ∧
      (page.ensureDataLoaded route).picks = page.picks := by
  unfold Page.ensureDataLoaded
  cases ha : page.app.active with
  | none => exact ⟨h, rfl⟩
  | some i =>
    dsimp only
    rw [if_neg fun hi => hno ⟨i, ha, hi⟩]
    refine ⟨⟨h.data, h.shown, h.pool, ?_⟩, rfl⟩
    intro r hr
    rcases List.mem_append.mp hr with hr | hr
    · exact h.single r hr
    · exact ⟨route, by rw [List.mem_singleton.mp hr]⟩

structure Adds (page page' : Page) (renders : Prop) : Prop where
  pick : renders → page'.picks = page.picks ++ [⟨page.app.active, page.allBookmarks⟩]
  rest : ¬ renders → page'.picks = page.picks

theorem renderWith_adds (page : Page) (i : ℕ) (d : List Category) (route : Route) :
    Adds page (page.renderWith i d route) (route = .random) where
  pick := fun h => by rw [renderWith_picks, if_pos h]
  rest := fun h => by rw [renderWith_picks, if_neg h]

theorem renderRoute_step (h : PageInv contents page) (route : Route) :
    PageInv contents (page.renderRoute route) ∧
      Adds page (page.renderRoute route) (RendersRandom page (.enter route)) := by
  have hload : PageInv contents (page.ensureDataLoaded route) ∧
      Adds page (page.ensureDataLoaded route) (RendersRandom page (.enter route)) := by
    by_cases hready : ∃ i, page.app.active = some i ∧ page.app.loadedDbIdx = some i
    · obtain ⟨i, ha, hi⟩ := hready
      rw [ensureDataLoaded_loaded h route ha hi]
      have hadds := renderWith_adds page i (contents i) route
      exact ⟨renderWith_inv h i route, fun hr => hadds.pick hr.1,
        fun hr => hadds.rest fun hroute => hr ⟨hroute, i, ha, hi⟩⟩
    · obtain ⟨hinv, hpicks⟩ := ensureDataLoaded_waits h route hready
      exact ⟨hinv, fun hr => absurd hr.2 hready, fun _ => hpicks⟩
  unfold Page.renderRoute
  dsimp only
  split
  · exact ⟨⟨hload.1.data, hload.1.shown, hload.1.pool, hload.1.single⟩,
      hload.2.pick, hload.2.rest⟩
  · exact hload

theorem respond_step (h : PageInv contents page) {k : ℕ} {r : Request}
    (hr : page.app.inFlight[k]? = some r) :
    PageInv contents (page.respond contents k r) ∧
      Adds page (page.respond contents k r) (.random ∈ r.waiting) := by
  obtain ⟨route, hroute⟩ := h.single r (List.mem_of_getElem? hr)
  have hloaded : PageInv contents { page with
      app := { page.app with
        data := some (contents r.idx)
        loadedDbIdx := some r.idx
        dataPromise := none
        inFlight := page.app.inFlight.eraseIdx k } } :=
    ⟨rfl, h.shown, h.pool, fun q hq => h.single q (List.mem_of_mem_eraseIdx hq)⟩
  have hadds := renderWith_adds { page with
      app := { page.app with
        data := some (contents r.idx)
        loadedDbIdx := some r.idx
        dataPromise := none
        inFlight := page.app.inFlight.eraseIdx k } } r.idx (contents r.idx) route
  rw [Page.respond, hroute, List.foldl_cons, List.foldl_nil, List.mem_singleton]
  exact ⟨renderWith_inv hloaded r.idx route, fun heq => hadds.pick heq.symm,
    fun hne => hadds.rest (Ne.symm hne)⟩

theorem exec_step {e : Event} (h : PageInv contents page)
    (hst : exec contents page e = some page') :
    PageInv contents page' ∧ Adds page page' (RendersRandom page e) := by
  cases e with
  | setActive i =>
    obtain rfl := Option.some.inj hst
    exact ⟨⟨h.data, h.shown, h.pool, h.single⟩, fun hr => absurd hr id, fun _ => rfl⟩
  | enter route =>
    obtain rfl := Option.some.inj hst
    exact renderRoute_step h route
  | arrive k =>
    obtain ⟨r, hr, rfl⟩ := Option.map_eq_some_iff.mp hst
    obtain ⟨hinv, hadds⟩ := respond_step h hr
    have hrenders : RendersRandom page (.arrive k) ↔ .random ∈ r.waiting := by
      simp [RendersRandom, hr]
    exact ⟨hinv, fun hrand => hadds.pick (hrenders.mp hrand),
      fun hrand => hadds.rest (mt hrenders.mpr hrand)⟩
  | fail k =>
    obtain ⟨r, hr, rfl⟩ := Option.map_eq_some_iff.mp hst
    exact ⟨⟨h.data, h.shown, h.pool, fun q hq => h.single q (List.mem_of_mem_eraseIdx hq)⟩,
      fun hrand => absurd hrand id, fun _ => rfl⟩

/-! ### Runs -/

theorem run_inv {stored : Option ℕ}
    (h : Reach (fun p => p = newPage stored) (StepOf (exec contents)) page) :
    PageInv contents page := by
  induction h with
  | start hstart =>
    obtain rfl := hstart
    exact newPage_inv contents stored
  | next e _ hstep ih => exact (exec_step ih hstep).1

theorem exec_picks_right {e : Event} (hinv : PageInv contents page)
    (hpicks : ∀ pick ∈ page.picks, pick.Right contents) (hok : AfterBrowse contents page e)
    (hst : exec contents page e = some page') : ∀ pick ∈ page'.picks, pick.Right contents := by
  have hadds := (exec_step hinv hst).2
  intro pick hpick
  by_cases hrand : RendersRandom page e
  · rw [hadds.pick hrand] at hpick
    rcases List.mem_append.mp hpick with hpick | hpick
    · exact hpicks pick hpick
    · rw [List.mem_singleton.mp hpick]
      exact (pick_right_iff hinv).mpr (hok hrand)
  · rw [hadds.rest hrand] at hpick
    exact hpicks pick hpick

/-- As long as the random view is drawn after the browse view, every run of `renderRandom` picks
from the bookmarks of the active database. -/
theorem picks_right {stored : Option ℕ}
    (h : Reach (fun p => p = newPage stored)
      (Guarded (StepOf (exec contents)) (AfterBrowse contents)) page) :
    ∀ pick ∈ page.picks, pick.Right contents := by
  induction h with
  | start hstart =>
    obtain rfl := hstart
    rintro pick ⟨⟩
  | next e hrun hstep ih =>
    exact exec_picks_right (run_inv hrun.of_guarded) ih hstep.1 hstep.2

theorem pick_wrong {stored : Option ℕ} {e : Event}
    (h : Reach (fun p => p = newPage stored) (StepOf (exec contents)) page)
    (hst : exec contents page e = some page') (hno : ¬ AfterBrowse contents page e) :
    ∃ pick ∈ page'.picks, ¬ pick.Right contents := by
  obtain ⟨hrand, hdrawn⟩ := Classical.not_imp.mp hno
  have hinv := run_inv h
  refine ⟨⟨page.app.active, page.allBookmarks⟩, ?_, mt (pick_right_iff hinv).mp hdrawn⟩
  rw [(exec_step hinv hst).2.pick hrand]
  exact List.mem_append_right _ (List.mem_singleton_self _)

/-- Database `i` has one bookmark, of the title and the URL `i`. -/
def oneBookmark : Contents := fun i =>
  let name := i.repr.toList
  [⟨"dev".toList, [⟨name, name, [], []⟩]⟩]

theorem picks_right_browsed : ∃ page : Page, page.picks.length = 1 ∧
    ∀ pick ∈ page.picks, pick.Right oneBookmark := by
  let Run := Reach (fun p => p = newPage none)
    (Guarded (StepOf (exec oneBookmark)) (AfterBrowse oneBookmark))
  let browse := ((newPage none).setActive 1).renderRoute .browse
  let drawn := browse.respond oneBookmark 0 ⟨0, 1, [.browse]⟩
  have hselect : Run ((newPage none).setActive 1) := .next (.setActive 1) (.start rfl) ⟨nofun, rfl⟩
  have hbrowse : Run browse := hselect.next (.enter .browse) ⟨nofun, rfl⟩
  have hwaits : ¬ RendersRandom browse (.arrive 0) := by
    rintro ⟨r, hr, hrand⟩
    cases hr
    exact absurd hrand (by decide)
  have hdrawn : Run drawn := hbrowse.next (.arrive 0) ⟨fun hrand => absurd hrand hwaits, rfl⟩
  have hrandom : Run (drawn.renderRoute .random) :=
    hdrawn.next (.enter .random) ⟨fun _ => ⟨1, 1, rfl, rfl, rfl⟩, rfl⟩
  exact ⟨_, rfl, picks_right hrandom⟩

/-- The page is loaded at `#random` with a stored database: `initRandom` has not run. -/
theorem reloaded_uninitialized : ¬ ∀ contents stored (page : Page),
    Reach (fun p => p = newPage stored) (StepOf (exec contents)) page →
    ∀ pick ∈ page.picks, pick.Right contents := by
  intro h
  let page := ((newPage (some 0)).renderRoute .random).respond oneBookmark 0 ⟨0, 0, [.random]⟩
  have hrun : Reach (fun p => p = newPage (some 0)) (StepOf (exec oneBookmark)) page :=
    Reach.of_runList [.enter .random, .arrive 0] (.start rfl) rfl
  obtain ⟨i, -, hpool⟩ := h _ _ page hrun ⟨some 0, none⟩ (List.mem_singleton_self _)
  cases hpool

end LocalMarks.FrontEnd.Random

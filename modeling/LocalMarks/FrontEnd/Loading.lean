import LocalMarks.Lib.Reach
import Mathlib.Data.List.Basic

/-!
# Loading the active database (main.js, databases.js)

The single-page app as a system of events: a database is selected, a route is entered, the
response of a request arrives. An event runs to its end, the callbacks of the promises that it
settles included, before the next one.
-/

namespace LocalMarks.FrontEnd
open LocalMarks.Lib

inductive Route where
  | browse
  | info
  | random
  deriving DecidableEq

/-- A call of `fetchBookmarks` without its response, and the routes that wait for it. -/
structure Request where
  id : ℕ
  idx : ℕ
  waiting : List Route
  deriving DecidableEq

/-- The variables of main.js with the stored index of the active database, the requests in
flight and what the browse view shows. -/
structure App (α : Type*) where
  active : Option ℕ
  data : Option α
  loadedDbIdx : Option ℕ
  dataPromise : Option ℕ
  inFlight : List Request
  nextId : ℕ
  rendered : Option (ℕ × α)
  /-- A browse route was handled since the last selection. -/
  browsed : Bool

inductive Event where
  | select (i : ℕ)
  | enter (route : Route)
  | arrive (k : ℕ)

variable {α : Type*}

/-- The page as it is loaded. The active database of an earlier visit is still stored. -/
def newApp (stored : Option ℕ) : App α where
  active := stored
  data := none
  loadedDbIdx := none
  dataPromise := none
  inFlight := []
  nextId := 0
  rendered := none
  browsed := false

/-- What `renderRoute` does when the bookmarks are there: the browse view is drawn with them,
the first time by `initBrowse`, later by `updateCategories`. -/
def App.renderWith (i : ℕ) (d : α) (app : App α) (route : Route) : App α :=
  if route = .browse then { app with rendered := some (i, d) } else app

def App.fetchBookmarks (dbIdx : ℕ) (route : Route) (app : App α) : App α :=
  { app with
    inFlight := app.inFlight ++ [⟨app.nextId, dbIdx, [route]⟩]
    dataPromise := some app.nextId
    nextId := app.nextId + 1 }

def App.awaitPromise (p : ℕ) (route : Route) (app : App α) : App α :=
  { app with
    inFlight := app.inFlight.map fun r =>
      if r.id = p then { r with waiting := r.waiting ++ [route] } else r }

/-- `ensureDataLoaded`, followed by the route that asked for the data. Without an active
database the user is sent to the list of databases. -/
def App.ensureDataLoaded (route : Route) (app : App α) : App α :=
  match app.active with
  | none => app
  | some dbIdx =>
    if app.loadedDbIdx = some dbIdx then
      match app.data, app.dataPromise with
      | some d, _ => app.renderWith dbIdx d route
      | none, some p => app.awaitPromise p route
      | none, none => app.fetchBookmarks dbIdx route
    else app.fetchBookmarks dbIdx route

def App.renderRoute (route : Route) (app : App α) : App α :=
  let app := app.ensureDataLoaded route
  if route = .browse then { app with browsed := true } else app

/-- `setActiveDbIndex` and the browse route, as `selectDatabase` has it. -/
def App.selectDatabase (i : ℕ) (app : App α) : App α :=
  ({ app with active := some i, browsed := false }).renderRoute .browse

/-- The callbacks of a response, first the one of `ensureDataLoaded`. -/
def App.respond (contents : ℕ → α) (k : ℕ) (r : Request) (app : App α) : App α :=
  r.waiting.foldl (App.renderWith r.idx (contents r.idx))
    { app with
      data := some (contents r.idx)
      loadedDbIdx := some r.idx
      dataPromise := none
      inFlight := app.inFlight.eraseIdx k }

/-- `contents i` is what the server has for database `i`. -/
def exec (contents : ℕ → α) (app : App α) : Event → Option (App α)
  | .select i => some (app.selectDatabase i)
  | .enter route => some (app.renderRoute route)
  | .arrive k => app.inFlight[k]?.map fun r => app.respond contents k r

/-- The active database is loaded and shown. -/
structure Settled (contents : ℕ → α) (app : App α) : Prop where
  loaded : app.loadedDbIdx = app.active
  data : app.data = app.active.map contents
  rendered : app.rendered = app.active.map fun i => (i, contents i)

/-- A response for another database than the active one comes while a request for the active
one is still in flight; where it is drawn, so is the later response. -/
def LateCovered (app : App α) : Event → Prop
  | .arrive k => ∀ r ∈ app.inFlight[k]?, app.active ≠ some r.idx →
      ∃ q ∈ app.inFlight, app.active = some q.idx ∧ (.browse ∈ r.waiting → .browse ∈ q.waiting)
  | _ => True

instance (app : App α) (e : Event) : Decidable (LateCovered app e) :=
  match e with
  | .arrive k => inferInstanceAs (Decidable (∀ r ∈ app.inFlight[k]?, app.active ≠ some r.idx →
      ∃ q ∈ app.inFlight, app.active = some q.idx ∧ (.browse ∈ r.waiting → .browse ∈ q.waiting)))
  | .select _ => inferInstanceAs (Decidable True)
  | .enter _ => inferInstanceAs (Decidable True)

/-! ### Held or on its way -/

def App.toBrowse (app : App α) : List Request := app.inFlight.filter (.browse ∈ ·.waiting)

/-- What is wanted is held, or one of the requests brings it. -/
def Awaited (want held : Option ℕ) (requests : List Request) : Prop :=
  held = want ∨ ∃ q ∈ requests, want = some q.idx

theorem Awaited.none {want held : Option ℕ} (h : Awaited want held []) : held = want := by
  rcases h with h | ⟨q, hq, _⟩
  · exact h
  · cases hq

theorem Awaited.more {want held : Option ℕ} {requests more : List Request}
    (h : Awaited want held requests) (hsub : ∀ q ∈ requests, q ∈ more) :
    Awaited want held more := by
  rcases h with h | ⟨q, hq, hw⟩
  · exact Or.inl h
  · exact Or.inr ⟨q, hsub q hq, hw⟩

structure ViewInv (contents : ℕ → α) (app : App α) : Prop where
  data : app.data = app.loadedDbIdx.map contents
  shown : ∀ i d, app.rendered = some (i, d) → d = contents i
  idle : app.active = none → app.loadedDbIdx = none ∧ app.rendered = none
  loaded : app.browsed = true → Awaited app.active app.loadedDbIdx app.inFlight
  drawn : app.browsed = true → Awaited app.active (app.rendered.map Prod.fst) app.toBrowse

theorem newApp_view (contents : ℕ → α) (stored : Option ℕ) : ViewInv contents (newApp stored) where
  data := rfl
  shown := by rintro i d ⟨⟩
  idle := fun _ => ⟨rfl, rfl⟩
  loaded := by rintro ⟨⟩
  drawn := by rintro ⟨⟩

theorem Settled.of_view {contents : ℕ → α} {app : App α} (h : ViewInv contents app)
    (hb : app.browsed = true) (hquiet : app.inFlight = []) : Settled contents app := by
  have hloaded := h.loaded hb
  have hdrawn := h.drawn hb
  rw [App.toBrowse, hquiet, List.filter_nil] at hdrawn
  rw [hquiet] at hloaded
  refine ⟨hloaded.none, by rw [h.data, hloaded.none], ?_⟩
  rw [← hdrawn.none]
  cases hr : app.rendered with
  | none => rfl
  | some shown => rw [Option.map_some, Option.map_some, ← h.shown shown.1 shown.2 hr]

/-! ### Routes -/

/-- As long as the data belongs to the loaded index, a pending promise is never reused: every
route that finds other data than the active database's sends a request of its own. -/
theorem ensureDataLoaded_cases {contents : ℕ → α} {app : App α} (route : Route)
    (hdata : app.data = app.loadedDbIdx.map contents) :
    (app.active = none ∧ app.ensureDataLoaded route = app) ∨
      ∃ i, app.active = some i ∧
        ((app.loadedDbIdx = some i ∧
            app.ensureDataLoaded route = app.renderWith i (contents i) route) ∨
          app.ensureDataLoaded route = app.fetchBookmarks i route) := by
  unfold App.ensureDataLoaded
  cases ha : app.active with
  | none => exact Or.inl ⟨rfl, rfl⟩
  | some i =>
    refine Or.inr ⟨i, rfl, ?_⟩
    by_cases hi : app.loadedDbIdx = some i
    · refine Or.inl ⟨hi, ?_⟩
      rw [hi] at hdata
      dsimp only
      rw [if_pos hi, hdata]
      rfl
    · exact Or.inr (if_neg hi)

theorem renderRoute_view {contents : ℕ → α} {app : App α} (h : ViewInv contents app)
    (route : Route) : ViewInv contents (app.renderRoute route) := by
  unfold App.renderRoute
  dsimp only
  rcases ensureDataLoaded_cases route h.data with ⟨ha, heq⟩ | ⟨i, ha, ⟨hi, heq⟩ | heq⟩
  all_goals rw [heq]
  · -- sent to the list of databases: nothing is loaded and nothing drawn
    obtain ⟨hl, hr⟩ := h.idle ha
    split
    · exact ⟨h.data, h.shown, h.idle, fun _ => Or.inl (hl.trans ha.symm),
        fun _ => Or.inl (by rw [hr, ha]; rfl)⟩
    · exact h
  · unfold App.renderWith
    split
    · refine ⟨h.data, ?_, ?_, fun _ => Or.inl (hi.trans ha.symm), fun _ => Or.inl ha.symm⟩
      · rintro _ _ ⟨⟩
        rfl
      · intro hnone
        rw [ha] at hnone
        cases hnone
    · exact h
  · have hsub : ∀ q ∈ app.inFlight, q ∈ (app.fetchBookmarks i route).inFlight :=
      fun q hq => List.mem_append_left _ hq
    have hidle : app.active = none → app.loadedDbIdx = none ∧ app.rendered = none := h.idle
    split
    · rename_i hbrowse
      -- the new request brings the active database, and to the browse view
      obtain ⟨q, hq, hidx, hwaits⟩ : ∃ q ∈ (app.fetchBookmarks i route).inFlight,
          q.idx = i ∧ .browse ∈ q.waiting :=
        ⟨⟨app.nextId, i, [route]⟩, List.mem_append_right _ (List.mem_singleton_self _), rfl,
          by rw [hbrowse]; exact List.mem_singleton_self _⟩
      have hbrings : app.active = some q.idx := by rw [ha, hidx]
      have hdrawn : q ∈ (app.fetchBookmarks i route).toBrowse :=
        List.mem_filter.mpr ⟨hq, decide_eq_true hwaits⟩
      exact ⟨h.data, h.shown, hidle, fun _ => Or.inr ⟨q, hq, hbrings⟩,
        fun _ => Or.inr ⟨q, hdrawn, hbrings⟩⟩
    · refine ⟨h.data, h.shown, hidle, fun hb => (h.loaded hb).more hsub, fun hb => ?_⟩
      refine (h.drawn hb).more fun q hq => ?_
      obtain ⟨hq, hbrowse⟩ := List.mem_filter.mp hq
      exact List.mem_filter.mpr ⟨hsub q hq, hbrowse⟩

theorem selectDatabase_view {contents : ℕ → α} {app : App α} (h : ViewInv contents app) (i : ℕ) :
    ViewInv contents (app.selectDatabase i) := by
  apply renderRoute_view
  exact ⟨h.data, h.shown, by rintro ⟨⟩, by rintro ⟨⟩, by rintro ⟨⟩⟩

/-! ### Responses -/

theorem foldl_renderWith (i : ℕ) (d : α) (waiting : List Route) (app : App α) :
    waiting.foldl (App.renderWith i d) app =
      if .browse ∈ waiting then { app with rendered := some (i, d) } else app := by
  induction waiting generalizing app with
  | nil => rfl
  | cons route waiting ih =>
    rw [List.foldl_cons, ih, App.renderWith]
    by_cases hroute : route = .browse
    · subst hroute
      simp
    · have hne : Route.browse ≠ route := fun h => hroute h.symm
      simp [hroute, hne]

theorem mem_eraseIdx_of_ne {k : ℕ} {r q : Request} {requests : List Request}
    (hr : requests[k]? = some r) (hq : q ∈ requests) (hne : q ≠ r) : q ∈ requests.eraseIdx k := by
  rw [List.mem_eraseIdx_iff_getElem?]
  obtain ⟨j, hj⟩ := List.mem_iff_getElem?.mp hq
  refine ⟨j, ?_, hj⟩
  rintro rfl
  exact hne (Option.some.inj (hj.symm.trans hr))

theorem awaited_respond {want : Option ℕ} {r : Request} {requests left : List Request}
    (hleft : ∀ q ∈ requests, q ≠ r → q ∈ left)
    (hlate : want ≠ some r.idx → ∃ q ∈ requests, want = some q.idx) :
    Awaited want (some r.idx) left := by
  by_cases hwant : want = some r.idx
  · exact Or.inl hwant.symm
  · obtain ⟨q, hq, hidx⟩ := hlate hwant
    refine Or.inr ⟨q, hleft q hq ?_, hidx⟩
    rintro rfl
    exact hwant hidx

theorem not_awaited_respond {want held : Option ℕ} {r : Request} {requests left : List Request}
    (h : ¬ Awaited want held requests) (hr : r ∈ requests) (hleft : ∀ q ∈ left, q ∈ requests) :
    ¬ Awaited want (some r.idx) left := by
  rintro (hheld | ⟨q, hq, hidx⟩)
  · exact h (Or.inr ⟨r, hr, hheld.symm⟩)
  · exact h (Or.inr ⟨q, hleft q hq, hidx⟩)

theorem respond_view {contents : ℕ → α} {app : App α} (h : ViewInv contents app) {k : ℕ}
    {r : Request} (hr : app.inFlight[k]? = some r) (hok : LateCovered app (.arrive k)) :
    ViewInv contents (app.respond contents k r) := by
  have hlate := hok r hr
  have hleft : ∀ q ∈ app.inFlight, q ≠ r → q ∈ app.inFlight.eraseIdx k :=
    fun q hq hne => mem_eraseIdx_of_ne hr hq hne
  have hactive : app.active ≠ none := by
    intro hnone
    obtain ⟨q, _, hidx, _⟩ := hlate (by rw [hnone]; exact (Option.some_ne_none _).symm)
    rw [hnone] at hidx
    cases hidx
  have hloaded : Awaited app.active (some r.idx) (app.inFlight.eraseIdx k) := by
    apply awaited_respond hleft
    intro hwant
    obtain ⟨q, hq, hidx, _⟩ := hlate hwant
    exact ⟨q, hq, hidx⟩
  unfold App.respond
  rw [foldl_renderWith]
  split
  · rename_i hbrowse
    refine ⟨rfl, ?_, fun ha => absurd ha hactive, fun _ => hloaded, fun _ => ?_⟩
    · rintro _ _ ⟨⟩
      rfl
    · have hdrop : ∀ q ∈ app.toBrowse, q ≠ r →
          q ∈ (app.inFlight.eraseIdx k).filter (.browse ∈ ·.waiting) := by
        intro q hq hne
        obtain ⟨hq, hwaits⟩ := List.mem_filter.mp hq
        exact List.mem_filter.mpr ⟨hleft q hq hne, hwaits⟩
      refine awaited_respond hdrop fun hwant => ?_
      obtain ⟨q, hq, hidx, hwaits⟩ := hlate hwant
      exact ⟨q, List.mem_filter.mpr ⟨hq, decide_eq_true (hwaits hbrowse)⟩, hidx⟩
  · rename_i hbrowse
    refine ⟨rfl, h.shown, fun ha => absurd ha hactive, fun _ => hloaded, fun hb => ?_⟩
    refine (h.drawn hb).more fun q hq => ?_
    obtain ⟨hq, hwaits⟩ := List.mem_filter.mp hq
    refine List.mem_filter.mpr ⟨hleft q hq ?_, hwaits⟩
    rintro rfl
    exact hbrowse (of_decide_eq_true hwaits)

theorem exec_view {contents : ℕ → α} {app app' : App α} {e : Event} (h : ViewInv contents app)
    (hok : LateCovered app e) (hst : exec contents app e = some app') :
    ViewInv contents app' := by
  cases e with
  | select i =>
    cases hst
    exact selectDatabase_view h i
  | enter route =>
    cases hst
    exact renderRoute_view h route
  | arrive k =>
    obtain ⟨r, hr, rfl⟩ := Option.map_eq_some_iff.mp hst
    exact respond_view h hr hok

/-- When no late response comes uncovered, the view has settled on the active database as soon
as no request is in flight. -/
theorem settled_when_quiet {contents : ℕ → α} {stored : Option ℕ} {app : App α}
    (h : Reach (fun a => a = newApp stored) (Guarded (StepOf (exec contents)) LateCovered) app)
    (hquiet : app.inFlight = []) (hbrowsed : app.browsed = true) : Settled contents app := by
  have hview : ViewInv contents app := by
    refine h.invariant (I := ViewInv contents) (fun a ha => ?_)
      fun _ _ _ _ hv hst => exec_view hv hst.1 hst.2
    subst ha
    exact newApp_view contents stored
  exact Settled.of_view hview hbrowsed hquiet

theorem settled_when_quiet_late : ∃ app : App ℕ,
    Reach (fun a => a = newApp none) (Guarded (StepOf (exec id)) LateCovered) app ∧
      app.loadedDbIdx = some 1 ∧ Settled id app := by
  have hrun : ∃ app, runGuarded (exec id) LateCovered (newApp none)
      [.select 0, .select 1, .arrive 0, .arrive 0] = some app ∧ app.inFlight = [] ∧
        app.browsed = true ∧ app.loadedDbIdx = some 1 :=
    ⟨_, rfl, rfl, rfl, rfl⟩
  obtain ⟨app, hrun, hquiet, hbrowsed, hloaded⟩ := hrun
  have hreach := Reach.of_runGuarded (I := fun a : App ℕ => a = newApp none) _ (.start rfl) hrun
  exact ⟨app, hreach, hloaded, settled_when_quiet hreach hquiet hbrowsed⟩

theorem late_response_shown : ¬ ∀ app : App ℕ,
    Reach (fun a => a = newApp none) (StepOf (exec id)) app → app.inFlight = [] →
      app.browsed = true → Settled id app := by
  intro hevery
  have hrun : ∃ app, runList (exec (id : ℕ → ℕ)) (newApp none)
      [.select 0, .select 1, .arrive 1, .arrive 0] = some app ∧ app.inFlight = [] ∧
        app.browsed = true ∧ app.active = some 1 ∧ app.loadedDbIdx = some 0 :=
    ⟨_, rfl, rfl, rfl, rfl, rfl⟩
  obtain ⟨app, hrun, hquiet, hbrowsed, hactive, hloaded⟩ := hrun
  have hsettled := (hevery app (Reach.of_runList _ (.start rfl) hrun) hquiet hbrowsed).loaded
  rw [hactive, hloaded] at hsettled
  exact absurd hsettled (by decide)

/-! ### The condition cannot be weaker -/

/-- No request brings the active database to where it is missing: to the data, or to the view. -/
def Lost (app : App α) : Prop :=
  ¬ Awaited app.active app.loadedDbIdx app.inFlight ∨
    ¬ Awaited app.active (app.rendered.map Prod.fst) app.toBrowse

theorem Lost.not_settled {contents : ℕ → α} {app : App α} (h : Lost app) :
    ¬ Settled contents app := by
  intro hs
  rcases h with h | h
  · exact h (Or.inl hs.loaded)
  · apply h
    left
    rw [hs.rendered, Option.map_map]
    exact Option.map_id'

theorem respond_lost (contents : ℕ → α) {app : App α} {k : ℕ} {r : Request}
    (hr : app.inFlight[k]? = some r)
    (h : Lost app ∨ ¬ LateCovered app (.arrive k)) : Lost (app.respond contents k r) := by
  have hmem : r ∈ app.inFlight := List.mem_of_getElem? hr
  have hsub : ∀ q ∈ app.inFlight.eraseIdx k, q ∈ app.inFlight := fun q hq =>
    List.mem_of_mem_eraseIdx hq
  have hdrop : ∀ q ∈ (app.inFlight.eraseIdx k).filter (.browse ∈ ·.waiting), q ∈ app.toBrowse :=
    fun q hq => List.mem_filter.mpr ⟨hsub q (List.mem_filter.mp hq).1, (List.mem_filter.mp hq).2⟩
  have hlost : ¬ Awaited app.active (some r.idx) (app.inFlight.eraseIdx k) ∨
      (.browse ∈ r.waiting → ¬ Awaited app.active (some r.idx)
        ((app.inFlight.eraseIdx k).filter (.browse ∈ ·.waiting))) ∧
      (.browse ∉ r.waiting → ¬ Awaited app.active (app.rendered.map Prod.fst)
        ((app.inFlight.eraseIdx k).filter (.browse ∈ ·.waiting))) := by
    rcases h with (h | h) | h
    · exact Or.inl (not_awaited_respond h hmem hsub)
    · refine Or.inr ⟨fun hbrowse => ?_, fun _ hrest => h (hrest.more hdrop)⟩
      exact not_awaited_respond h (List.mem_filter.mpr ⟨hmem, decide_eq_true hbrowse⟩) hdrop
    · simp only [LateCovered, hr, Option.mem_some_iff, forall_eq'] at h
      push Not at h
      obtain ⟨hidx, hnone⟩ := h
      by_cases hany : ∃ q ∈ app.inFlight, app.active = some q.idx
      · -- another route waits for the active database, and this response is drawn
        obtain ⟨q, hq, hq_idx⟩ := hany
        refine Or.inr ⟨fun _ => ?_, fun hno => absurd (hnone q hq hq_idx).1 hno⟩
        rintro (hheld | ⟨p, hp, hp_idx⟩)
        · exact hidx hheld.symm
        · obtain ⟨hp, hwaits⟩ := List.mem_filter.mp hp
          exact (hnone p (hsub p hp) hp_idx).2 (of_decide_eq_true hwaits)
      · left
        rintro (hheld | ⟨p, hp, hp_idx⟩)
        · exact hidx hheld.symm
        · exact hany ⟨p, hsub p hp, hp_idx⟩
  unfold App.respond
  rw [foldl_renderWith]
  rcases hlost with hlost | ⟨hbrowse, hother⟩
  · left
    split <;> exact hlost
  · right
    split
    · exact hbrowse ‹_›
    · exact hother ‹_›

theorem drain_lost (contents : ℕ → α) {app : App α} (h : Lost app) : ∃ es app',
    runList (exec contents) app es = some app' ∧ app'.inFlight = [] ∧
      app'.browsed = app.browsed ∧ ¬ Settled contents app' := by
  induction hn : app.inFlight.length generalizing app with
  | zero => exact ⟨[], app, rfl, List.length_eq_zero_iff.mp hn, rfl, h.not_settled⟩
  | succ n ih =>
    obtain ⟨r, rs, hrs⟩ := List.exists_cons_of_length_eq_add_one hn
    have hr : app.inFlight[0]? = some r := by rw [hrs]; rfl
    have hlost := respond_lost contents hr (Or.inl h)
    have hrest : (app.respond contents 0 r).inFlight = rs := by
      rw [App.respond, foldl_renderWith, hrs]
      split <;> rfl
    have hbrowsed : (app.respond contents 0 r).browsed = app.browsed := by
      rw [App.respond, foldl_renderWith]
      split <;> rfl
    obtain ⟨es, app', hrun, hquiet, hb, hunsettled⟩ := ih hlost (by
      rw [hrest]
      rw [hrs] at hn
      exact Nat.succ.inj hn)
    refine ⟨.arrive 0 :: es, app', ?_, hquiet, hb.trans hbrowsed, hunsettled⟩
    rw [runList, exec, hr]
    exact hrun

/-- A request that does not bring the active database comes from before a selection. -/
def LateAfterBrowse (app : App α) : Prop :=
  ∀ r ∈ app.inFlight, app.active ≠ some r.idx → app.browsed = true

theorem exec_late {contents : ℕ → α} {app app' : App α} {e : Event}
    (hv : app.data = app.loadedDbIdx.map contents) (h : LateAfterBrowse app)
    (hst : exec contents app e = some app') :
    app'.data = app'.loadedDbIdx.map contents ∧ LateAfterBrowse app' := by
  have hroute : ∀ (a : App α) route, a.data = a.loadedDbIdx.map contents →
      (route = .browse ∨ LateAfterBrowse a) →
      (a.renderRoute route).data = (a.renderRoute route).loadedDbIdx.map contents ∧
        LateAfterBrowse (a.renderRoute route) := by
    intro a route ha hlate
    unfold App.renderRoute
    dsimp only
    split
    · refine ⟨?_, fun _ _ _ => rfl⟩
      rcases ensureDataLoaded_cases route ha with ⟨_, heq⟩ | ⟨i, _, ⟨_, heq⟩ | heq⟩
      all_goals rw [heq]
      · exact ha
      · unfold App.renderWith
        split <;> exact ha
      · exact ha
    · rename_i hroute
      replace hlate := hlate.resolve_left hroute
      rcases ensureDataLoaded_cases route ha with ⟨_, heq⟩ | ⟨i, hi, ⟨_, heq⟩ | heq⟩
      all_goals rw [heq]
      · exact ⟨ha, hlate⟩
      · rw [App.renderWith, if_neg hroute]
        exact ⟨ha, hlate⟩
      · refine ⟨ha, fun r hr hne => ?_⟩
        rcases List.mem_append.mp hr with hr | hr
        · exact hlate r hr hne
        · rw [List.mem_singleton.mp hr] at hne
          exact absurd hi hne
  cases e with
  | select i =>
    cases hst
    exact hroute _ .browse hv (Or.inl rfl)
  | enter route =>
    cases hst
    exact hroute app route hv (Or.inr h)
  | arrive k =>
    obtain ⟨r, hr, rfl⟩ := Option.map_eq_some_iff.mp hst
    rw [App.respond, foldl_renderWith]
    split <;> exact ⟨rfl, fun q hq hne => h q (List.mem_of_mem_eraseIdx hq) hne⟩

/-- A late response that comes uncovered can be followed, by nothing but the responses still to
come, by a state without requests in which the view has not settled. -/
theorem uncovered_unsettled {contents : ℕ → α} {stored : Option ℕ} {app app' : App α} {k : ℕ}
    (h : Reach (fun a => a = newApp stored) (StepOf (exec contents)) app)
    (hst : exec contents app (.arrive k) = some app') (hlate : ¬ LateCovered app (.arrive k)) :
    ∃ es last, runList (exec contents) app' es = some last ∧ last.inFlight = [] ∧
      last.browsed = true ∧ ¬ Settled contents last := by
  have hinv : app.data = app.loadedDbIdx.map contents ∧ LateAfterBrowse app := by
    refine h.invariant (I := fun a => a.data = a.loadedDbIdx.map contents ∧ LateAfterBrowse a)
      (fun a ha => ?_) fun _ _ _ _ hv hst => exec_late hv.1 hv.2 hst
    subst ha
    exact ⟨rfl, by rintro _ ⟨⟩⟩
  obtain ⟨r, hr, rfl⟩ := Option.map_eq_some_iff.mp hst
  obtain ⟨es, last, hrun, hquiet, hbrowsed, hunsettled⟩ :=
    drain_lost contents (respond_lost contents hr (Or.inr hlate))
  refine ⟨es, last, hrun, hquiet, hbrowsed.trans ?_, hunsettled⟩
  have hne : app.active ≠ some r.idx := by
    intro ha
    apply hlate
    intro q hq hne
    rw [hr] at hq
    cases hq
    exact absurd ha hne
  rw [App.respond, foldl_renderWith]
  have hb := hinv.2 r (List.mem_of_getElem? hr) hne
  split <;> exact hb

end LocalMarks.FrontEnd

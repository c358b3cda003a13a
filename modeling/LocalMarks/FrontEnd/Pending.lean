import LocalMarks.FrontEnd.Loading
import Mathlib.Data.List.InsertIdx
import Mathlib.Data.List.Nodup

/-!
# The pending request (main.js)

`ensureDataLoaded` by itself, with what it returns and with every way in which a request can end.
A response may hold any JSON, also null, false, 0 or an empty string, which count as no data.
-/

namespace LocalMarks.FrontEnd.Pending
open LocalMarks.Lib

variable {α : Type*}

/-- A call of `fetchBookmarks` whose promise has not been settled. -/
structure Request where
  id : ℕ
  idx : ℕ
  deriving DecidableEq

/-- The variables of main.js with the stored index of the active database and the requests in
flight. Data that counts as false is `none`, as is null. -/
structure Loader (α : Type*) where
  active : Option ℕ
  data : Option α
  loadedDbIdx : Option ℕ
  /-- The promise belongs to the request with this number. -/
  dataPromise : Option ℕ
  inFlight : List Request
  nextId : ℕ
  deriving DecidableEq

inductive Answer (α : Type*) where
  /-- To the list of databases. -/
  | redirected
  | ready (d : α)
  /-- The promise of the request with this number. -/
  | pending (id : ℕ)
  deriving DecidableEq

def Loader.fetchBookmarks (s : Loader α) (dbIdx : ℕ) : Loader α :=
  { s with
    inFlight := s.inFlight ++ [⟨s.nextId, dbIdx⟩]
    dataPromise := some s.nextId
    nextId := s.nextId + 1 }

def Loader.ensureDataLoaded (s : Loader α) : Answer α × Loader α :=
  match s.active with
  | none => (.redirected, s)
  | some dbIdx =>
    if s.loadedDbIdx = some dbIdx then
      match s.data, s.dataPromise with
      | some d, _ => (.ready d, s)
      | none, some p => (.pending p, s)
      | none, none => (.pending s.nextId, s.fetchBookmarks dbIdx)
    else (.pending s.nextId, s.fetchBookmarks dbIdx)

inductive Event (α : Type*) where
  | call
  | select (i : ℕ)
  /-- The response of the `k`-th request in flight. -/
  | arrive (k : ℕ) (d : Option α)
  | fail (k : ℕ)

def Loader.arrive (s : Loader α) (k : ℕ) (r : Request) (d : Option α) : Loader α :=
  { s with
    data := d
    loadedDbIdx := some r.idx
    dataPromise := none
    inFlight := s.inFlight.eraseIdx k }

def Loader.fail (s : Loader α) (k : ℕ) : Loader α :=
  { s with dataPromise := none, inFlight := s.inFlight.eraseIdx k }

def exec (s : Loader α) : Event α → Option (Loader α)
  | .call => some s.ensureDataLoaded.2
  | .select i => some { s with active := some i }
  | .arrive k d => s.inFlight[k]?.map fun r => s.arrive k r d
  | .fail k => s.inFlight[k]?.map fun _ => s.fail k

def newLoader (stored : Option ℕ) : Loader α := ⟨stored, none, none, none, [], 0⟩

/-! ### When the pending promise is returned -/

def Loader.Requests (s : Loader α) (i : ℕ) : Prop := ∃ r ∈ s.inFlight, r.idx = i

/-- A call returns the promise of a request for `i` that is in flight, and sends no other. -/
def Loader.Reuses (s : Loader α) (i : ℕ) : Prop :=
  ∃ r ∈ s.inFlight, r.idx = i ∧ s.ensureDataLoaded = (.pending r.id, s)

/-- The last response was of database `i` and held no data, and the promise is that of a request
for `i` that was sent since. -/
def Loader.Vacant (s : Loader α) (i : ℕ) : Prop :=
  s.loadedDbIdx = some i ∧ s.data = none ∧ ∃ r ∈ s.inFlight, r.idx = i ∧ s.dataPromise = some r.id

theorem ensureDataLoaded_cases {s : Loader α} {i : ℕ} (ha : s.active = some i) :
    (s.loadedDbIdx = some i ∧ ∃ d, s.data = some d ∧ s.ensureDataLoaded = (.ready d, s)) ∨
      (s.loadedDbIdx = some i ∧ s.data = none ∧
        ∃ p, s.dataPromise = some p ∧ s.ensureDataLoaded = (.pending p, s)) ∨
      ((s.loadedDbIdx = some i → s.data = none ∧ s.dataPromise = none) ∧
        s.ensureDataLoaded = (.pending s.nextId, s.fetchBookmarks i)) := by
  unfold Loader.ensureDataLoaded
  rw [ha]
  dsimp only
  by_cases hi : s.loadedDbIdx = some i
  · rw [if_pos hi]
    cases hd : s.data with
    | some d => exact Or.inl ⟨hi, d, rfl, rfl⟩
    | none =>
      cases hp : s.dataPromise with
      | some p => exact Or.inr (Or.inl ⟨hi, rfl, p, rfl, rfl⟩)
      | none => exact Or.inr (Or.inr ⟨fun _ => ⟨rfl, rfl⟩, rfl⟩)
  · rw [if_neg hi]
    exact Or.inr (Or.inr ⟨fun h => absurd h hi, rfl⟩)

theorem fetchBookmarks_ne (s : Loader α) (i : ℕ) : s.fetchBookmarks i ≠ s := by
  intro h
  have hid : s.nextId + 1 = s.nextId := congrArg Loader.nextId h
  omega

theorem reuses_iff {s : Loader α} {i : ℕ} (ha : s.active = some i) :
    s.Reuses i ↔ s.Vacant i := by
  constructor
  · rintro ⟨r, hr, hidx, hcall⟩
    rcases ensureDataLoaded_cases ha with ⟨-, d, -, heq⟩ | ⟨hi, hd, p, hp, heq⟩ | ⟨-, heq⟩
    · rw [heq] at hcall
      cases congrArg Prod.fst hcall
    · rw [heq] at hcall
      cases congrArg Prod.fst hcall
      exact ⟨hi, hd, r, hr, hidx, hp⟩
    · rw [heq] at hcall
      exact absurd (congrArg Prod.snd hcall) (fetchBookmarks_ne s i)
  · rintro ⟨hi, hd, r, hr, hidx, hp⟩
    rcases ensureDataLoaded_cases ha with ⟨-, d, hd', -⟩ | ⟨-, -, p, hp', heq⟩ | ⟨hno, -⟩
    · rw [hd] at hd'
      cases hd'
    · cases hp.symm.trans hp'
      exact ⟨r, hr, hidx, heq⟩
    · rw [hp] at hno
      cases (hno hi).2

theorem call_cases (s : Loader α) : s.ensureDataLoaded.2 = s ∨
    ∃ i, s.active = some i ∧ s.ensureDataLoaded.2 = s.fetchBookmarks i := by
  cases ha : s.active with
  | none =>
    left
    rw [Loader.ensureDataLoaded, ha]
  | some i =>
    rcases ensureDataLoaded_cases ha with ⟨-, d, -, heq⟩ | ⟨-, -, p, -, heq⟩ | ⟨-, heq⟩
    · exact Or.inl (congrArg Prod.snd heq)
    · exact Or.inl (congrArg Prod.snd heq)
    · exact Or.inr ⟨i, rfl, congrArg Prod.snd heq⟩

/-! ### Runs -/

/-- A call during a request for the active database comes where its promise is returned. -/
def CallsVacant (s : Loader α) : Event α → Prop
  | .call => ∀ i, s.active = some i → s.Requests i → s.Vacant i
  | _ => True

theorem exec_single {s s' : Loader α} {e : Event α} (h : (s.inFlight.map Request.idx).Nodup)
    (hok : CallsVacant s e) (hst : exec s e = some s') : (s'.inFlight.map Request.idx).Nodup := by
  have hless : ∀ k, ((s.inFlight.eraseIdx k).map Request.idx).Nodup := fun k =>
    h.sublist ((List.eraseIdx_sublist s.inFlight k).map Request.idx)
  cases e with
  | call =>
    cases hst
    rcases call_cases s with heq | ⟨i, ha, heq⟩
    · rwa [heq]
    · -- a request is sent, so there was none for the active database
      have hnew : ¬ s.Requests i := by
        intro hreq
        obtain ⟨r, -, -, hcall⟩ := (reuses_iff ha).mpr (hok i ha hreq)
        rw [hcall] at heq
        exact fetchBookmarks_ne s i heq.symm
      rw [heq, Loader.fetchBookmarks, List.map_append]
      refine List.nodup_append.mpr ⟨h, List.nodup_singleton i, ?_⟩
      rintro a hmem b hb rfl
      have hai : a = i := List.mem_singleton.mp hb
      exact hnew (List.mem_map.mp (hai ▸ hmem))
  | select i =>
    cases hst
    exact h
  | arrive k d =>
    obtain ⟨r, -, rfl⟩ := Option.map_eq_some_iff.mp hst
    exact hless k
  | fail k =>
    obtain ⟨r, -, rfl⟩ := Option.map_eq_some_iff.mp hst
    exact hless k

/-- A call during a request for the active database returns the promise of that request exactly
when the last response was of this database and held no data. Where all such calls do, no
database is requested a second time while a request for it is in flight. -/
theorem pendingReused_iff (stored : Option ℕ) :
    (∀ s : Loader α, Reach (fun t => t = newLoader stored) (StepOf exec) s →
      ∀ i, s.active = some i → s.Requests i → (s.Reuses i ↔ s.Vacant i)) ∧
    ∀ s : Loader α, Reach (fun t => t = newLoader stored) (Guarded (StepOf exec) CallsVacant) s →
      (s.inFlight.map Request.idx).Nodup := by
  constructor
  · intro s _ i ha _
    exact reuses_iff ha
  · intro s hs
    refine hs.invariant (I := fun s => (s.inFlight.map Request.idx).Nodup) ?_ ?_
    · rintro s rfl
      exact List.nodup_nil
    · intro s e s' _ h hst
      exact exec_single h hst.1 hst.2

theorem pendingReused_iff_null : ∃ s : Loader ℕ,
    runList exec (newLoader (some 0)) [.call, .arrive 0 none, .call] = some s ∧ s.Reuses 0 := by
  have hrun : ∃ s : Loader ℕ,
      runList exec (newLoader (some 0)) [.call, .arrive 0 none, .call] = some s ∧
        s.active = some 0 ∧ s.Requests 0 ∧ s.Vacant 0 :=
    ⟨_, rfl, rfl, ⟨⟨1, 0⟩, List.mem_singleton_self _, rfl⟩, rfl, rfl,
      ⟨1, 0⟩, List.mem_singleton_self _, rfl, rfl⟩
  obtain ⟨s, hrun, ha, hreq, hv⟩ := hrun
  have hreach : Reach (fun t => t = newLoader (some 0)) (StepOf exec) s :=
    Reach.of_runList _ (.start rfl) hrun
  exact ⟨s, hrun, ((pendingReused_iff (some 0)).1 s hreach 0 ha hreq).mpr hv⟩

theorem pending_not_reused : ¬ ∀ s : Loader ℕ,
    Reach (fun t => t = newLoader (some 0)) (StepOf exec) s →
      ∀ i, s.active = some i → s.Requests i → s.Reuses i := by
  intro hevery
  have hrun : ∃ s : Loader ℕ, runList exec (newLoader (some 0)) [.call] = some s ∧
      s.active = some 0 ∧ s.Requests 0 ∧ s.loadedDbIdx = none ∧
        s.ensureDataLoaded.2.inFlight = [⟨0, 0⟩, ⟨1, 0⟩] :=
    ⟨_, rfl, rfl, ⟨⟨0, 0⟩, List.mem_singleton_self _, rfl⟩, rfl, rfl⟩
  obtain ⟨s, hrun, ha, hreq, hloaded, -⟩ := hrun
  have hreuses := hevery s (Reach.of_runList _ (.start rfl) hrun) 0 ha hreq
  rw [((reuses_iff ha).mp hreuses).1] at hloaded
  cases hloaded

/-! ### Responses with data -/

/-- Bookmarks are an array, which counts as data also when it is empty. -/
def HoldsData (_ : Loader α) : Event α → Prop
  | .arrive _ d => d ≠ none
  | _ => True

theorem exec_loaded {s s' : Loader α} {e : Event α} (h : s.data = none → s.loadedDbIdx = none)
    (hok : HoldsData s e) (hst : exec s e = some s') : s'.data = none → s'.loadedDbIdx = none := by
  cases e with
  | call =>
    cases hst
    rcases call_cases s with heq | ⟨i, -, heq⟩
    · rwa [heq]
    · rw [heq]
      exact h
  | select i =>
    cases hst
    exact h
  | arrive k d =>
    obtain ⟨r, -, rfl⟩ := Option.map_eq_some_iff.mp hst
    exact fun hd => absurd hd hok
  | fail k =>
    obtain ⟨r, -, rfl⟩ := Option.map_eq_some_iff.mp hst
    exact h

/-- As long as every response holds data, a pending promise is never returned: a call finds the
data of the active database or sends a request of its own. -/
theorem call_sends_again {stored : Option ℕ} {s : Loader α}
    (hs : Reach (fun t => t = newLoader stored) (Guarded (StepOf exec) HoldsData) s) {i : ℕ}
    (ha : s.active = some i) :
    (∃ d, s.data = some d ∧ s.ensureDataLoaded = (.ready d, s)) ∨
      s.ensureDataLoaded = (.pending s.nextId, s.fetchBookmarks i) := by
  have hloaded : s.data = none → s.loadedDbIdx = none := by
    refine hs.invariant (I := fun s => s.data = none → s.loadedDbIdx = none) ?_ ?_
    · rintro s rfl _
      rfl
    · intro s e s' _ h hst
      exact exec_loaded h hst.1 hst.2
  rcases ensureDataLoaded_cases ha with ⟨-, d, hd, heq⟩ | ⟨hi, hd, -⟩ | ⟨-, heq⟩
  · exact Or.inl ⟨d, hd, heq⟩
  · rw [hloaded hd] at hi
    cases hi
  · exact Or.inr heq

/-! ### The app of Loading.lean -/

def ofApp (app : App α) : Loader α where
  active := app.active
  data := app.data
  loadedDbIdx := app.loadedDbIdx
  dataPromise := app.dataPromise
  inFlight := app.inFlight.map fun r => ⟨r.id, r.idx⟩
  nextId := app.nextId

def ofEvent (contents : ℕ → α) (app : App α) : FrontEnd.Event → List (Event α)
  | .select i => [.select i, .call]
  | .enter _ => [.call]
  | .arrive k => app.inFlight[k]?.toList.map fun r => .arrive k (some (contents r.idx))

theorem ofApp_renderRoute (app : App α) (route : Route) :
    ofApp (app.renderRoute route) = (ofApp app).ensureDataLoaded.2 := by
  have hroute : ofApp (app.renderRoute route) = ofApp (app.ensureDataLoaded route) := by
    unfold App.renderRoute
    dsimp only
    split <;> rfl
  have hfetch : ∀ i, ofApp (app.fetchBookmarks i route) = (ofApp app).fetchBookmarks i := by
    intro i
    simp only [ofApp, App.fetchBookmarks, Loader.fetchBookmarks, List.map_append, List.map_cons,
      List.map_nil]
  have hawait : ∀ p, ofApp (app.awaitPromise p route) = ofApp app := by
    intro p
    have hids : ∀ r : FrontEnd.Request, (fun r : FrontEnd.Request => Request.mk r.id r.idx)
        (if r.id = p then { r with waiting := r.waiting ++ [route] } else r) = ⟨r.id, r.idx⟩ := by
      intro r
      split <;> rfl
    simp only [ofApp, App.awaitPromise, List.map_map, Function.comp_def, hids]
  have hrender : ∀ i d, ofApp (app.renderWith i d route) = ofApp app := by
    intro i d
    unfold App.renderWith
    split <;> rfl
  have hactive : (ofApp app).active = app.active := rfl
  have hloaded : (ofApp app).loadedDbIdx = app.loadedDbIdx := rfl
  have hdata : (ofApp app).data = app.data := rfl
  have hpromise : (ofApp app).dataPromise = app.dataPromise := rfl
  rw [hroute]
  unfold App.ensureDataLoaded Loader.ensureDataLoaded
  rw [hactive, hloaded, hdata, hpromise]
  cases app.active with
  | none => rfl
  | some i =>
    dsimp only
    by_cases hi : app.loadedDbIdx = some i
    · rw [if_pos hi, if_pos hi]
      cases app.data with
      | some d => exact hrender i d
      | none =>
        cases app.dataPromise with
        | some p => exact hawait p
        | none => exact hfetch i
    · rw [if_neg hi, if_neg hi]
      exact hfetch i

/-- Every step of the app is a run of the loader, in which every response holds data. -/
theorem ofApp_exec {contents : ℕ → α} {app app' : App α} {e : FrontEnd.Event}
    (h : FrontEnd.exec contents app e = some app') :
    runList exec (ofApp app) (ofEvent contents app e) = some (ofApp app') ∧
      ∀ x ∈ ofEvent contents app e, ∀ s, HoldsData s x := by
  cases e with
  | select i =>
    cases h
    have hcall := ofApp_renderRoute { app with active := some i, browsed := false } .browse
    constructor
    · rw [App.selectDatabase, hcall]
      rfl
    · intro x hx s
      simp only [ofEvent, List.mem_cons, List.not_mem_nil, or_false] at hx
      rcases hx with rfl | rfl <;> exact trivial
  | enter route =>
    cases h
    constructor
    · rw [ofApp_renderRoute]
      rfl
    · intro x hx s
      rw [List.mem_singleton.mp hx]
      exact trivial
  | arrive k =>
    obtain ⟨r, hr, rfl⟩ := Option.map_eq_some_iff.mp h
    have hk : (ofApp app).inFlight[k]? = some ⟨r.id, r.idx⟩ := by
      rw [ofApp, List.getElem?_map, hr]
      rfl
    have hafter : ofApp (app.respond contents k r) =
        (ofApp app).arrive k ⟨r.id, r.idx⟩ (some (contents r.idx)) := by
      have hless : (app.inFlight.eraseIdx k).map (fun r => Request.mk r.id r.idx) =
          (app.inFlight.map fun r => Request.mk r.id r.idx).eraseIdx k :=
        (List.eraseIdx_map ..).symm
      rw [App.respond, foldl_renderWith]
      split <;> simp only [Loader.arrive, ofApp, hless]
    constructor
    · rw [ofEvent, hr, hafter]
      show ((exec (ofApp app) (.arrive k (some (contents r.idx)))).bind
        fun s => runList exec s []) = _
      rw [exec, hk]
      rfl
    · intro x hx s
      rw [ofEvent, hr] at hx
      rw [List.mem_singleton.mp hx]
      exact Option.some_ne_none _

/-- A state of the app is one of the loader, so that no route of the app ever waits for a request
that another one has sent. -/
theorem ofApp_reach {contents : ℕ → α} {stored : Option ℕ} {app : App α}
    (h : Reach (fun a => a = newApp stored) (StepOf (FrontEnd.exec contents)) app) :
    Reach (fun t => t = newLoader stored) (Guarded (StepOf exec) HoldsData) (ofApp app) := by
  induction h with
  | start ha =>
    subst ha
    exact .start rfl
  | next e _ hst ih =>
    obtain ⟨hrun, hdata⟩ := ofApp_exec hst
    exact ih.of_runList_guarded _ hdata hrun

end LocalMarks.FrontEnd.Pending

import LocalMarks.FrontEnd.Text
import LocalMarks.Lib.Reach
import Mathlib.Logic.Function.Basic

/-!
# Notes and the cache that marks the cards (notes.js, data.js)

Notes are kept per database in `localStorage`. `notes.js` reads them anew at every call; the
`hasNote` of `data.js`, which marks a card, reads the table of the active database once and keeps
it until a note is changed.
-/

namespace LocalMarks.FrontEnd.Notes
open LocalMarks.Lib

structure Note where
  text : Str
  updated : ℕ
  deriving DecidableEq

abbrev Table := Str → Option Note

/-- `localStorage` and `notesCache`. The notes are stored under the index of the database, which
is null before the first selection. -/
structure App where
  activeDb : Option ℕ
  stored : Option ℕ → Table
  notesCache : Option Table

/-- The page as it is loaded, with what earlier visits have stored. -/
def newApp (activeDb : Option ℕ) (stored : Option ℕ → Table) : App where
  activeDb := activeDb
  stored := stored
  notesCache := none

/-! ### notes.js -/

def App.getNote (app : App) (url : Str) : Option Note := app.stored app.activeDb url

def App.setNote (app : App) (url text : Str) (now : ℕ) : App :=
  let note : Option Note := if trim text = [] then none else some ⟨trim text, now⟩
  { app with
    stored := Function.update app.stored app.activeDb
      (Function.update (app.stored app.activeDb) url note) }

def App.deleteNote (app : App) (url : Str) (now : ℕ) : App := app.setNote url [] now

/-! ### data.js -/

def App.setActiveDbIndex (app : App) (idx : ℕ) : App := { app with activeDb := some idx }

def App.invalidateNotesCache (app : App) : App := { app with notesCache := none }

/-- The table that is looked at: the cached one, or that of the active database, which is then
cached. -/
def App.notesTable (app : App) : Table := app.notesCache.getD (app.stored app.activeDb)

def App.hasNote (app : App) (url : Str) : Bool × App :=
  ((app.notesTable url).isSome, { app with notesCache := some app.notesTable })

inductive Event where
  /-- The save button of the note modal. -/
  | save (url text : Str) (now : ℕ)
  /-- The delete button of the note modal. -/
  | delete (url : Str) (now : ℕ)
  | switchDb (idx : ℕ)
  | buildCard (url : Str)

def exec (app : App) : Event → Option App
  | .save url text now => some (app.setNote url text now).invalidateNotesCache
  | .delete url now => some (app.deleteNote url now).invalidateNotesCache
  | .switchDb idx => some (app.setActiveDbIndex idx)
  | .buildCard url => some (app.hasNote url).2

def Started (app : App) : Prop := ∃ activeDb stored, app = newApp activeDb stored

/-- A card is marked exactly when there is a note for it in the active database. -/
def Marked (app : App) : Prop := ∀ url, (app.hasNote url).1 = (app.getNote url).isSome

/-- A switch of the database comes when nothing is cached, or goes to a database that has notes
for the URLs of the cached table. -/
def SameNotes (app : App) : Event → Prop
  | .switchDb idx => ∀ table ∈ app.notesCache, ∀ url,
      (table url).isSome = (app.stored (some idx) url).isSome
  | _ => True

/-! ### Agreement -/

theorem marked_uncached {app : App} (h : app.notesCache = none) : Marked app := by
  intro url
  rw [App.hasNote, App.notesTable, h]
  rfl

theorem marked_iff {app : App} : Marked app ↔
    ∀ table ∈ app.notesCache, ∀ url, (table url).isSome = (app.getNote url).isSome := by
  cases hc : app.notesCache with
  | none => exact iff_of_true (marked_uncached hc) nofun
  | some table => simp [Marked, App.hasNote, App.notesTable, hc]

theorem switchDb_marked (app : App) (idx : ℕ) :
    Marked (app.setActiveDbIndex idx) ↔ SameNotes app (.switchDb idx) := marked_iff

theorem exec_marked {app app' : App} {e : Event} (h : Marked app) (hok : SameNotes app e)
    (hst : exec app e = some app') : Marked app' := by
  cases e with
  | save url text now =>
    cases hst
    exact marked_uncached rfl
  | delete url now =>
    cases hst
    exact marked_uncached rfl
  | switchDb idx =>
    cases hst
    exact (switchDb_marked app idx).mpr hok
  | buildCard url =>
    cases hst
    exact fun url => h url

/-- As long as no switch leaves a table of other notes in the cache, the cards are marked for the
active database. -/
theorem marked_when_same {app : App} (h : Reach Started (Guarded (StepOf exec) SameNotes) app) :
    Marked app := by
  refine h.invariant (I := Marked) (fun app hstart => ?_)
    fun _ _ _ _ hm hst => exec_marked hm hst.1 hst.2
  obtain ⟨activeDb, stored, rfl⟩ := hstart
  exact marked_uncached rfl

theorem switch_unmarked {app app' : App} {e : Event} (hst : exec app e = some app')
    (hno : ¬ SameNotes app e) : ¬ Marked app' := by
  cases e with
  | switchDb idx =>
    cases hst
    exact fun h => hno ((switchDb_marked app idx).mp h)
  | save url text now => exact absurd trivial hno
  | delete url now => exact absurd trivial hno
  | buildCard url => exact absurd trivial hno

def rustUrl : Str := "https://rust.org".toList

theorem marked_after_save : ∃ app, Reach Started (Guarded (StepOf exec) SameNotes) app ∧
    app.activeDb = some 1 ∧ Marked app := by
  let app := newApp (some 0) fun _ _ => none
  let saved := ((app.hasNote rustUrl).2.setNote rustUrl "read".toList 7).invalidateNotesCache
  have hstart : Reach Started (Guarded (StepOf exec) SameNotes) app := .start ⟨_, _, rfl⟩
  have hcard : Reach Started (Guarded (StepOf exec) SameNotes) (app.hasNote rustUrl).2 :=
    hstart.next (.buildCard rustUrl) ⟨trivial, rfl⟩
  have hsave : Reach Started (Guarded (StepOf exec) SameNotes) saved :=
    hcard.next (.save rustUrl "read".toList 7) ⟨trivial, rfl⟩
  have hswitch : Reach Started (Guarded (StepOf exec) SameNotes) (saved.setActiveDbIndex 1) :=
    hsave.next (.switchDb 1) ⟨nofun, rfl⟩
  exact ⟨_, hswitch, rfl, marked_when_same hswitch⟩

theorem switched_unmarked : ¬ ∀ app, Reach Started (StepOf exec) app → Marked app := by
  intro h
  let app := newApp (some 0) fun idx _ => if idx = some 1 then some ⟨"read".toList, 7⟩ else none
  have hswitch : Reach Started (StepOf exec) ((app.hasNote rustUrl).2.setActiveDbIndex 1) :=
    Reach.of_runList [.buildCard rustUrl, .switchDb 1] (.start ⟨_, _, rfl⟩) rfl
  exact absurd (h _ hswitch rustUrl) (by decide)

end LocalMarks.FrontEnd.Notes

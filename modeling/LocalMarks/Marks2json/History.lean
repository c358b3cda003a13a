import LocalMarks.Lib.Reach
import LocalMarks.Marks2json.FindDead

/-!
# Histories of a database

A database is created once and then goes through any number of later commands. Each run brings its
own files, options and network; a run that raises leaves the stored file as it was.
-/

namespace LocalMarks.Marks2json
open LocalMarks.Lib

/-- A later run on a stored database. What find-dead writes is the database that goes on. -/
inductive Command where
  | update (lib : PyLib) (args : RunArgs) (override : Bool)
  | findDead (lib : PyLib) (args : FindDeadArgs) (healthy : Bool)

def Command.run (db : Database) : Command → Outcome
  | .update lib args override => cmdUpdate lib args override db
  | .findDead lib args healthy => cmdFindDead lib args healthy db

def Outcome.stored (db : Database) : Outcome → Database
  | .raised => db
  | .nothingWritten => db
  | .written db' => db'

def Outcome.wrote : Outcome → Bool
  | .written _ => true
  | _ => false

theorem Outcome.eq_written {outcome : Outcome} (h : outcome.wrote = true) (db : Database) :
    outcome = .written (outcome.stored db) := by
  cases outcome with
  | raised => cases h
  | nothingWritten => cases h
  | written db' => rfl

def nextDatabase (db : Database) (cmd : Command) : Option Database := some ((cmd.run db).stored db)

def Created (db : Database) : Prop := ∃ lib args, cmdCreate lib args = .written db

/-- The databases that create and later runs leave behind. -/
def Stored (db : Database) : Prop := Reach Created (StepOf nextDatabase) db

theorem Stored.run {db : Database} (h : Stored db) (cmd : Command) :
    Stored ((cmd.run db).stored db) :=
  h.next cmd rfl

theorem Command.run_agrees {db db' : Database} {cmd : Command} (hdb : db.Agrees)
    (h : cmd.run db = .written db') : db'.Agrees := by
  cases cmd with
  | update lib args override => exact cmdUpdate_agrees hdb h
  | findDead lib args healthy => exact cmdFindDead_agrees h

theorem nextDatabase_agrees {db db' : Database} {cmd : Command} (hdb : db.Agrees)
    (h : nextDatabase db cmd = some db') : db'.Agrees := by
  obtain rfl := Option.some.inj h
  cases hrun : cmd.run db with
  | raised => exact hdb
  | nothingWritten => exact hdb
  | written db'' => exact Command.run_agrees hdb hrun

theorem Stored.agrees {db : Database} (h : Stored db) : db.Agrees := by
  apply Reach.invariant (I := Database.Agrees) ?_ ?_ h
  · rintro db ⟨lib, args, hcreate⟩
    exact cmdCreate_agrees hcreate
  · intro db cmd db' _ hdb hstep
    exact nextDatabase_agrees hdb hstep

/-- The stored hashes are what a recount of the stored bookmarks gives. -/
theorem stored_counters_recounted {db : Database} (h : Stored db) :
    (∀ domain, db.bookMarkDomainHash.lookup domain =
      (recalcCounters db.bookMarks).domainCounter.lookup domain) ∧
    (∀ tag, db.bookMarkTagHash.lookup tag =
      (recalcCounters db.bookMarks).tagCounter.lookup tag) ∧
    (∀ domain n, db.bookMarkDomainHash.lookup domain = some n → 0 < n) ∧
    (∀ tag n, db.bookMarkTagHash.lookup tag = some n → 0 < n) :=
  ⟨h.agrees.domain_lookup, h.agrees.tag_lookup, fun _ _ => h.agrees.domain_pos,
    fun _ _ => h.agrees.tag_pos⟩

/-! ### A history -/

/-- The library on plain ASCII text and on the addresses below. -/
def plainLib : PyLib where
  lower := fun s => s.map Char.toLower
  capitalize := fun s => (s.take 1).map Char.toUpper ++ (s.drop 1).map Char.toLower
  hostname := fun url => some ((url.drop httpsScheme.length).takeWhile (· ≠ '/'))

def plainArgs (text : String) : RunArgs where
  files := [⟨["dev.txt".toList], .text text.toList⟩]
  icon := false
  iconCache := ∅
  channelIcon := fun _ _ => .failed

def createdArgs : RunArgs :=
  plainArgs "A | https://a.org/x | #x #x #y\nno link here\nB | https://www.b.org | #y\n"

/-- One known URL on two lines, one of them unchanged, and a new URL. -/
def overrideArgs : RunArgs :=
  plainArgs "A2 | https://a.org/x | #x\nB | https://www.b.org | #y\nC | https://a.org/z"

def createdDatabase : Database := (cmdCreate plainLib createdArgs).stored (.of [] .empty)

def updatedDatabase : Database :=
  ((Command.update plainLib overrideArgs true).run createdDatabase).stored createdDatabase

theorem updatedDatabase_stored : Stored updatedDatabase :=
  Stored.run (Reach.start ⟨plainLib, createdArgs, Outcome.eq_written (by decide +kernel) _⟩) _

/-- A tag given twice by one bookmark is taken back twice when the bookmark is overwritten. -/
theorem stored_counters_recounted_override :
    createdDatabase.bookMarkTagHash.lookup ['#', 'x'] = some 2 ∧
    updatedDatabase.bookMarkTagHash.lookup ['#', 'x'] = some 1 ∧
    (∀ domain, updatedDatabase.bookMarkDomainHash.lookup domain =
      (recalcCounters updatedDatabase.bookMarks).domainCounter.lookup domain) ∧
    (∀ tag n, updatedDatabase.bookMarkTagHash.lookup tag = some n → 0 < n) :=
  have h := stored_counters_recounted updatedDatabase_stored
  ⟨by decide +kernel, by decide +kernel, h.1, h.2.2.2⟩

end LocalMarks.Marks2json

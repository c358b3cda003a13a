import LocalMarks.Marks2json.History
import LocalMarks.Marks2json.Store

/-!
# Histories of the database file

The commands on the file itself: a run loads its text and writes a new one. A history of the file
is one of databases, whatever order the dictionaries are printed in.
-/

namespace LocalMarks.Marks2json
open LocalMarks.Lib

/-! ### The hashes decide nothing -/

def MergeState.plain (st : MergeState) : MergeState := { st with counters := .empty }

section Plain
variable {st st' : MergeState} (h : st.plain = st'.plain)

include h

theorem plain_addedTotal : st.addedTotal = st'.addedTotal := (MergeState.mk.inj h).2.2.2.2.2.1

theorem plain_updatedTotal : st.updatedTotal = st'.updatedTotal :=
  (MergeState.mk.inj h).2.2.2.2.2.2

theorem plain_bookMarks : st.bookMarks = st'.bookMarks := (MergeState.mk.inj h).2.1

theorem plain_categories : st.categories = st'.categories := by
  rw [MergeState.categories, MergeState.categories, (MergeState.mk.inj h).1, plain_bookMarks h]

theorem plain_existing : st.existing = st'.existing := by
  funext url
  rw [MergeState.existing, MergeState.existing, (MergeState.mk.inj h).1,
    (MergeState.mk.inj h).2.2.2.1]

end Plain

theorem mergeBookmark_plain (override : Bool) (acc : MergeState × List ℕ) (bm : Bookmark) :
    (mergeBookmark override (acc.1.plain, acc.2) bm).1.plain =
        (mergeBookmark override acc bm).1.plain ∧
      (mergeBookmark override (acc.1.plain, acc.2) bm).2 = (mergeBookmark override acc bm).2 := by
  obtain ⟨st, addedBms⟩ := acc
  have hexisting : st.plain.existing bm.url = st.existing bm.url := rfl
  unfold mergeBookmark
  dsimp only
  rw [hexisting, show st.plain.knownBookmarks = st.knownBookmarks from rfl]
  by_cases hknown : bm ∈ st.knownBookmarks
  · rw [if_pos hknown, if_pos hknown]
    exact ⟨rfl, rfl⟩
  · rw [if_neg hknown, if_neg hknown]
    cases st.existing bm.url with
    | none => exact ⟨rfl, rfl⟩
    | some found =>
      cases override with
      | false => exact ⟨rfl, rfl⟩
      | true => exact ⟨rfl, rfl⟩

theorem mergeBookmarks_plain (override : Bool) (bms : List Bookmark)
    {acc acc' : MergeState × List ℕ} (hst : acc.1.plain = acc'.1.plain) (hadded : acc.2 = acc'.2) :
    (bms.foldl (mergeBookmark override) acc).1.plain =
        (bms.foldl (mergeBookmark override) acc').1.plain ∧
      (bms.foldl (mergeBookmark override) acc).2 =
        (bms.foldl (mergeBookmark override) acc').2 := by
  induction bms generalizing acc acc' with
  | nil => exact ⟨hst, hadded⟩
  | cons bm bms ih =>
    have h := mergeBookmark_plain override acc bm
    have h' := mergeBookmark_plain override acc' bm
    rw [hst, hadded] at h
    exact ih (h.1.symm.trans h'.1) (h.2.symm.trans h'.2)

theorem mergeCategory_plain (override : Bool) {st st' : MergeState} (h : st.plain = st'.plain)
    (newCat : Category) :
    (mergeCategory override st newCat).plain = (mergeCategory override st' newCat).plain := by
  obtain ⟨t, added, hfold, hcase⟩ := mergeCategory_cases override st newCat
  obtain ⟨t', added', hfold', hcase'⟩ := mergeCategory_cases override st' newCat
  have hstart : (st, ([] : List ℕ)).1.plain = (st', ([] : List ℕ)).1.plain := h
  have hmerge := mergeBookmarks_plain override newCat.bookmarks hstart rfl
  rw [hfold, hfold'] at hmerge
  obtain ⟨hplain, rfl⟩ := hmerge
  have hadded := plain_addedTotal hplain
  have hmarks := plain_bookMarks hplain
  rcases hcase with ⟨rfl, hcat⟩ | ⟨hne, hcat⟩
  · rcases hcase' with ⟨-, hcat'⟩ | ⟨hne', -⟩
    · rw [hcat, hcat']
      exact hplain
    · exact absurd rfl hne'
  · rcases hcase' with ⟨rfl, -⟩ | ⟨-, hcat'⟩
    · exact absurd rfl hne
    · rw [hcat, hcat', hadded, hmarks]
      exact congrArg (fun s : MergeState => { s with
        addedTotal := t'.addedTotal + added.length
        bookMarks := extendCategory newCat.category added t'.bookMarks }) hplain

theorem mergeCategories_plain (override : Bool) (newCats : List Category) {st st' : MergeState}
    (h : st.plain = st'.plain) :
    (newCats.foldl (mergeCategory override) st).plain =
      (newCats.foldl (mergeCategory override) st').plain := by
  induction newCats generalizing st st' with
  | nil => exact h
  | cons newCat newCats ih => exact ih (mergeCategory_plain override h newCat)

theorem load_plain {db db' : Database} (h : db.bookMarks = db'.bookMarks) :
    (MergeState.load db).plain = (MergeState.load db').plain := by
  unfold MergeState.load MergeState.plain
  rw [h]

theorem cmdUpdate_bookMarks {lib : PyLib} {args : RunArgs} {override : Bool} {db db' d : Database}
    (h : db.bookMarks = db'.bookMarks) (hrun : cmdUpdate lib args override db = .written d) :
    ∃ d', cmdUpdate lib args override db' = .written d' ∧ d.bookMarks = d'.bookMarks := by
  have hplain := load_plain h
  have hexisting := plain_existing hplain
  unfold cmdUpdate at hrun ⊢
  dsimp only at hrun ⊢
  rw [hexisting] at hrun
  split at hrun
  · cases hrun
  next newCategories st hparse =>
    have hmerge := mergeCategories_plain override newCategories hplain
    have hadded := plain_addedTotal hmerge
    have hupdated := plain_updatedTotal hmerge
    have hcategories := plain_categories hmerge
    split at hrun
    · cases hrun
    next hchanged =>
      rw [if_neg fun hidle => hchanged ⟨hadded.trans hidle.1, hupdated.trans hidle.2⟩]
      refine ⟨_, rfl, ?_⟩
      rw [← Outcome.written.inj hrun, hcategories]
      rfl

theorem cmdFindDead_bookMarks (lib : PyLib) (args : FindDeadArgs) (healthy : Bool)
    {db db' : Database} (h : db.bookMarks = db'.bookMarks) :
    cmdFindDead lib args healthy db = cmdFindDead lib args healthy db' := by
  unfold cmdFindDead
  rw [h]

/-! ### Databases with the same data -/

namespace SameData
variable {db db' : Database}

theorem agrees (h : SameData db db') (hdb : db'.Agrees) : db.Agrees := by
  have hmarks := h.bookMarks
  constructor
  · intro k
    rw [hmarks]
    exact (h.domains k).trans (hdb.domains k)
  · intro k
    rw [hmarks]
    exact (h.tags k).trans (hdb.tags k)

theorem of_agrees (hdb : db.Agrees) (hdb' : db'.Agrees) (h : db.bookMarks = db'.bookMarks) :
    SameData db db' where
  bookMarks := h
  domains := fun k => by rw [hdb.domain_lookup, hdb'.domain_lookup, h]
  tags := fun k => by rw [hdb.tag_lookup, hdb'.tag_lookup, h]

theorem symm (h : SameData db db') : SameData db' db :=
  ⟨h.bookMarks.symm, fun k => (h.domains k).symm, fun k => (h.tags k).symm⟩

theorem trans {db'' : Database} (h : SameData db db') (h' : SameData db' db'') :
    SameData db db'' :=
  ⟨h.bookMarks.trans h'.bookMarks, fun k => (h.domains k).trans (h'.domains k),
    fun k => (h.tags k).trans (h'.tags k)⟩

theorem run (h : SameData db db') (hdb : db'.Agrees) {cmd : Command} {d : Database}
    (hrun : cmd.run db = .written d) :
    ∃ d', cmd.run db' = .written d' ∧ SameData d d' := by
  have hd := Command.run_agrees (h.agrees hdb) hrun
  cases cmd with
  | update lib args override =>
    obtain ⟨d', hrun', hmarks⟩ := cmdUpdate_bookMarks h.bookMarks hrun
    exact ⟨d', hrun', of_agrees hd (cmdUpdate_agrees hdb hrun') hmarks⟩
  | findDead lib args healthy =>
    refine ⟨d, ?_, of_agrees hd hd rfl⟩
    rw [← hrun]
    exact (cmdFindDead_bookMarks lib args healthy h.bookMarks).symm

/-- A run that does not write from the one does not write from the other. -/
theorem run_not (h : SameData db db') (hdb : db'.Agrees) {cmd : Command}
    (hrun : (cmd.run db).wrote = false) : (cmd.run db').wrote = false := by
  cases hrun' : cmd.run db' with
  | raised => rfl
  | nothingWritten => rfl
  | written d =>
    obtain ⟨d', hwritten, -⟩ := h.symm.run (h.agrees hdb) hrun'
    rw [hwritten] at hrun
    cases hrun

end SameData

/-! ### The file -/

def Command.indent : Command → Indent
  | .update _ _ _ => indentTwo
  | .findDead _ _ _ => indentTab

inductive FileStep (file : Bytes) (cmd : Command) : Bytes → Prop where
  | unloadable : loadDatabase file = none → FileStep file cmd file
  | kept {db : Database} : loadDatabase file = some db → (cmd.run db).wrote = false →
      FileStep file cmd file
  | written {db db' : Database} {file' : Bytes} : loadDatabase file = some db →
      cmd.run db = .written db' → Holds cmd.indent db' file' → FileStep file cmd file'

/-- What a history leaves: the file, and the database that the same commands lead to when they hand
their dictionaries over directly. -/
structure FileRun where
  file : Bytes
  db : Database

def FileRun.Start (t : FileRun) : Prop :=
  (∃ lib args, cmdCreate lib args = .written t.db) ∧ Holds indentTwo t.db t.file

/-- One later command, on the file and on the database. -/
def FileRun.Step (t : FileRun) (cmd : Command) (t' : FileRun) : Prop :=
  FileStep t.file cmd t'.file ∧ t'.db = (cmd.run t.db).stored t.db

/-- The file holds the data of the database. -/
structure FileRun.Ok (t : FileRun) : Prop where
  holds : ∃ ind db, 13 ∉ ind.unit ∧ Holds ind db t.file ∧ SameData db t.db
  stored : Stored t.db

theorem FileRun.Ok.loads {t : FileRun} (h : t.Ok) :
    ∃ db, loadDatabase t.file = some db ∧ SameData db t.db := by
  obtain ⟨ind, db, hind, hfile, hsame⟩ := h.holds
  obtain ⟨db', hload, hloaded⟩ := loadDatabase_holds hind hfile
  exact ⟨db', hload, hloaded.trans hsame⟩

theorem Command.indent_noReturn (cmd : Command) : 13 ∉ cmd.indent.unit := by
  cases cmd with
  | update lib args override => exact (by decide : (13 : Byte) ∉ indentTwo.unit)
  | findDead lib args healthy => exact (by decide : (13 : Byte) ∉ indentTab.unit)

theorem Outcome.stored_not {outcome : Outcome} (h : outcome.wrote = false) (db : Database) :
    outcome.stored db = db := by
  cases outcome with
  | raised => rfl
  | nothingWritten => rfl
  | written db' => cases h

theorem FileRun.Ok.step {t t' : FileRun} {cmd : Command} (h : t.Ok) (hstep : t.Step cmd t') :
    t'.Ok := by
  obtain ⟨loaded, hload, hsame⟩ := h.loads
  obtain ⟨hfile, hdb⟩ := hstep
  have hstored : Stored t'.db := hdb ▸ h.stored.run cmd
  refine ⟨?_, hstored⟩
  generalize t'.file = file' at hfile
  cases hfile with
  | unloadable hnone =>
    rw [hload] at hnone
    cases hnone
  | kept hload' hquiet =>
    obtain rfl := Option.some.inj (hload.symm.trans hload')
    rw [hdb, Outcome.stored_not (hsame.run_not h.stored.agrees hquiet)]
    exact h.holds
  | @written _ d _ hload' hrun hholds =>
    obtain rfl := Option.some.inj (hload.symm.trans hload')
    obtain ⟨d', hrun', hd⟩ := hsame.run h.stored.agrees hrun
    rw [hrun'] at hdb
    rw [hdb]
    exact ⟨cmd.indent, d, cmd.indent_noReturn, hholds, hd⟩

theorem FileRun.ok_of_reach {t : FileRun} (h : Reach FileRun.Start FileRun.Step t) : t.Ok := by
  apply Reach.invariant (I := FileRun.Ok) ?_ ?_ h
  · intro t hstart
    obtain ⟨⟨lib, args, hcreate⟩, hholds⟩ := hstart
    have hdb := cmdCreate_agrees hcreate
    exact ⟨⟨indentTwo, t.db, by decide, hholds, SameData.of_agrees hdb hdb rfl⟩,
      Reach.start ⟨lib, args, hcreate⟩⟩
  · intro t cmd t' _ hok hstep
    exact hok.step hstep

/-- Whatever runs follow each other on the file, it can be loaded, and what is loaded has the data
of the database that the same commands lead to when they hand their dictionaries over directly. -/
theorem file_history {t : FileRun} (h : Reach FileRun.Start FileRun.Step t) :
    ∃ loaded, loadDatabase t.file = some loaded ∧ SameData loaded t.db ∧ Stored t.db := by
  have hok := FileRun.ok_of_reach h
  obtain ⟨loaded, hload, hsame⟩ := hok.loads
  exact ⟨loaded, hload, hsame, hok.stored⟩

/-- The file of a database with its hashes in the order of the model. -/
def fileOf (db : Database) : Bytes :=
  fileText indentTwo db.bookMarks db.bookMarkDomainHash.entries db.bookMarkTagHash.entries

theorem holds_fileOf (db : Database) : Holds indentTwo db (fileOf db) :=
  ⟨_, _, List.Perm.refl _, List.Perm.refl _, rfl⟩

theorem createdFile_reach :
    Reach FileRun.Start FileRun.Step ⟨fileOf createdDatabase, createdDatabase⟩ :=
  Reach.start ⟨⟨plainLib, createdArgs, Outcome.eq_written (by decide +kernel) (.of [] .empty)⟩,
    holds_fileOf createdDatabase⟩

theorem updatedFile_reach :
    ∃ file, Reach FileRun.Start FileRun.Step ⟨file, updatedDatabase⟩ := by
  have hok := FileRun.ok_of_reach createdFile_reach
  obtain ⟨loaded, hload, hsame⟩ := hok.loads
  have hrun : (Command.update plainLib overrideArgs true).run createdDatabase =
      .written updatedDatabase := Outcome.eq_written (by decide +kernel) _
  obtain ⟨d, hrun', -⟩ := hsame.symm.run (hsame.agrees hok.stored.agrees) hrun
  exact ⟨fileOf d, createdFile_reach.next (Command.update plainLib overrideArgs true)
    ⟨.written hload hrun' (holds_fileOf d), rfl⟩⟩

theorem file_history_updated :
    ∃ file, Reach FileRun.Start FileRun.Step ⟨file, updatedDatabase⟩ ∧
      ∃ loaded, loadDatabase file = some loaded ∧ SameData loaded updatedDatabase ∧
        Stored updatedDatabase := by
  obtain ⟨file, hreach⟩ := updatedFile_reach
  exact ⟨file, hreach, file_history hreach⟩

end LocalMarks.Marks2json

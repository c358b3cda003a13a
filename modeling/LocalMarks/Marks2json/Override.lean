import LocalMarks.Marks2json.Frame

/-!
# update --override

A line is skipped when its bookmark is among those known, and a bookmark stays known after it was
overwritten. So a line can be skipped that says something else than what is stored.
-/

namespace LocalMarks.Marks2json
open LocalMarks.Lib

def SameText (e e' : Entry) : Prop :=
  e.bookmark.title = e'.bookmark.title ∧ e.bookmark.description = e'.bookmark.description ∧
    e.bookmark.tags = e'.bookmark.tags

/-- Every URL of the lines is stored with the text of its last line. -/
def LastLineStored (lines : List Entry) (db : Database) : Prop :=
  ∀ url line, (lines.filter (·.url = url)).getLast? = some line →
    ∃ e ∈ db.entries, e.url = url ∧ SameText e line

/-- What override is for: every URL of the input has the text of its last line, and the same files
once more change nothing. Icons may change, but only when they are fetched. -/
def OverrideSettles (lib : PyLib) (files : List SourceFile) (db : Database) : Prop :=
  ∀ args again : RunArgs, args.files = files → again.files = files →
    let db₁ := (cmdUpdate lib args true db).stored db
    let db₂ := (cmdUpdate lib again true db₁).stored db₁
    LastLineStored (inputLines lib files) db₁ ∧
      (db₂.entries.map Entry.bare).Perm (db₁.entries.map Entry.bare) ∧
      (again.icon = false → db₂.entries.Perm db₁.entries)

/-- The URL is stored with an icon, and no line brings one. -/
def IconStored (db : Database) (url : Str) : Prop :=
  ¬ channelUrl <+: url ∧ ∃ e ∈ db.entries, e.url = url ∧ e.bookmark.icon.isSome = true

/-- The lines of a URL all have the same text, but for URLs stored with an icon of their own. -/
def LinesAgree (lib : PyLib) (files : List SourceFile) (db : Database) : Prop :=
  ∀ e ∈ inputLines lib files, ∀ e' ∈ inputLines lib files, e.url = e'.url →
    SameText e e' ∨ IconStored db e.url

theorem SameText.bookmark_eq {lib : PyLib} {files : List SourceFile} {e e' : Entry}
    (h : SameText e e') (he : e ∈ inputLines lib files) (he' : e' ∈ inputLines lib files)
    (hurl : e.url = e'.url) : e.bookmark = e'.bookmark := by
  obtain ⟨hdomain, hicon⟩ := inputLines_domain he
  obtain ⟨hdomain', hicon'⟩ := inputLines_domain he'
  rw [hurl, ← hdomain'] at hdomain
  rw [← hicon'] at hicon
  obtain ⟨htitle, hdescription, htags⟩ := h
  obtain ⟨_, ⟨⟩⟩ := e
  obtain ⟨_, ⟨⟩⟩ := e'
  rw [Bookmark.mk.injEq]
  exact ⟨htitle, hurl, hdescription, htags, hdomain, hicon⟩

theorem Entry.bare_url (e : Entry) : e.bare.url = e.url := rfl

theorem Entry.eq_of_bare {e e' : Entry} (h : e.bare = e'.bare)
    (hicon : e.bookmark.icon = e'.bookmark.icon) : e = e' := by
  obtain ⟨_, ⟨⟩⟩ := e
  obtain ⟨_, ⟨⟩⟩ := e'
  cases h
  cases hicon
  rfl

/-! ### One slot over its lines -/

namespace Slot

def Fresh (slot : Slot) : Prop :=
  ∀ bm ∈ slot.known, ∃ e, slot.entry = some e ∧ e.bookmark = bm

/-- A line is only skipped when what is filed says the same. -/
def Current (slot : Slot) (line : Entry) : Prop :=
  line.bookmark ∈ slot.known → ∃ e, slot.entry = some e ∧ e.bookmark.bare = line.bookmark.bare

def WithIcons (slot : Slot) : Prop :=
  (∃ e, slot.entry = some e ∧ e.bookmark.icon.isSome = true) ∧
    ∀ bm ∈ slot.known, bm.icon.isSome = true

theorem merge_current {slot : Slot} {line : Entry} (h : slot.Current line) :
    ∃ e, (slot.merge true line).entry = some e ∧ e.bookmark.bare = line.bookmark.bare := by
  unfold merge
  split
  · rename_i hmem
    exact h hmem
  · split
    · exact ⟨_, rfl, rfl⟩
    · exact ⟨line, rfl, rfl⟩

theorem foldl_merge_agree {slot : Slot} (hslot : slot.Fresh) {b : Bookmark} (lines : List Entry)
    (hne : lines ≠ []) (hlines : ∀ line ∈ lines, line.bookmark.bare = b) :
    ∃ e, (lines.foldl (merge true) slot).entry = some e ∧ e.bookmark.bare = b := by
  induction lines using List.reverseRecOn with
  | nil => exact absurd rfl hne
  | append_singleton pre line ih =>
    have hline : line.bookmark.bare = b := hlines line (List.mem_append_right _ (by simp))
    have hcurrent : (pre.foldl (merge true) slot).Current line := by
      by_cases hpre : pre = []
      · subst hpre
        intro hmem
        obtain ⟨e, he, hbm⟩ := hslot _ hmem
        exact ⟨e, he, congrArg Bookmark.bare hbm⟩
      · intro _
        obtain ⟨e, he, hbare⟩ := ih hpre fun x hx => hlines x (List.mem_append_left _ hx)
        exact ⟨e, he, hbare.trans hline.symm⟩
    obtain ⟨e, he, hbare⟩ := merge_current hcurrent
    rw [List.foldl_append]
    exact ⟨e, he, hbare.trans hline⟩

theorem merge_withIcons {slot : Slot} (h : slot.WithIcons) {line : Entry}
    (hline : line.bookmark.icon = none) : (slot.merge true line).WithIcons := by
  obtain ⟨⟨e, he, hicon⟩, hknown⟩ := h
  unfold merge
  split
  · exact ⟨⟨e, he, hicon⟩, hknown⟩
  · rw [he]
    have hnew : (e.bookmark.update line.bookmark).icon.isSome = true := by
      rw [Bookmark.update, hline]
      exact hicon
    refine ⟨⟨_, rfl, hnew⟩, fun bm hbm => ?_⟩
    rcases List.mem_cons.mp hbm with rfl | hbm
    · exact hnew
    · exact hknown bm hbm

theorem foldl_merge_last {slot : Slot} (hslot : slot.WithIcons) {lines : List Entry}
    (hlines : ∀ line ∈ lines, line.bookmark.icon = none) {line : Entry}
    (hlast : lines.getLast? = some line) :
    ∃ e, (lines.foldl (merge true) slot).entry = some e ∧
      e.bookmark.bare = line.bookmark.bare := by
  obtain ⟨pre, rfl⟩ := List.getLast?_eq_some_iff.mp hlast
  have hpre : (pre.foldl (merge true) slot).WithIcons := by
    have hicons : ∀ x ∈ pre, x.bookmark.icon = none := fun x hx =>
      hlines x (List.mem_append_left _ hx)
    clear hlast hlines
    induction pre generalizing slot with
    | nil => exact hslot
    | cons x pre ih =>
      exact ih (merge_withIcons hslot (hicons x (List.mem_cons_self ..))) fun y hy =>
        hicons y (List.mem_cons_of_mem _ hy)
  rw [List.foldl_append]
  apply merge_current
  intro hmem
  have hicon := hpre.2 _ hmem
  rw [hlines line (List.mem_append_right _ (by simp))] at hicon
  cases hicon

end Slot

theorem Database.slot_fresh (db : Database) (url : Str) : (db.slot url).Fresh := fun _ hbm =>
  (Database.slot_known.mp hbm).2

/-! ### One run -/

def linesAt (newCategories : List Category) (url : Str) : List Entry :=
  (filed newCategories).filter (·.url = url)

section
variable {lib : PyLib} {args : RunArgs} {db : Database} {newCategories : List Category}

theorem linesAt_bare (h : Parses lib args db newCategories) (url : Str) :
    (linesAt newCategories url).map Entry.bare =
      (inputLines lib args.files).filter (·.url = url) := by
  rw [← parses_lines h, List.filter_map]
  rfl

theorem linesAt_url {url : Str} {line : Entry} (h : line ∈ linesAt newCategories url) :
    line.url = url := of_decide_eq_true (List.mem_filter.mp h).2

theorem linesAt_plain (h : Parses lib args db newCategories) {url : Str}
    (hplain : ¬ (args.icon = true ∧ channelUrl <+: url)) :
    ∀ line ∈ linesAt newCategories url, line.bookmark.icon = none := by
  obtain ⟨st, hst⟩ := h
  intro line hline
  apply processFiles_plain hst line (List.mem_filter.mp hline).1
  rw [linesAt_url hline]
  exact hplain

theorem slot_stored (hdb : db.DistinctUrls) (h : Parses lib args db newCategories) {url : Str}
    {e : Entry} (he : (db.slot url).entry = some e) :
    ∃ e', (((cmdUpdate lib args true db).stored db).slot url).entry = some e' ∧
      e'.category = e.category ∧
      ((∀ line ∈ linesAt newCategories url, line.bookmark.icon = none) →
        e'.bookmark.icon = e.bookmark.icon) := by
  rw [(cmdUpdate_slots hdb h true).2]
  apply Slot.foldl_merge_entry true (P := fun e' => e'.category = e.category ∧
    ((∀ line ∈ linesAt newCategories url, line.bookmark.icon = none) →
      e'.bookmark.icon = e.bookmark.icon)) _ ?_ he ⟨rfl, fun _ => rfl⟩
  intro line hline old hold
  refine ⟨hold.1, fun hplain => ?_⟩
  rw [← hold.2 hplain, Bookmark.update, hplain line hline]
  rfl

/-- The last line of a URL is what a run leaves, if its lines agree or never are known. -/
theorem slot_last (hdb : db.DistinctUrls) (h : Parses lib args db newCategories)
    (hagree : LinesAgree lib args.files db) {url : Str} {line : Entry}
    (hlast : ((inputLines lib args.files).filter (·.url = url)).getLast? = some line) :
    ∃ e, (((cmdUpdate lib args true db).stored db).slot url).entry = some e ∧
      e.bookmark.bare = line.bookmark := by
  rw [(cmdUpdate_slots hdb h true).2]
  rw [← linesAt_bare h, List.getLast?_map] at hlast
  obtain ⟨last, hlast', rfl⟩ := Option.map_eq_some_iff.mp hlast
  by_cases hicon : IconStored db url
  · obtain ⟨hchannel, e, he, hurl, hsome⟩ := hicon
    have hslot : (db.slot url).entry = some e := (Database.slot_entry hdb).mpr ⟨he, hurl⟩
    have hwith : (db.slot url).WithIcons := by
      refine ⟨⟨e, hslot, hsome⟩, fun bm hbm => ?_⟩
      obtain ⟨old, hold, rfl⟩ := db.slot_fresh url bm hbm
      rw [hslot] at hold
      exact Option.some.inj hold ▸ hsome
    exact Slot.foldl_merge_last hwith (linesAt_plain h fun hyes => hchannel hyes.2) hlast'
  · have hmem : last ∈ linesAt newCategories url := List.mem_of_getLast? hlast'
    apply Slot.foldl_merge_agree (db.slot_fresh url) _ (List.ne_nil_of_mem hmem)
    intro other hother
    have hin : ∀ x ∈ linesAt newCategories url, x.bare ∈ inputLines lib args.files ∧
        x.bare.url = url := fun x hx => by
      have hbare := List.mem_map_of_mem (f := Entry.bare) hx
      rw [linesAt_bare h] at hbare
      exact ⟨(List.mem_filter.mp hbare).1, of_decide_eq_true (List.mem_filter.mp hbare).2⟩
    obtain ⟨hotherIn, hotherUrl⟩ := hin other hother
    obtain ⟨hlastIn, hlastUrl⟩ := hin last hmem
    have hsame : SameText other.bare last.bare :=
      (hagree _ hotherIn _ hlastIn (hotherUrl.trans hlastUrl.symm)).resolve_right
        (hotherUrl ▸ hicon)
    exact hsame.bookmark_eq hotherIn hlastIn (hotherUrl.trans hlastUrl.symm)

theorem LinesAgree.next (hdb : db.DistinctUrls) (h : Parses lib args db newCategories)
    {files : List SourceFile} (hagree : LinesAgree lib files db) :
    LinesAgree lib files ((cmdUpdate lib args true db).stored db) := by
  intro e he e' he' hurl
  refine (hagree e he e' he' hurl).imp_right fun hicon => ?_
  obtain ⟨hchannel, old, hold, holdUrl, hsome⟩ := hicon
  obtain ⟨new, hnew, _, hkept⟩ := slot_stored hdb h ((Database.slot_entry hdb).mpr ⟨hold, holdUrl⟩)
  obtain ⟨hmem, hnewUrl⟩ := (Database.slot_entry (cmdUpdate_merged hdb h true).distinct).mp hnew
  refine ⟨hchannel, new, hmem, hnewUrl, ?_⟩
  rw [hkept (linesAt_plain h fun hyes => hchannel hyes.2)]
  exact hsome

end

/-! ### Two runs -/

section
variable {lib : PyLib} {args again : RunArgs} {db : Database}
  {newCategories newCategories' : List Category}

theorem rerun_slot (hdb : db.DistinctUrls) (h : Parses lib args db newCategories)
    (hagree : LinesAgree lib args.files db) (hfiles : again.files = args.files)
    (h' : Parses lib again ((cmdUpdate lib args true db).stored db) newCategories') (url : Str) :
    let db₁ := (cmdUpdate lib args true db).stored db
    let db₂ := (cmdUpdate lib again true db₁).stored db₁
    (db₂.slot url).entry.map Entry.bare = (db₁.slot url).entry.map Entry.bare ∧
      ((∀ line ∈ linesAt newCategories' url, line.bookmark.icon = none) →
        (db₂.slot url).entry = (db₁.slot url).entry) := by
  have hdb₁ := (cmdUpdate_merged hdb h true).distinct
  have hagree₁ := hagree.next hdb h
  have hfirst : ∀ line, ((inputLines lib args.files).filter (·.url = url)).getLast? = some line →
      ∃ e, (((cmdUpdate lib args true db).stored db).slot url).entry = some e ∧
        e.bookmark.bare = line.bookmark := fun _ => slot_last hdb h hagree
  dsimp only
  generalize (cmdUpdate lib args true db).stored db = db₁ at h' hdb₁ hagree₁ hfirst
  cases hlast : ((inputLines lib args.files).filter (·.url = url)).getLast? with
  | none =>
    have hnone : linesAt newCategories' url = [] := by
      rw [List.getLast?_eq_none_iff, ← hfiles, ← linesAt_bare h'] at hlast
      exact List.map_eq_nil_iff.mp hlast
    have hslot : (((cmdUpdate lib again true db₁).stored db₁).slot url).entry =
        (db₁.slot url).entry := by
      rw [(cmdUpdate_slots hdb₁ h' true).2]
      show ((linesAt newCategories' url).foldl (Slot.merge true) (db₁.slot url)).entry = _
      rw [hnone]
      rfl
    exact ⟨congrArg (Option.map Entry.bare) hslot, fun _ => hslot⟩
  | some line =>
    obtain ⟨e₁, he₁, hbare₁⟩ := hfirst line hlast
    rw [← hfiles] at hagree₁ hlast
    obtain ⟨e₂, he₂, hbare₂⟩ := slot_last hdb₁ h' hagree₁ hlast
    obtain ⟨e₂', he₂', hcat, hicon⟩ := slot_stored hdb₁ h' he₁
    obtain rfl : e₂' = e₂ := Option.some.inj (he₂'.symm.trans he₂)
    have hbare : e₂'.bare = e₁.bare := congrArg₂ Entry.mk hcat (hbare₂.trans hbare₁.symm)
    rw [he₂, he₁]
    refine ⟨congrArg some hbare, fun hplain => congrArg some ?_⟩
    exact Entry.eq_of_bare hbare (hicon hplain)

theorem overrideSettles_of_agree {files : List SourceFile} (hdb : db.DistinctUrls)
    (hread : Readable files) (hagree : LinesAgree lib files db) :
    OverrideSettles lib files db := by
  intro args again hargs hagain
  subst hargs
  obtain ⟨newCategories, h⟩ := parses_of_readable lib db hread
  obtain ⟨newCategories', h'⟩ :=
    parses_of_readable lib ((cmdUpdate lib args true db).stored db) (hagain ▸ hread)
  have hdb₁ := (cmdUpdate_merged hdb h true).distinct
  have hdb₂ := (cmdUpdate_merged hdb₁ h' true).distinct
  have hrerun := rerun_slot hdb h hagree hagain h'
  refine ⟨fun url line hlast => ?_, ?_, fun hicon => ?_⟩
  · obtain ⟨e, he, hbare⟩ := slot_last hdb h hagree hlast
    obtain ⟨hmem, hurl⟩ := (Database.slot_entry hdb₁).mp he
    refine ⟨e, hmem, hurl, ?_⟩
    rw [SameText, ← hbare]
    exact ⟨rfl, rfl, rfl⟩
  · exact (map_perm_iff_find? Entry.bare_url hdb₂ hdb₁).mpr fun url => (hrerun url).1
  · refine (perm_iff_find? hdb₂ hdb₁).mpr fun url => (hrerun url).2 ?_
    exact linesAt_plain h' fun hyes => Bool.false_ne_true (hicon.symm.trans hyes.1)

end

/-! ### Lines that disagree -/

theorem Bookmark.update_of_icon {old bm : Bookmark} (h : bm.icon = old.icon) :
    old.update bm = bm := by
  rw [Bookmark.update, ← h, Option.or_self]

namespace Slot

/-- Another bookmark has taken the place of a known one. -/
def Left (slot : Slot) (bm : Bookmark) : Prop :=
  bm ∈ slot.known ∧ ∃ e, slot.entry = some e ∧ e.bookmark ≠ bm ∧ e.bookmark.icon = bm.icon

theorem merge_left {slot : Slot} {bm : Bookmark} (h : slot.Left bm) {line : Entry}
    (hline : line.bookmark.icon = bm.icon) : (slot.merge true line).Left bm := by
  obtain ⟨hknown, e, he, hne, hicon⟩ := h
  unfold merge
  split
  · exact ⟨hknown, e, he, hne, hicon⟩
  · rename_i hnew
    rw [he]
    have hupdate := Bookmark.update_of_icon (hline.trans hicon.symm)
    refine ⟨List.mem_cons_of_mem _ hknown, _, rfl, ?_, ?_⟩
    · rw [hupdate]
      exact fun heq => hnew (heq ▸ hknown)
    · rw [hupdate]
      exact hline

theorem foldl_merge_left {slot : Slot} {e : Entry} (hentry : slot.entry = some e)
    (hknown : slot.known = [e.bookmark]) (lines : List Entry)
    (hicons : ∀ line ∈ lines, line.bookmark.icon = e.bookmark.icon)
    (hother : ∃ line ∈ lines, line.bookmark ≠ e.bookmark) :
    (lines.foldl (merge true) slot).Left e.bookmark := by
  induction lines with
  | nil =>
    obtain ⟨_, hno, _⟩ := hother
    cases hno
  | cons line lines ih =>
    have hline := hicons line (List.mem_cons_self ..)
    have hrest : ∀ x ∈ lines, x.bookmark.icon = e.bookmark.icon := fun x hx =>
      hicons x (List.mem_cons_of_mem _ hx)
    rw [List.foldl_cons]
    by_cases hsame : line.bookmark = e.bookmark
    · -- the line is known, so another one has to come
      have hskip : slot.merge true line = slot := by
        rw [merge, hknown, if_pos (List.mem_singleton.mpr hsame)]
      rw [hskip]
      apply ih hrest
      obtain ⟨x, hx, hne⟩ := hother
      rcases List.mem_cons.mp hx with rfl | hx
      · exact absurd hsame hne
      · exact ⟨x, hx, hne⟩
    · have hleft : (slot.merge true line).Left e.bookmark := by
        rw [merge, hknown, if_neg fun hmem => hsame (List.mem_singleton.mp hmem), hentry]
        refine ⟨List.mem_cons_of_mem _ (List.mem_singleton_self _), _, rfl, ?_, ?_⟩
        · rw [Bookmark.update_of_icon hline]
          exact hsame
        · rw [Bookmark.update_of_icon hline]
          exact hline
      exact List.foldlRecOn lines (merge true) (motive := (Left · e.bookmark)) hleft
        fun _ hs x hx => merge_left hs (hrest x hx)

theorem foldl_merge_icon {icon : Option Str} (lines : List Entry)
    (hicons : ∀ line ∈ lines, line.bookmark.icon = icon) {slot : Slot}
    (hslot : ∀ e, slot.entry = some e → e.bookmark.icon = icon) :
    ∀ e, (lines.foldl (merge true) slot).entry = some e → e.bookmark.icon = icon := by
  apply List.foldlRecOn lines (merge true)
    (motive := fun s : Slot => ∀ e, s.entry = some e → e.bookmark.icon = icon) hslot
  intro s hs line hline e he
  unfold merge at he
  split at he
  · exact hs e he
  · split at he
    · rename_i old hold
      obtain rfl := Option.some.inj he
      show (old.bookmark.update line.bookmark).icon = icon
      rw [Bookmark.update_of_icon ((hicons line hline).trans (hs old hold).symm)]
      exact hicons line hline
    · obtain rfl := Option.some.inj he
      exact hicons line hline

end Slot

/-- A run in which the lines of a URL get the icon that is stored: from the cache, or none. -/
def iconArgs (files : List SourceFile) (url : Str) : Option Str → RunArgs
  | none => ⟨files, false, ∅, fun _ _ => .failed⟩
  | some icon => ⟨files, true, (∅ : IconCache).insert url icon, fun _ _ => .failed⟩

theorem iconArgs_files (files : List SourceFile) (url : Str) (icon : Option Str) :
    (iconArgs files url icon).files = files := by
  cases icon <;> rfl

theorem iconArgs_lines {lib : PyLib} {files : List SourceFile} {db : Database} {url : Str}
    {icon : Option Str} {newCategories : List Category} (hdb : db.DistinctUrls) (hne : url ≠ [])
    (hchannel : icon.isSome = true → channelUrl <+: url)
    (hstored : ∀ e, (db.slot url).entry = some e → e.bookmark.icon = icon)
    (h : Parses lib (iconArgs files url icon) db newCategories) :
    ∀ line ∈ linesAt newCategories url, line.bookmark.icon = icon := by
  cases icon with
  | none => exact linesAt_plain h fun hyes => Bool.false_ne_true hyes.1
  | some icon =>
    obtain ⟨st, hst⟩ := h
    intro line hline
    refine processFiles_cached hst rfl (hchannel rfl) (fun _ _ => rfl) (fun old hold => ?_)
      (AList.lookup_insert _) line (List.mem_filter.mp hline).1 (linesAt_url hline)
    have hfound := ((Represents.load hdb).existing_bookmark hne).symm.trans hold
    obtain ⟨e, he, rfl⟩ := Option.map_eq_some_iff.mp hfound
    exact hstored e he

theorem slot_left {lib : PyLib} {args : RunArgs} {db : Database} {newCategories : List Category}
    (hdb : db.DistinctUrls) (h : Parses lib args db newCategories) {e : Entry} (he : e ∈ db.entries)
    (hne : e.url ≠ []) (hicons : ∀ line ∈ linesAt newCategories e.url,
      line.bookmark.icon = e.bookmark.icon)
    (hother : ∃ line ∈ linesAt newCategories e.url, line.bookmark ≠ e.bookmark) :
    (((cmdUpdate lib args true db).stored db).slot e.url).entry.map Entry.bare ≠ some e.bare := by
  have hslot : (db.slot e.url).entry = some e := (Database.slot_entry hdb).mpr ⟨he, rfl⟩
  have hknown : (db.slot e.url).known = [e.bookmark] := by
    show (if e.url = [] then [] else ((db.slot e.url).entry.map Entry.bookmark).toList) = _
    rw [if_neg hne, hslot]
    rfl
  obtain ⟨-, e', he', hleft, hicon⟩ := Slot.foldl_merge_left hslot hknown _ hicons hother
  have hentry : (((cmdUpdate lib args true db).stored db).slot e.url).entry = some e' :=
    ((cmdUpdate_slots hdb h true).2 e.url).trans he'
  rw [hentry]
  intro hbare
  exact hleft (congrArg Entry.bookmark (Entry.eq_of_bare (Option.some.inj hbare) hicon))

theorem not_overrideSettles {lib : PyLib} {files : List SourceFile} {db : Database}
    (hdb : db.DistinctUrls) (hread : Readable files) {e e' : Entry}
    (he : e ∈ inputLines lib files) (he' : e' ∈ inputLines lib files) (hurl : e.url = e'.url)
    (hdiffer : ¬ SameText e e') (hicon : ¬ IconStored db e.url) :
    ¬ OverrideSettles lib files db := by
  have hne : e.url ≠ [] := inputLines_url he
  obtain ⟨icon, hstored, hchannel⟩ : ∃ icon : Option Str,
      (∀ x, (db.slot e.url).entry = some x → x.bookmark.icon = icon) ∧
        (icon.isSome = true → channelUrl <+: e.url) := by
    refine ⟨(db.slot e.url).entry.bind (·.bookmark.icon), fun x hx => by rw [hx]; rfl, ?_⟩
    intro hsome
    by_contra hchannel
    obtain ⟨i, hi⟩ := Option.isSome_iff_exists.mp hsome
    obtain ⟨x, hx, hxi⟩ := Option.bind_eq_some_iff.mp hi
    obtain ⟨hmem, hxurl⟩ := (Database.slot_entry hdb).mp hx
    exact hicon ⟨hchannel, x, hmem, hxurl, by rw [hxi]; rfl⟩
  have hfiles := iconArgs_files files e.url icon
  generalize hargs : iconArgs files e.url icon = args at hfiles
  intro hsettles
  obtain ⟨-, hperm, -⟩ := hsettles args args hfiles hfiles
  obtain ⟨newCategories, h⟩ := parses_of_readable lib db (hfiles.symm ▸ hread)
  obtain ⟨hdb₁, -, -, hpresent⟩ := cmdUpdate_merged hdb h true
  have hslots := (cmdUpdate_slots hdb h true).2 e.url
  have hlines := iconArgs_lines hdb hne hchannel hstored (hargs.symm ▸ h)
  generalize (cmdUpdate lib args true db).stored db = db₁ at hperm hdb₁ hpresent hslots
  -- after the first run the URL is stored with the icon that its lines have
  have hstored₁ : ∀ x, (db₁.slot e.url).entry = some x → x.bookmark.icon = icon := by
    rw [hslots]
    exact Slot.foldl_merge_icon (linesAt newCategories e.url) hlines hstored
  obtain ⟨newCategories', h'⟩ := parses_of_readable lib db₁ (hfiles.symm ▸ hread)
  have hlines' := iconArgs_lines hdb₁ hne hchannel hstored₁ (hargs.symm ▸ h')
  have hbare := parses_lines h
  have hbare' := parses_lines h'
  rw [hfiles] at hbare hbare'
  obtain ⟨x, hx, rfl⟩ := List.mem_map.mp (hbare ▸ he)
  obtain ⟨e₁, he₁, hurl₁⟩ := hpresent x hx
  have hslot₁ : (db₁.slot x.url).entry = some e₁ := (Database.slot_entry hdb₁).mpr ⟨he₁, hurl₁⟩
  have hicon₁ := hstored₁ e₁ hslot₁
  have hdb₂ := (cmdUpdate_merged hdb₁ h' true).distinct
  have hsame := (map_perm_iff_find? Entry.bare_url hdb₂ hdb₁).mp hperm e₁.url
  refine slot_left hdb₁ h' he₁ (hurl₁ ▸ hne) (fun line hline => ?_) ?_ (hsame.trans ?_)
  · rw [hurl₁] at hline
    exact (hlines' line hline).trans hicon₁.symm
  · by_contra hall
    have hall' : ∀ line ∈ linesAt newCategories' e₁.url, line.bookmark = e₁.bookmark :=
      fun line hline => by_contra fun hother => hall ⟨line, hline, hother⟩
    have htext : ∀ y ∈ inputLines lib files, y.url = x.url → y.bookmark = e₁.bookmark.bare := by
      intro y hy hyurl
      rw [← hbare'] at hy
      obtain ⟨line, hline, rfl⟩ := List.mem_map.mp hy
      have hat : line ∈ linesAt newCategories' e₁.url :=
        List.mem_filter.mpr ⟨hline, decide_eq_true (hyurl.trans hurl₁.symm)⟩
      exact congrArg Bookmark.bare (hall' line hat)
    have heq := (htext _ he rfl).trans (htext e' he' hurl.symm).symm
    apply hdiffer
    rw [SameText, heq]
    exact ⟨rfl, rfl, rfl⟩
  · exact congrArg (Option.map Entry.bare) ((Database.slot_entry hdb₁).mpr ⟨he₁, rfl⟩)

/-- The last line of every URL is what override stores, and a second run changes nothing, exactly
when no URL has two lines that say different things, but for URLs stored with an icon that no line
brings: these are never skipped. -/
theorem overrideSettles_iff {lib : PyLib} {files : List SourceFile} {db : Database}
    (hdb : db.DistinctUrls) (hread : Readable files) :
    OverrideSettles lib files db ↔ LinesAgree lib files db := by
  refine ⟨fun hsettles e he e' he' hurl => ?_, overrideSettles_of_agree hdb hread⟩
  by_contra hnot
  obtain ⟨hdiffer, hicon⟩ := not_or.mp hnot
  exact not_overrideSettles hdb hread he he' hurl hdiffer hicon hsettles

theorem linesAgree_of_nodup {lib : PyLib} {files : List SourceFile}
    (h : ((inputLines lib files).map Entry.url).Nodup) (db : Database) :
    LinesAgree lib files db := by
  intro e he e' he' hurl
  rw [List.inj_on_of_nodup_map h he he' hurl]
  exact Or.inl ⟨rfl, rfl, rfl⟩

theorem overrideSettles_iff_override :
    OverrideSettles plainLib overrideArgs.files createdDatabase :=
  (overrideSettles_iff createdDatabase_distinctUrls (plainArgs_readable _)).mpr
    (linesAgree_of_nodup (by decide +kernel) _)

/-- The first line replaces what is stored; the second line is what was stored, and is skipped. -/
def restoringArgs : RunArgs :=
  plainArgs "A2 | https://a.org/x | #x\nA | https://a.org/x | #x #x #y"

/-- The last line of a URL is not what is stored. -/
theorem restoring_line_skipped : ¬ ∀ (files : List SourceFile) (db : Database),
    db.DistinctUrls → Readable files → OverrideSettles plainLib files db := by
  intro hevery
  obtain ⟨hlast, -, -⟩ := hevery restoringArgs.files createdDatabase createdDatabase_distinctUrls
    (plainArgs_readable _) restoringArgs restoringArgs rfl rfl
  have htitle : (((inputLines plainLib restoringArgs.files).filter
      (·.url = "https://a.org/x".toList)).getLast?).map (·.bookmark.title) = some ['A'] := by
    decide +kernel
  obtain ⟨line, hline, htitle⟩ := Option.map_eq_some_iff.mp htitle
  obtain ⟨e, he, hurl, hsame⟩ := hlast _ line hline
  have hstored : ∀ e ∈ ((cmdUpdate plainLib restoringArgs true createdDatabase).stored
      createdDatabase).entries, e.url = "https://a.org/x".toList →
        e.bookmark.title = ['A', '2'] := by
    decide +kernel
  have hclash := (hsame.1.trans htitle).symm.trans (hstored e he hurl)
  cases hclash

end LocalMarks.Marks2json

import LocalMarks.Http.Routes
import LocalMarks.Lib.LinearProbe

/-!
# The index of the embedded files (vfs_hash.c, fnv1a.h)

At startup every entry of `vfs_table` is put into an open-addressing table under the hash of its
path. Nothing is ever taken out, so a lookup may stop at the first hole.
-/

namespace LocalMarks.Vfs
open LocalMarks.Lib

/-! ### Hashing -/

def fnv1aStep (h : UInt32) (c : Byte) : UInt32 := (h ^^^ c.toUInt32) * 16777619

def fnv1aStr (s : CString) : UInt32 := s.bytes.foldl fnv1aStep 2166136261

def fnv1aData (data : Bytes) : UInt32 := data.foldl fnv1aStep 2166136261

/-- `VFS_HASH_CAP`: a power of two. It is an `int`, well inside of what a 32-bit index covers. -/
structure HashCap where
  log : ℕ
  log_le : log ≤ 32

def HashCap.size (cap : HashCap) : ℕ := 2 ^ cap.log

def HashCap.mask (cap : HashCap) : UInt32 := UInt32.ofNat (cap.size - 1)

theorem HashCap.size_pos (cap : HashCap) : 0 < cap.size := Nat.two_pow_pos cap.log

theorem HashCap.mask_toNat (cap : HashCap) : cap.mask.toNat = 2 ^ cap.log - 1 := by
  have hle : 2 ^ cap.log ≤ 2 ^ 32 := Nat.pow_le_pow_right (Nat.succ_pos 1) cap.log_le
  have hpos := cap.size_pos
  unfold mask size at *
  rw [UInt32.toNat_ofNat', Nat.mod_eq_of_lt (by omega)]

theorem HashCap.and_mask (cap : HashCap) (x : UInt32) :
    (x &&& cap.mask).toNat = x.toNat % cap.size := by
  rw [UInt32.toNat_and, cap.mask_toNat, Nat.and_two_pow_sub_one_eq_mod]
  rfl

theorem HashCap.next_toNat (cap : HashCap) (x : UInt32) :
    ((x + 1) &&& cap.mask).toNat = (x.toNat + 1) % cap.size := by
  rw [cap.and_mask, UInt32.toNat_add]
  exact Nat.mod_mod_of_dvd _ (Nat.pow_dvd_pow 2 cap.log_le)

/-! ### The table -/

/-- `vfs_entry`; `fileStart = none` is the NULL pointer. -/
structure TableEntry where
  filePath : CString
  fileStart : Option Http.Blob
  contentHash : UInt32

def TableEntry.hashed (e : TableEntry) : TableEntry :=
  match e.fileStart with
  | none => e
  | some data =>
    if 0 < data.bytes.length then { e with contentHash := fnv1aData data.bytes } else e

/-- What `vfs_hash_init` has processed: the entries, and for each slot the index of the entry that
its pointer points to. -/
structure VfsHash where
  table : List TableEntry
  slots : ℕ → Option ℕ
  inserted : ℕ

/-- The probe loop of an insertion with `left` probes to go; none is abort. -/
def insertProbe (cap : HashCap) (slots : ℕ → Option ℕ) : ℕ → UInt32 → Option UInt32
  | 0, _ => none
  | left + 1, idx =>
    match slots idx.toNat with
    | none => some idx
    | some _ => insertProbe cap slots left ((idx + 1) &&& cap.mask)

def insertLoop (cap : HashCap) : List TableEntry → VfsHash → Option VfsHash
  | [], h => some h
  | e :: es, h =>
    let e := e.hashed
    if cap.size ≤ h.inserted then none
    else
      match insertProbe cap h.slots cap.size (fnv1aStr e.filePath &&& cap.mask) with
      | none => none
      | some idx =>
        insertLoop cap es
          ⟨h.table ++ [e], Function.update h.slots idx.toNat (some h.table.length), h.inserted + 1⟩

/-- `vfs_hash_init`; none is abort. -/
def vfsHashInit (cap : HashCap) (table : List TableEntry) : Option VfsHash :=
  insertLoop cap table ⟨[], fun _ => none, 0⟩

def lookupProbe (cap : HashCap) (h : VfsHash) (path : CString) : ℕ → UInt32 → Option ℕ
  | 0, _ => none
  | left + 1, idx =>
    match h.slots idx.toNat with
    | none => none
    | some i =>
      if (h.table[i]?).map TableEntry.filePath = some path then some i
      else lookupProbe cap h path left ((idx + 1) &&& cap.mask)

/-- `vfs_lookup`: the index of the entry that is returned. -/
def vfsLookup (cap : HashCap) (h : VfsHash) (path : CString) : Option ℕ :=
  lookupProbe cap h path cap.size (fnv1aStr path &&& cap.mask)

/-! ### The loops are probes -/

theorem insertProbe_eq (cap : HashCap) (slots : ℕ → Option ℕ) (left : ℕ) (idx : UInt32) :
    (insertProbe cap slots left idx).map UInt32.toNat =
      probeLoop cap.size (fun s => (slots s).isNone) left idx.toNat := by
  induction left generalizing idx with
  | zero => rfl
  | succ left ih =>
    unfold insertProbe probeLoop
    cases slots idx.toNat with
    | none => rfl
    | some i =>
      dsimp only
      rw [ih, cap.next_toNat]
      rfl

theorem lookupProbe_eq (cap : HashCap) (h : VfsHash) (path : CString) (left : ℕ) (idx : UInt32) :
    lookupProbe cap h path left idx =
      (probeLoop cap.size (fun s => (h.slots s).all fun i =>
        (h.table[i]?).map TableEntry.filePath = some path) left idx.toNat).bind h.slots := by
  induction left generalizing idx with
  | zero => rfl
  | succ left ih =>
    unfold lookupProbe probeLoop
    cases hslot : h.slots idx.toNat with
    | none => exact hslot.symm
    | some i =>
      dsimp only
      rw [Option.all_some]
      by_cases hpath : (h.table[i]?).map TableEntry.filePath = some path
      · rw [if_pos hpath, if_pos (decide_eq_true hpath)]
        exact hslot.symm
      · rw [if_neg hpath, if_neg (by simpa using hpath), ih, cap.next_toNat]

/-! ### The entries -/

def pathKey (table : List TableEntry) (i : ℕ) : Option CString :=
  (table[i]?).map TableEntry.filePath

def pathHome (path : Option CString) : ℕ := (path.map fun p => (fnv1aStr p).toNat).getD 0

theorem TableEntry.hashed_filePath (e : TableEntry) : e.hashed.filePath = e.filePath := by
  unfold hashed
  split
  · rfl
  · split <;> rfl

theorem pathKey_hashed (table : List TableEntry) :
    pathKey (table.map TableEntry.hashed) = pathKey table := by
  funext i
  unfold pathKey
  rw [List.getElem?_map, Option.map_map]
  exact congrArg (fun f => Option.map f table[i]?) (funext TableEntry.hashed_filePath)

/-- The state after the first entries of `table`. -/
structure Loaded (cap : HashCap) (table done : List TableEntry) (h : VfsHash) : Prop where
  table_eq : h.table = done.map TableEntry.hashed
  inserted_eq : h.inserted = done.length
  probed : Probed cap.size pathHome (pathKey table) h.slots done.length

theorem insertProbe_some {cap : HashCap} {slots : ℕ → Option ℕ} {t : ℕ} (path : CString)
    (ht : probeFind cap.size (pathHome (some path)) (fun s => (slots s).isNone) = some t) :
    ∃ idx, insertProbe cap slots cap.size (fnv1aStr path &&& cap.mask) = some idx ∧
      idx.toNat = t := by
  have hloop := insertProbe_eq cap slots cap.size (fnv1aStr path &&& cap.mask)
  rw [cap.and_mask, probeLoop_eq] at hloop
  exact Option.map_eq_some_iff.mp (hloop.trans ht)

theorem insertLoop_loaded {cap : HashCap} {table done es : List TableEntry} {h : VfsHash}
    (htable : table = done ++ es) (hfit : table.length ≤ cap.size) (hl : Loaded cap table done h) :
    ∃ h', insertLoop cap es h = some h' ∧ Loaded cap table table h' := by
  induction es generalizing done h with
  | nil =>
    rw [List.append_nil] at htable
    exact ⟨h, rfl, htable ▸ hl⟩
  | cons e es ih =>
    have hlen := congrArg List.length htable
    rw [List.length_append, List.length_cons] at hlen
    have hroom : done.length < cap.size := by omega
    have hkey : pathKey table done.length = some e.filePath := by
      unfold pathKey
      rw [htable, List.getElem?_append_right (Nat.le_refl _), Nat.sub_self]
      rfl
    -- there is a hole for the entry
    obtain ⟨s, hs, hempty⟩ := hl.probed.room hroom
    have hfind : ∃ t, probeFind cap.size (pathHome (some e.filePath))
        (fun s => (h.slots s).isNone) = some t := by
      apply probeFind_isSome hs
      rw [hempty]
      rfl
    obtain ⟨t, ht⟩ := hfind
    obtain ⟨idx, hidx, rfl⟩ := insertProbe_some e.filePath ht
    unfold insertLoop
    dsimp only
    rw [e.hashed_filePath, if_neg (by rw [hl.inserted_eq]; omega), hidx]
    dsimp only
    refine @ih (done ++ [e]) _ ?_ ?_
    · rw [htable, List.append_assoc]
      rfl
    · have hlast : (done ++ [e]).length = done.length + 1 := by
        rw [List.length_append, List.length_singleton]
      have htlen : h.table.length = done.length := by rw [hl.table_eq, List.length_map]
      constructor
      · rw [hl.table_eq, List.map_append]
        rfl
      · rw [hl.inserted_eq, hlast]
      · rw [hlast, htlen]
        exact hl.probed.insert (hkey ▸ ht)

theorem vfsHashInit_loaded (cap : HashCap) {table : List TableEntry}
    (hfit : table.length ≤ cap.size) :
    ∃ h, vfsHashInit cap table = some h ∧ Loaded cap table table h := by
  have hstart : Loaded cap table [] ⟨[], fun _ => none, 0⟩ :=
    ⟨rfl, rfl, Probed.empty cap.size pathHome (pathKey table)⟩
  exact insertLoop_loaded rfl hfit hstart

theorem vfsLookup_range {cap : HashCap} {table : List TableEntry} {h : VfsHash}
    (hl : Loaded cap table table h) (path : CString) :
    vfsLookup cap h path =
      (List.range table.length).find? fun i => pathKey table i = some path := by
  have hkeys : ∀ i, (h.table[i]?).map TableEntry.filePath = pathKey table i := by
    intro i
    rw [hl.table_eq, ← pathKey_hashed table]
    rfl
  unfold vfsLookup
  rw [lookupProbe_eq, cap.and_mask, probeLoop_eq]
  simp only [hkeys]
  exact hl.probed.lookup (some path)

theorem find_range_eq (table : List TableEntry) (path : CString) :
    ((List.range table.length).find? fun i => pathKey table i = some path) =
      table.findIdx? fun e => e.filePath = path := by
  have hkey : ∀ i (hi : i < table.length), (pathKey table i = some path ↔
      table[i].filePath = path) := by
    intro i hi
    rw [pathKey, List.getElem?_eq_getElem hi, Option.map_some, Option.some.injEq]
  cases hfind : table.findIdx? fun e => e.filePath = path with
  | none =>
    rw [List.find?_range_eq_none]
    intro i hi
    have hmiss := List.findIdx?_eq_none_iff.mp hfind _ (List.getElem_mem hi)
    rw [Bool.not_eq_true', decide_eq_false_iff_not, hkey i hi]
    exact of_decide_eq_false hmiss
  | some i =>
    obtain ⟨hi, hhit, hmiss⟩ := List.findIdx?_eq_some_iff_getElem.mp hfind
    rw [List.find?_range_eq_some]
    refine ⟨decide_eq_true ((hkey i hi).mpr (of_decide_eq_true hhit)), List.mem_range.mpr hi, ?_⟩
    intro j hj
    rw [Bool.not_eq_true', decide_eq_false_iff_not, hkey j (Nat.lt_trans hj hi)]
    exact fun heq => hmiss j hj (decide_eq_true heq)

/-- Every table of at most `VFS_HASH_CAP` entries is indexed without an abort, and a lookup finds
what a search from the front finds, also when entries share a path and when no slot is left
empty. -/
theorem vfsLookup_linear (cap : HashCap) (table : List TableEntry)
    (hfit : table.length ≤ cap.size) :
    ∃ h, vfsHashInit cap table = some h ∧ h.table = table.map TableEntry.hashed ∧
      ∀ path, vfsLookup cap h path = table.findIdx? fun e => e.filePath = path := by
  obtain ⟨h, hinit, hl⟩ := vfsHashInit_loaded cap hfit
  refine ⟨h, hinit, hl.table_eq, ?_⟩
  intro path
  rw [vfsLookup_range hl, find_range_eq]

theorem twoSlots_log : 1 ≤ 32 := by decide

/-- A table without an empty slot, with two entries of one path. -/
def twoSlots : HashCap := ⟨1, twoSlots_log⟩

def indexPath : CString := ⟨ascii "index.html", by decide⟩
def twoPages : List TableEntry := [⟨indexPath, none, 1⟩, ⟨indexPath, none, 2⟩]

theorem vfsLookup_linear_full :
    ∃ h, vfsHashInit twoSlots twoPages = some h ∧ h.table = twoPages.map TableEntry.hashed ∧
      ∀ path, vfsLookup twoSlots h path = twoPages.findIdx? fun e => e.filePath = path :=
  vfsLookup_linear twoSlots twoPages (by decide)

end LocalMarks.Vfs

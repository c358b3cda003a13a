import LocalMarks.Lib.ProbeTable
import LocalMarks.RateLimit.Calls

/-!
# Growing a table of any shape

`Raw` keeps the fields as C has them: `count` is an int, and the table may have any size. Growing
drops every entry that is not counted, so the table it yields has unbroken probe chains whatever
the old one looked like. The limiter of Table.lean is an instance (`RateLimit.raw`).
-/

namespace LocalMarks.Limiter
open LocalMarks.Lib

namespace Raw

/-- `RLEntry`; a counted entry has an IP. -/
structure RLEntry where
  ip : Option CString
  count : ℤ
  lastActivity : ℤ
  ip_of_count : 0 < count → ip ≠ none
  deriving DecidableEq

def emptyEntry : RLEntry := ⟨none, 0, 0, fun h => absurd h (Int.lt_irrefl 0)⟩

structure RateLimit where
  maxPerIp : ℤ
  table : List RLEntry
  used : ℕ
  lastSweep : ℤ

/-- new_table[slot].count == 0 -/
def RLEntry.uncounted (e : RLEntry) : Bool := e.count == 0

def rehashSlot (newTable : List RLEntry) (ip : CString) : Option ℕ :=
  probeFind newTable.length (homeSlot ip newTable.length) (freeAt RLEntry.uncounted newTable)

/-- One round of the outer loop. In its other branch a string is freed and nothing is stored. -/
def rehashEntry (newTable : List RLEntry) (e : RLEntry) : List RLEntry :=
  if 0 < e.count then
    match e.ip with
    | some ip =>
      match rehashSlot newTable ip with
      | some slot => newTable.set slot e
      | none => newTable
    | none => newTable
  else newTable

/-- The outer loop over the old table, from a zeroed one. No table in memory has so many slots that
the product would wrap. -/
def rehash (table : List RLEntry) : List RLEntry :=
  table.foldl rehashEntry (List.replicate (table.length * rlGrowthFactor) emptyEntry)

/-- `ratelimit_grow`: the return value and the limiter afterwards. -/
def ratelimitGrow (rl : RateLimit) (callocOk : Bool) : ℤ × RateLimit :=
  if callocOk then (0, { rl with table := rehash rl.table }) else (-1, rl)

/-! ### The rehash as a run of insertions -/

def RLEntry.home (n : ℕ) (e : RLEntry) : ℕ :=
  match e.ip with
  | some ip => homeSlot ip n
  | none => 0

theorem RLEntry.uncounted_eq_false {e : RLEntry} (h : 0 < e.count) : e.uncounted = false :=
  beq_eq_false_iff_ne.mpr (by omega)

theorem rehashEntry_counted {e : RLEntry} (t : List RLEntry) (h : 0 < e.count) :
    rehashEntry t e = probeInsert RLEntry.uncounted (e.home t.length) t e := by
  rw [rehashEntry, if_pos h]
  cases hip : e.ip with
  | none => exact absurd hip (e.ip_of_count h)
  | some ip =>
    cases hfind : probeFind t.length (homeSlot ip t.length) (freeAt RLEntry.uncounted t) with
    | none => simp only [probeInsert, RLEntry.home, hip, rehashSlot, hfind]
    | some slot => simp only [probeInsert, RLEntry.home, hip, rehashSlot, hfind]

theorem foldl_rehashEntry (t es : List RLEntry) :
    es.foldl rehashEntry t =
      probeFill RLEntry.uncounted (fun n e => e.home n) t (es.filter (0 < ·.count)) := by
  induction es generalizing t with
  | nil => rfl
  | cons e es ih =>
    rw [List.foldl_cons, ih, List.filter_cons]
    by_cases hc : 0 < e.count
    · rw [if_pos (decide_eq_true hc), rehashEntry_counted t hc]
      rfl
    · rw [if_neg (by simpa using hc), rehashEntry, if_neg hc]

/-! ### What growing yields -/

/-- The table `new` holds exactly the counted entries of `old`, in chains without a hole. -/
structure Grown (old new : List RLEntry) : Prop where
  size : new.length = 2 * old.length
  entries : (new.filter (0 < ·.count)).Perm (old.filter (0 < ·.count))
  others : ∀ e ∈ new, ¬ 0 < e.count → e = emptyEntry
  chained : ∀ (s : ℕ) (e : RLEntry) (ip : CString), new[s]? = some e → 0 < e.count →
    e.ip = some ip → ∀ b, ProbeBefore new.length (homeSlot ip new.length) b s →
      ∃ x, new[b]? = some x ∧ 0 < x.count

theorem rehash_spec (old : List RLEntry) :
    ((rehash old).filter (!RLEntry.uncounted ·)).Perm (old.filter (0 < ·.count)) ∧
      Chained RLEntry.uncounted (fun n e => e.home n) (rehash old) ∧
      ∀ e ∈ rehash old, e = emptyEntry ∨ 0 < e.count := by
  have hzero : ∀ x ∈ List.replicate (old.length * rlGrowthFactor) emptyEntry,
      x.uncounted = true := by
    intro x hx
    rw [List.eq_of_mem_replicate hx]
    rfl
  have hnone : (List.replicate (old.length * rlGrowthFactor) emptyEntry).filter
      (!RLEntry.uncounted ·) = [] := by
    rw [List.filter_eq_nil_iff]
    intro x hx
    rw [hzero x hx]
    exact Bool.false_ne_true
  have hcounted : ∀ e ∈ old.filter (0 < ·.count), 0 < e.count := by
    intro e he
    simpa using (List.mem_filter.mp he).2
  have hroom : (old.filter (0 < ·.count)).length ≤ old.length * rlGrowthFactor := by
    have := List.length_filter_le (0 < ·.count) old
    rw [rlGrowthFactor]
    omega
  have hstart : Chained RLEntry.uncounted (fun n e => e.home n)
      (List.replicate (old.length * rlGrowthFactor) emptyEntry) := Chained.of_free hzero
  rw [rehash, foldl_rehashEntry]
  obtain ⟨hperm, hchain⟩ := probeFill_spec
    (fun e he => RLEntry.uncounted_eq_false (hcounted e he))
    (by rwa [hnone, List.length_replicate, List.length_nil, Nat.zero_add]) hstart
  rw [hnone, List.append_nil] at hperm
  refine ⟨hperm, hchain, ?_⟩
  intro e he
  rcases probeFill_mem he with h | h
  · exact Or.inl (List.eq_of_mem_replicate h)
  · exact Or.inr (hcounted e h)

theorem rehash_grown (old : List RLEntry) : Grown old (rehash old) := by
  obtain ⟨hperm, hchain, hmem⟩ := rehash_spec old
  -- in the new table a slot is free exactly when it is not counted
  have hcounted : ∀ e ∈ rehash old, decide (0 < e.count) = !e.uncounted := by
    intro e he
    rcases hmem e he with rfl | hc
    · rfl
    · rw [RLEntry.uncounted_eq_false hc, decide_eq_true hc]
      rfl
  constructor
  · rw [rehash, foldl_rehashEntry, probeFill_length, List.length_replicate, rlGrowthFactor,
      Nat.mul_comm]
  · rwa [List.filter_congr hcounted]
  · intro e he hc
    exact (hmem e he).resolve_right hc
  · intro s e ip hs hc hip b hb
    have hbn : b < (rehash old).length := by
      obtain ⟨i, j, hij, hj, rfl, -⟩ := hb
      exact probeSlot_lt _ i (by omega)
    have hx := List.getElem?_eq_getElem hbn
    have htaken := hchain s e hs (RLEntry.uncounted_eq_false hc) b _
      (by simpa only [RLEntry.home, hip] using hb) hx
    have hcx := hcounted _ (List.mem_of_getElem? hx)
    rw [htaken, Bool.not_false, decide_eq_true_eq] at hcx
    exact ⟨(rehash old)[b], hx, hcx⟩

/-- Growing with a successful calloc rebuilds the table and leaves every other field alone. -/
theorem ratelimitGrow_grown (rl : RateLimit) :
    (ratelimitGrow rl true).1 = 0 ∧ Grown rl.table (ratelimitGrow rl true).2.table ∧
      { (ratelimitGrow rl true).2 with table := rl.table } = rl :=
  ⟨rfl, rehash_grown rl.table, rfl⟩

end Raw

/-! ### The limiter of Table.lean -/

def RLEntry.raw (e : RLEntry) : Raw.RLEntry :=
  ⟨e.ip, e.count, e.lastActivity, fun h => e.ip_of_count (by omega)⟩

def RateLimit.raw (rl : RateLimit) : Raw.RateLimit :=
  ⟨rl.maxPerIp, rl.table.map RLEntry.raw, rl.used, rl.lastSweep⟩

theorem rehashSlot_raw (t : List RLEntry) (ip : CString) :
    Raw.rehashSlot (t.map RLEntry.raw) ip = rehashSlot t ip := by
  unfold Raw.rehashSlot rehashSlot
  rw [List.length_map]
  congr 1
  funext slot
  rw [freeAt, List.getElem?_map]
  cases t[slot]? with
  | none => rfl
  | some e =>
    rw [Option.map_some, Option.any_some, Bool.eq_iff_iff]
    simp only [Raw.RLEntry.uncounted, RLEntry.raw, beq_iff_eq, Int.natCast_eq_zero]

theorem rehashEntry_raw (t : List RLEntry) (e : RLEntry) :
    Raw.rehashEntry (t.map RLEntry.raw) e.raw = (rehashEntry t e).map RLEntry.raw := by
  have hip : e.raw.ip = e.ip := rfl
  rw [Raw.rehashEntry, rehashEntry, hip]
  by_cases hc : 0 < e.count
  · rw [if_pos hc, if_pos (show 0 < e.raw.count from Int.natCast_pos.mpr hc)]
    cases e.ip with
    | none => rfl
    | some ip =>
      simp only [rehashSlot_raw]
      cases rehashSlot t ip with
      | none => rfl
      | some slot => exact (List.map_set ..).symm
  · rw [if_neg hc, if_neg (show ¬ 0 < e.raw.count from fun h => hc (Int.natCast_pos.mp h))]

theorem ratelimitGrow_raw (rl : RateLimit) :
    (ratelimitGrow rl true).map RateLimit.raw = some (Raw.ratelimitGrow rl.raw true).2 := by
  have hrun : ∀ es t : List RLEntry, (es.map RLEntry.raw).foldl Raw.rehashEntry
      (t.map RLEntry.raw) = (es.foldl rehashEntry t).map RLEntry.raw := by
    intro es
    induction es with
    | nil => exact fun t => rfl
    | cons e es ih =>
      intro t
      rw [List.map_cons, List.foldl_cons, rehashEntry_raw, ih, List.foldl_cons]
  have hempty : emptyEntry.raw = Raw.emptyEntry := rfl
  have htable := hrun rl.table (List.replicate (rl.tableSize * rlGrowthFactor) emptyEntry)
  rw [List.map_replicate, hempty] at htable
  rw [RateLimit.tableSize] at htable
  rw [ratelimitGrow, if_pos rfl, Option.map_some, Raw.ratelimitGrow, if_pos rfl]
  simp only [RateLimit.raw, Raw.rehash, List.length_map, htable, RateLimit.tableSize]

/-- On a table that has just grown, the probe of accept reaches the IP's entry: no hole left by an
eviction makes it store the IP a second time. -/
theorem acceptProbe_grown {rl rl' : RateLimit} (h : ratelimitGrow rl true = some rl')
    {e : RLEntry} {ip : CString} (he : e ∈ rl.table) (hc : 0 < e.count) (hip : e.ip = some ip) :
    ∃ slot x, acceptProbe rl' ip = some slot ∧ rl'.table[slot]? = some x ∧ x.ip = some ip := by
  have htable : rl'.table.map RLEntry.raw = Raw.rehash (rl.table.map RLEntry.raw) := by
    have hraw := ratelimitGrow_raw rl
    rw [h, Option.map_some, Option.some.injEq] at hraw
    exact congrArg Raw.RateLimit.table hraw
  have hgrown := Raw.rehash_grown (rl.table.map RLEntry.raw)
  rw [← htable] at hgrown
  -- the entry is in the new table, at a slot where the probe would stop
  have hold : e.raw ∈ (rl.table.map RLEntry.raw).filter (0 < ·.count) := by
    have hcount : 0 < e.raw.count := Int.natCast_pos.mpr hc
    exact List.mem_filter.mpr ⟨List.mem_map_of_mem he, decide_eq_true hcount⟩
  obtain ⟨hnew, hpos⟩ := List.mem_filter.mp (hgrown.entries.mem_iff.mpr hold)
  obtain ⟨i, hi⟩ := List.mem_iff_getElem?.mp hnew
  obtain ⟨y, hy, hraw⟩ := by simpa only [List.getElem?_map, Option.map_eq_some_iff] using hi
  have hyip : y.ip = some ip := (congrArg Raw.RLEntry.ip hraw).trans hip
  have hlen := (List.getElem?_eq_some_iff.mp hy).1
  have hstop : stopsAt rl' ip i = true := by simp [stopsAt, hy, hyip]
  obtain ⟨slot, hslot⟩ : ∃ slot, acceptProbe rl' ip = some slot := probeFind_isSome hlen hstop
  obtain ⟨x, hx, hcase⟩ := acceptProbe_some hslot
  rcases hcase with ⟨hx0, -⟩ | hxip
  · have hy0 : 0 < y.count := by
      have hcount : (y.count : ℤ) = e.count := congrArg Raw.RLEntry.count hraw
      omega
    have hne : slot ≠ i := by
      rintro rfl
      rw [hx, Option.some.injEq] at hy
      rw [hy] at hx0
      omega
    have hlt := (probeFind_some hslot).1
    have horder : ProbeBefore rl'.tableSize (homeSlot ip rl'.tableSize) slot i ∨
        ProbeBefore rl'.tableSize (homeSlot ip rl'.tableSize) i slot :=
      probeBefore_total hlt hlen hne
    -- an empty slot before the entry would break its chain; after it, the probe would have stopped
    rcases horder with hb | hb
    · obtain ⟨z, hz, hz0⟩ := hgrown.chained i e.raw ip hi (Int.natCast_pos.mpr hc) hip slot
        (by rwa [List.length_map])
      rw [List.getElem?_map, hx, Option.map_some, Option.some.injEq] at hz
      have hcount : (x.count : ℤ) = z.count := congrArg Raw.RLEntry.count hz
      omega
    · rw [(probeFind_some hslot).2.2 i hb] at hstop
      exact absurd hstop Bool.false_ne_true
  · exact ⟨slot, x, hslot, hx, hxip⟩

end LocalMarks.Limiter

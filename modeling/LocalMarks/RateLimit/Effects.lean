import LocalMarks.RateLimit.Table

/-!
# What each limiter operation does to the totals of the table

Readings that vanish on dormant and empty entries (`LiveReading`) are kept by the sweep
and by the rehash, so accept and leave change them only at the slot they stop at.
-/

namespace LocalMarks.Limiter
open LocalMarks.Lib

/-- Readings used below: the connections counted for an IP, whether a slot is occupied,
whether it counts anything, and whether it is occupied without counting anything. -/
def countOf (ip : CString) (e : RLEntry) : ℕ := if e.ip = some ip then e.count else 0
def occupiedInd (e : RLEntry) : ℕ := if e.ip.isSome then 1 else 0
def liveInd (e : RLEntry) : ℕ := if 0 < e.count then 1 else 0
def dormantInd (e : RLEntry) : ℕ := if e.count = 0 ∧ e.ip ≠ none then 1 else 0

/-- The sum of `count` over all slots that hold `ip`. -/
def ipSum (rl : RateLimit) (ip : CString) : ℕ := weight (countOf ip) rl.table

/-- The number of slots whose `ip` is not NULL. -/
def occupied (rl : RateLimit) : ℕ := weight occupiedInd rl.table

def LiveReading (f : RLEntry → ℕ) : Prop := ∀ e, e.count = 0 → f e = 0

theorem countOf_live (ip : CString) : LiveReading (countOf ip) := by
  intro e he
  simp only [countOf, he, ite_self]

theorem liveInd_live : LiveReading liveInd := by
  intro e he
  simp only [liveInd, he, Nat.lt_irrefl, ite_false]

theorem RLEntry.count_of_none {e : RLEntry} (h : e.ip = none) : e.count = 0 := by
  by_contra hne
  exact e.ip_of_count (Nat.pos_of_ne_zero hne) h

theorem occupiedInd_eq (e : RLEntry) : occupiedInd e = liveInd e + dormantInd e := by
  unfold occupiedInd liveInd dormantInd
  cases hip : e.ip with
  | none => simp [RLEntry.count_of_none hip]
  | some ip =>
    by_cases hc : e.count = 0
    · simp [hc]
    · simp [hc, Nat.pos_of_ne_zero hc]

/-! ### Setting a slot -/

@[simp] theorem setSlot_table (rl : RateLimit) (slot : ℕ) (e : RLEntry) :
    (rl.setSlot slot e).table = rl.table.set slot e := rfl

theorem occupied_setSlot {rl : RateLimit} {slot : ℕ} {e x : RLEntry}
    (he : rl.table[slot]? = some e) (h : x.ip.isSome = e.ip.isSome) :
    occupied (rl.setSlot slot x) = occupied rl := by
  have hw := weight_set occupiedInd x he
  have hx : occupiedInd x = occupiedInd e := by simp only [occupiedInd, h]
  rw [hx] at hw
  exact Nat.add_right_cancel hw

/-! ### The sweep -/

theorem stale_count {now : ℤ} {e : RLEntry} (h : e.stale now = true) :
    e.count = 0 ∧ e.ip.isSome = true := by
  simp only [RLEntry.stale, Bool.and_eq_true, beq_iff_eq] at h
  exact h.1

theorem sweepSlots_weight {f : RLEntry → ℕ} (hf : LiveReading f) (now : ℤ)
    (es : List RLEntry) (used : ℕ) : weight f (sweepSlots now es used).1 = weight f es := by
  induction es generalizing used with
  | nil => rfl
  | cons e es ih =>
    rw [sweepSlots]
    split
    · rename_i hs
      simp only [weight_cons, ih]
      rw [hf e (stale_count hs).1, hf e.clear rfl]
    · simp only [weight_cons, ih]

/-- The counter and the occupancy drop together, and the counter never wraps, as long as
it starts at or above the occupancy. -/
theorem sweepSlots_used (now : ℤ) (es : List RLEntry) (used : ℕ)
    (h : weight occupiedInd es ≤ used) :
    weight occupiedInd (sweepSlots now es used).1 + used =
      weight occupiedInd es + (sweepSlots now es used).2 := by
  induction es generalizing used with
  | nil => rfl
  | cons e es ih =>
    rw [sweepSlots]
    simp only [weight_cons] at h
    split
    · rename_i hs
      have ho : occupiedInd e = 1 := by simp only [occupiedInd, (stale_count hs).2, ite_true]
      have hc : occupiedInd e.clear = 0 := rfl
      have hd : sizeDec used = used - 1 := by
        rw [sizeDec, if_neg (by omega)]
      have := ih (used - 1) (by omega)
      simp only [weight_cons, hd, ho, hc]
      omega
    · have := ih used (by omega)
      simp only [weight_cons]
      omega

/-- Whenever the sweep reaches a slot it evicts, the counter is still positive. -/
theorem sweepSlots_no_wrap (now : ℤ) (pre : List RLEntry) (e : RLEntry) (post : List RLEntry)
    (used : ℕ) (h : weight occupiedInd (pre ++ e :: post) ≤ used) (hs : e.stale now = true) :
    0 < (sweepSlots now pre used).2 := by
  have ho : occupiedInd e = 1 := by simp only [occupiedInd, (stale_count hs).2, ite_true]
  simp only [weight_append, weight_cons, ho] at h
  have := sweepSlots_used now pre used (by omega)
  omega

theorem sweepSlots_mem {now : ℤ} {es : List RLEntry} {used : ℕ} {e : RLEntry}
    (h : e ∈ (sweepSlots now es used).1) (hc : 0 < e.count) : e ∈ es := by
  induction es generalizing used with
  | nil => exact h
  | cons x es ih =>
    rw [sweepSlots] at h
    split at h
    · rcases List.mem_cons.mp h with rfl | h
      · exact absurd hc (Nat.lt_irrefl 0)
      · exact List.mem_cons_of_mem _ (ih h)
    · rcases List.mem_cons.mp h with rfl | h
      · exact List.mem_cons_self ..
      · exact List.mem_cons_of_mem _ (ih h)

theorem sweepSlots_getElem? (now : ℤ) (es : List RLEntry) (used i : ℕ) :
    (sweepSlots now es used).1[i]? = es[i]? ∨
      ∃ e, es[i]? = some e ∧ (sweepSlots now es used).1[i]? = some e.clear := by
  induction es generalizing used i with
  | nil => exact Or.inl rfl
  | cons e es ih =>
    rw [sweepSlots]
    split
    · cases i with
      | zero => exact Or.inr ⟨e, rfl, rfl⟩
      | succ i => simpa using ih (sizeDec used) i
    · cases i with
      | zero => exact Or.inl rfl
      | succ i => simpa using ih used i

/-! ### The rehash -/

theorem rehashSlot_some {t : List RLEntry} {ip : CString} {slot : ℕ}
    (h : rehashSlot t ip = some slot) : ∃ e, t[slot]? = some e ∧ e.count = 0 := by
  have hp := (probeFind_some h).2.1
  cases he : t[slot]? with
  | none => simp [he] at hp
  | some e => exact ⟨e, rfl, by simpa [he] using hp⟩

theorem rehashSlot_isSome {t : List RLEntry} (ip : CString) (h : weight liveInd t < t.length) :
    ∃ slot, rehashSlot t ip = some slot := by
  obtain ⟨i, e, hi, he⟩ := exists_of_weight_lt h
  have hc : e.count = 0 := by
    by_contra hne
    simp only [liveInd, Nat.pos_of_ne_zero hne, ite_true] at he
    contradiction
  exact probeFind_isSome (List.getElem?_eq_some_iff.mp hi).1 (by simp [hi, hc])

theorem rehashEntry_weight {f : RLEntry → ℕ} (hf : LiveReading f) (t : List RLEntry)
    (e : RLEntry) (h : weight liveInd t < t.length) :
    weight f (rehashEntry t e) = weight f t + f e := by
  unfold rehashEntry
  split
  · rename_i hc
    cases hip : e.ip with
    | none => exact absurd hip (e.ip_of_count hc)
    | some ip =>
      obtain ⟨slot, hslot⟩ := rehashSlot_isSome ip h
      obtain ⟨x, hx, hx0⟩ := rehashSlot_some hslot
      have := weight_set f e hx
      rw [hf x hx0] at this
      simpa only [hslot, Nat.add_zero] using this
  · rename_i hc
    rw [hf e (by omega), Nat.add_zero]

theorem rehash_weight {f : RLEntry → ℕ} (hf : LiveReading f) (es t : List RLEntry)
    (h : weight liveInd t + es.length < t.length) :
    weight f (es.foldl rehashEntry t) = weight f t + weight f es := by
  induction es generalizing t with
  | nil => rfl
  | cons e es ih =>
    simp only [List.length_cons] at h
    have hl := rehashEntry_weight liveInd_live t e (by omega)
    have hone : liveInd e ≤ 1 := by unfold liveInd; split <;> omega
    have hrec := ih (rehashEntry t e) (by rw [rehashEntry_length]; omega)
    rw [List.foldl_cons, hrec, rehashEntry_weight hf t e (by omega), weight_cons, Nat.add_assoc]

theorem rehashEntry_mem {t : List RLEntry} {e x : RLEntry} (h : x ∈ rehashEntry t e) :
    x ∈ t ∨ (x = e ∧ 0 < e.count) := by
  unfold rehashEntry at h
  split at h
  · rename_i hc
    split at h
    · split at h
      · rcases List.mem_or_eq_of_mem_set h with h | h
        · exact Or.inl h
        · exact Or.inr ⟨h, hc⟩
      · exact Or.inl h
    · exact Or.inl h
  · exact Or.inl h

theorem rehash_mem {es t : List RLEntry} {x : RLEntry} (h : x ∈ es.foldl rehashEntry t) :
    x ∈ t ∨ (x ∈ es ∧ 0 < x.count) := by
  induction es generalizing t with
  | nil => exact Or.inl h
  | cons e es ih =>
    rcases ih h with h | ⟨h, hc⟩
    · rcases rehashEntry_mem h with h | ⟨rfl, hc⟩
      · exact Or.inl h
      · exact Or.inr ⟨List.mem_cons_self .., hc⟩
    · exact Or.inr ⟨List.mem_cons_of_mem _ h, hc⟩

theorem ratelimitGrow_some {rl rl' : RateLimit} {ok : Bool} (h : ratelimitGrow rl ok = some rl') :
    rl'.table = rl.table.foldl rehashEntry
        (List.replicate (rl.tableSize * rlGrowthFactor) emptyEntry) ∧
      rl'.used = rl.used ∧ rl'.maxPerIp = rl.maxPerIp := by
  unfold ratelimitGrow at h
  split at h
  · cases h
    exact ⟨rfl, rfl, rfl⟩
  · cases h

theorem weight_replicate_empty {f : RLEntry → ℕ} (hf : LiveReading f) (n : ℕ) :
    weight f (List.replicate n emptyEntry) = 0 :=
  weight_eq_zero fun a ha => by rw [List.eq_of_mem_replicate ha]; exact hf _ rfl

theorem ratelimitGrow_weight {f : RLEntry → ℕ} (hf : LiveReading f) {rl rl' : RateLimit}
    {ok : Bool} (h : ratelimitGrow rl ok = some rl') : weight f rl'.table = weight f rl.table := by
  have hpos := rl.size_pos
  have hroom : weight liveInd (List.replicate (rl.tableSize * rlGrowthFactor) emptyEntry) +
      rl.table.length < (List.replicate (rl.tableSize * rlGrowthFactor) emptyEntry).length := by
    rw [weight_replicate_empty liveInd_live, List.length_replicate, rlGrowthFactor,
      RateLimit.tableSize]
    omega
  rw [(ratelimitGrow_some h).1, rehash_weight hf _ _ hroom, weight_replicate_empty hf, Nat.zero_add]

theorem ratelimitGrow_size {rl rl' : RateLimit} {ok : Bool} (h : ratelimitGrow rl ok = some rl') :
    rl'.tableSize = rl.tableSize * rlGrowthFactor := by
  rw [RateLimit.tableSize, (ratelimitGrow_some h).1, rehash_length, List.length_replicate]

/-- A grown table holds counted entries and empty slots only. -/
theorem ratelimitGrow_mem {rl rl' : RateLimit} {ok : Bool} (h : ratelimitGrow rl ok = some rl')
    {e : RLEntry} (he : e ∈ rl'.table) : e = emptyEntry ∨ (e ∈ rl.table ∧ 0 < e.count) := by
  rw [(ratelimitGrow_some h).1] at he
  rcases rehash_mem he with he | he
  · exact Or.inl (List.eq_of_mem_replicate he)
  · exact Or.inr he

theorem ratelimitGrow_occupied_eq {rl rl' : RateLimit} {ok : Bool}
    (h : ratelimitGrow rl ok = some rl') : occupied rl' = weight liveInd rl.table := by
  rw [← ratelimitGrow_weight liveInd_live h]
  refine weight_congr fun e he => ?_
  rcases ratelimitGrow_mem h he with rfl | ⟨_, hc⟩
  · rfl
  · rw [occupiedInd_eq, dormantInd, if_neg (fun hd => by omega), Nat.add_zero]

/-- Growing never raises the occupancy, and leaves at most one occupied slot for each slot
of the old table. -/
theorem ratelimitGrow_occupied {rl rl' : RateLimit} {ok : Bool}
    (h : ratelimitGrow rl ok = some rl') :
    occupied rl' ≤ occupied rl ∧ occupied rl' ≤ rl.tableSize := by
  have hlive : weight liveInd rl.table ≤ weight occupiedInd rl.table := weight_mono fun e _ => by
    rw [occupiedInd_eq]
    exact Nat.le_add_right _ _
  have hone : weight liveInd rl.table ≤ weight (fun _ => 1) rl.table :=
    weight_mono fun e _ => by unfold liveInd; split <;> omega
  rw [weight_const_one] at hone
  rw [ratelimitGrow_occupied_eq h]
  exact ⟨hlive, hone⟩

end LocalMarks.Limiter

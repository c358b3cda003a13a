import LocalMarks.RateLimit.Effects

/-!
# One call of accept or leave

`AcceptStep` lists the ways `ratelimit_accept` can end, with the limiter it leaves behind.
Everything later is derived from it and from `ratelimitLeave_held`.
-/

namespace LocalMarks.Limiter
open LocalMarks.Lib

/-- The ways out of `ratelimit_accept`, seen from the prepared limiter `p`. -/
inductive AcceptStep (p : RateLimit) (ip : CString) (env : AcceptEnv) : ℤ × RateLimit → Prop where
  | full : acceptProbe p ip = none → AcceptStep p ip env (-1, p)
  | fresh (slot : ℕ) (e : RLEntry) : acceptProbe p ip = some slot → p.table[slot]? = some e →
      e.count = 0 → e.ip = none →
      AcceptStep p ip env (0, { p.setSlot slot
        ⟨some ip, 1, env.now, fun _ => Option.some_ne_none ip⟩ with used := p.used + 1 })
  | noMemory (slot : ℕ) : acceptProbe p ip = some slot → env.strdupOk = false →
      AcceptStep p ip env (-1, p)
  | limited (slot : ℕ) (e : RLEntry) : acceptProbe p ip = some slot → p.table[slot]? = some e →
      e.ip = some ip → p.maxPerIp ≤ e.count →
      AcceptStep p ip env (-1, p.setSlot slot { e with lastActivity := env.now })
  | counted (slot : ℕ) (e : RLEntry) : acceptProbe p ip = some slot → p.table[slot]? = some e →
      e.ip = some ip → (e.count : ℤ) < p.maxPerIp →
      AcceptStep p ip env (0, p.setSlot slot
        ⟨some ip, e.count + 1, env.now, fun _ => Option.some_ne_none ip⟩)

theorem acceptProbe_some {rl : RateLimit} {ip : CString} {slot : ℕ}
    (h : acceptProbe rl ip = some slot) :
    ∃ e, rl.table[slot]? = some e ∧ ((e.count = 0 ∧ e.ip = none) ∨ e.ip = some ip) := by
  have hp := (probeFind_some h).2.1
  unfold stopsAt at hp
  cases he : rl.table[slot]? with
  | none => simp [he] at hp
  | some e => exact ⟨e, rfl, by simpa [he] using hp⟩

theorem ratelimitAccept_step (rl : RateLimit) (ip : CString) (env : AcceptEnv) :
    AcceptStep (acceptPrepare rl env) ip env (ratelimitAccept rl ip env) := by
  unfold ratelimitAccept
  generalize acceptPrepare rl env = p
  dsimp only
  cases hp : acceptProbe p ip with
  | none => exact .full hp
  | some slot =>
    obtain ⟨e, he, hstop⟩ := acceptProbe_some hp
    simp only [he]
    split
    · rename_i hempty
      split
      · exact .fresh slot e hp he hempty.1 hempty.2
      · rename_i hmem
        exact .noMemory slot hp (by simpa using hmem)
    · rename_i hne
      have hip : e.ip = some ip := hstop.resolve_left hne
      split
      · rename_i hmax
        exact .limited slot e hp he hip hmax
      · rename_i hmax
        exact .counted slot e hp he hip (by omega)

/-! ### The prepared limiter -/

theorem acceptSweep_cases (rl : RateLimit) (env : AcceptEnv) :
    acceptSweep rl env = rl ∨
      acceptSweep rl env = { ratelimitSweepStale rl env.sweepNow with lastSweep := env.now } := by
  unfold acceptSweep
  split
  · exact Or.inr rfl
  · exact Or.inl rfl

theorem acceptGrow_cases (rl : RateLimit) (env : AcceptEnv) :
    (acceptGrow rl env = rl ∧ (env.callocOk = true → rl.used * 4 < rl.tableSize * 3)) ∨
      ratelimitGrow rl env.callocOk = some (acceptGrow rl env) := by
  unfold acceptGrow
  split
  · cases hg : ratelimitGrow rl env.callocOk with
    | some rl' => exact Or.inr rfl
    | none =>
      refine Or.inl ⟨rfl, fun hok => ?_⟩
      simp [ratelimitGrow, hok] at hg
  · exact Or.inl ⟨rfl, fun _ => by omega⟩

theorem acceptPrepare_weight {f : RLEntry → ℕ} (hf : LiveReading f) (rl : RateLimit)
    (env : AcceptEnv) : weight f (acceptPrepare rl env).table = weight f rl.table := by
  have hsweep : weight f (acceptSweep rl env).table = weight f rl.table := by
    rcases acceptSweep_cases rl env with h | h
    · rw [h]
    · rw [h]
      exact sweepSlots_weight hf env.sweepNow rl.table rl.used
  rw [← hsweep, acceptPrepare]
  rcases acceptGrow_cases (acceptSweep rl env) env with ⟨h, _⟩ | h
  · rw [h]
  · exact ratelimitGrow_weight hf h

theorem acceptPrepare_maxPerIp (rl : RateLimit) (env : AcceptEnv) :
    (acceptPrepare rl env).maxPerIp = rl.maxPerIp := by
  have hsweep : (acceptSweep rl env).maxPerIp = rl.maxPerIp := by
    rcases acceptSweep_cases rl env with h | h <;> rw [h]
    rfl
  rw [← hsweep, acceptPrepare]
  rcases acceptGrow_cases (acceptSweep rl env) env with ⟨h, _⟩ | h
  · rw [h]
  · exact (ratelimitGrow_some h).2.2

theorem acceptPrepare_mem {rl : RateLimit} {env : AcceptEnv} {e : RLEntry}
    (h : e ∈ (acceptPrepare rl env).table) (hc : 0 < e.count) : e ∈ rl.table := by
  have hgrow : e ∈ (acceptSweep rl env).table := by
    rcases acceptGrow_cases (acceptSweep rl env) env with ⟨hg, _⟩ | hg
    · rwa [acceptPrepare, hg] at h
    · rcases ratelimitGrow_mem hg h with rfl | ⟨hm, _⟩
      · exact absurd hc (Nat.lt_irrefl 0)
      · exact hm
  rcases acceptSweep_cases rl env with hs | hs
  · rwa [hs] at hgrow
  · rw [hs] at hgrow
    exact sweepSlots_mem hgrow hc

theorem acceptSweep_occupied {rl : RateLimit} (env : AcceptEnv) (h : occupied rl ≤ rl.used) :
    occupied (acceptSweep rl env) ≤ (acceptSweep rl env).used := by
  rcases acceptSweep_cases rl env with hs | hs
  · rwa [hs]
  · rw [hs]
    have := sweepSlots_used env.sweepNow rl.table rl.used h
    have ho : occupied rl = weight occupiedInd rl.table := rfl
    change weight occupiedInd (sweepSlots env.sweepNow rl.table rl.used).1 ≤
      (sweepSlots env.sweepNow rl.table rl.used).2
    omega

theorem acceptPrepare_occupied {rl : RateLimit} (env : AcceptEnv) (h : occupied rl ≤ rl.used) :
    occupied (acceptPrepare rl env) ≤ (acceptPrepare rl env).used := by
  have hsweep := acceptSweep_occupied env h
  rcases acceptGrow_cases (acceptSweep rl env) env with ⟨hg, _⟩ | hg
  · rwa [acceptPrepare, hg]
  · have hle := (ratelimitGrow_occupied hg).1
    rw [acceptPrepare, (ratelimitGrow_some hg).2.1]
    exact hle.trans hsweep

/-- When the allocation for growing succeeds, the prepared table has a free slot. -/
theorem acceptPrepare_room {rl : RateLimit} {env : AcceptEnv} (h : occupied rl ≤ rl.used)
    (hok : env.callocOk = true) :
    occupied (acceptPrepare rl env) < (acceptPrepare rl env).tableSize := by
  have hsweep := acceptSweep_occupied env h
  have hpos := (acceptSweep rl env).size_pos
  rcases acceptGrow_cases (acceptSweep rl env) env with ⟨hg, hload⟩ | hg
  · rw [acceptPrepare, hg]
    have := hload hok
    omega
  · have hle := (ratelimitGrow_occupied hg).2
    rw [acceptPrepare, ratelimitGrow_size hg, rlGrowthFactor]
    rw [RateLimit.tableSize] at hle ⊢
    omega

/-- A table with a free slot never lets the probe of accept run through. -/
theorem acceptProbe_isSome {rl : RateLimit} (ip : CString) (h : occupied rl < rl.tableSize) :
    ∃ slot, acceptProbe rl ip = some slot := by
  obtain ⟨i, e, hi, he⟩ := exists_of_weight_lt h
  have hip : e.ip = none := by
    by_contra hne
    simp only [occupiedInd, Option.isSome_iff_ne_none.mpr hne, ite_true] at he
    contradiction
  have hc := RLEntry.count_of_none hip
  exact probeFind_isSome (List.getElem?_eq_some_iff.mp hi).1 (by simp [stopsAt, hi, hc, hip])

/-! ### Sums after a call -/

/-- Accept raises the sum of its own IP by one when it returns 0, and changes no other sum. -/
theorem ratelimitAccept_ipSum (rl : RateLimit) (ip : CString) (env : AcceptEnv) (x : CString) :
    ipSum (ratelimitAccept rl ip env).2 x =
      ipSum rl x + if (ratelimitAccept rl ip env).1 = 0 ∧ x = ip then 1 else 0 := by
  have hprep := acceptPrepare_weight (countOf_live x) rl env
  unfold ipSum
  rw [← hprep]
  have hcase : ∀ e : RLEntry, e.ip = some ip → countOf x e = if x = ip then e.count else 0 := by
    intro e he
    simp only [countOf, he, Option.some.injEq, eq_comm]
  have hstep := ratelimitAccept_step rl ip env
  generalize ratelimitAccept rl ip env = r at hstep ⊢
  cases hstep with
  | full _ => simp
  | noMemory _ _ _ => simp
  | fresh slot e _ he hc hip =>
    have hw := weight_set (countOf x) ⟨some ip, 1, env.now, fun _ => Option.some_ne_none ip⟩ he
    rw [hcase ⟨some ip, 1, env.now, _⟩ rfl, countOf_live x e hc] at hw
    simpa using hw
  | limited slot e _ he hip _ =>
    have hw := weight_set (countOf x) { e with lastActivity := env.now } he
    rw [hcase e hip, hcase { e with lastActivity := env.now } hip] at hw
    simp only [setSlot_table]
    rw [if_neg (by omega), Nat.add_zero]
    exact Nat.add_right_cancel hw
  | counted slot e _ he hip _ =>
    have hw := weight_set (countOf x)
      ⟨some ip, e.count + 1, env.now, fun _ => Option.some_ne_none ip⟩ he
    rw [hcase e hip, hcase ⟨some ip, e.count + 1, env.now, _⟩ rfl] at hw
    simp only [setSlot_table, true_and]
    split at hw <;> rename_i hx <;> simp only [hx, ite_true, ite_false] at hw ⊢ <;> omega

theorem ratelimitAccept_maxPerIp (rl : RateLimit) (ip : CString) (env : AcceptEnv) :
    (ratelimitAccept rl ip env).2.maxPerIp = rl.maxPerIp := by
  rw [← acceptPrepare_maxPerIp rl env]
  have hstep := ratelimitAccept_step rl ip env
  generalize ratelimitAccept rl ip env = r at hstep ⊢
  cases hstep <;> rfl

/-- From the prepared limiter on, accept raises `used` exactly when it fills a slot. -/
theorem acceptStep_used {p : RateLimit} {ip : CString} {env : AcceptEnv} {r : ℤ × RateLimit}
    (h : AcceptStep p ip env r) : occupied r.2 + p.used = occupied p + r.2.used := by
  cases h with
  | full _ => rfl
  | noMemory _ _ _ => rfl
  | fresh slot e _ he hc hip =>
    have hw := weight_set occupiedInd
      ⟨some ip, 1, env.now, fun _ => Option.some_ne_none ip⟩ he
    simp only [occupiedInd, hip, Option.isSome_some, Option.isSome_none, ite_true] at hw
    simp only [Bool.false_eq_true, ite_false, Nat.add_zero] at hw
    unfold occupied
    simp only [setSlot_table]
    omega
  | limited slot e _ he hip _ =>
    have ho : occupied (p.setSlot slot { e with lastActivity := env.now }) = occupied p :=
      occupied_setSlot he rfl
    rw [ho]
    rfl
  | counted slot e _ he hip _ =>
    have ho : occupied (p.setSlot slot
        ⟨some ip, e.count + 1, env.now, fun _ => Option.some_ne_none ip⟩) = occupied p :=
      occupied_setSlot he (by rw [hip])
    rw [ho]
    rfl

theorem ratelimitAccept_occupied {rl : RateLimit} (ip : CString) (env : AcceptEnv)
    (h : occupied rl ≤ rl.used) :
    occupied (ratelimitAccept rl ip env).2 ≤ (ratelimitAccept rl ip env).2.used := by
  have hp := acceptPrepare_occupied env h
  have hstep := acceptStep_used (ratelimitAccept_step rl ip env)
  omega

theorem ratelimitLeave_held {rl : RateLimit} {ip : CString} (now : ℤ) (h : 0 < ipSum rl ip) :
    ∃ (slot : ℕ) (e : RLEntry) (hc : 0 < e.count), leaveProbe rl ip = some slot ∧
      rl.table[slot]? = some e ∧ e.ip = some ip ∧
      ratelimitLeave rl ip now = rl.setSlot slot ⟨e.ip, e.count - 1, now,
        fun _ => e.ip_of_count hc⟩ := by
  obtain ⟨e, he, hpos⟩ := exists_of_weight_pos h
  obtain ⟨i, hi⟩ := List.mem_iff_getElem?.mp he
  have hip : e.ip = some ip := by
    by_contra hne
    simp [countOf, hne] at hpos
  have hheld : heldBy rl ip i = true := by
    simp only [countOf, hip, ite_true] at hpos
    simp [heldBy, hi, hip, hpos]
  obtain ⟨slot, hslot⟩ : ∃ slot, leaveProbe rl ip = some slot :=
    probeFind_isSome (List.getElem?_eq_some_iff.mp hi).1 hheld
  have hstop := (probeFind_some hslot).2.1
  cases hx : rl.table[slot]? with
  | none => simp [heldBy, hx] at hstop
  | some x =>
    simp only [heldBy, hx, Bool.and_eq_true, decide_eq_true_eq, beq_iff_eq] at hstop
    refine ⟨slot, x, hstop.1, hslot, hx, hstop.2, ?_⟩
    have hl : leaveProbe rl ip = some slot := hslot
    simp only [ratelimitLeave, hl, hx]

theorem ratelimitLeave_frame (rl : RateLimit) (ip : CString) (now : ℤ) :
    occupied (ratelimitLeave rl ip now) = occupied rl ∧
      (ratelimitLeave rl ip now).used = rl.used ∧
      (ratelimitLeave rl ip now).maxPerIp = rl.maxPerIp := by
  unfold ratelimitLeave
  split
  · exact ⟨rfl, rfl, rfl⟩
  · split
    · exact ⟨rfl, rfl, rfl⟩
    · rename_i he
      exact ⟨occupied_setSlot he rfl, rfl, rfl⟩

/-- Leave lowers the sum of its own IP by one, when it has one, and changes no other sum. -/
theorem ratelimitLeave_ipSum (rl : RateLimit) (ip : CString) (now : ℤ) (x : CString) :
    ipSum (ratelimitLeave rl ip now) x = ipSum rl x - if x = ip then 1 else 0 := by
  by_cases h : 0 < ipSum rl ip
  · obtain ⟨slot, e, hc, _, he, hip, heq⟩ := ratelimitLeave_held now h
    have hw := weight_set (countOf x) ⟨e.ip, e.count - 1, now, fun _ => e.ip_of_count hc⟩ he
    rw [heq]
    unfold ipSum
    simp only [setSlot_table]
    simp only [countOf, hip, Option.some.injEq] at hw ⊢
    by_cases hx : x = ip
    · subst hx
      simp only [ite_true] at hw ⊢
      omega
    · rw [if_neg (Ne.symm hx), if_neg (Ne.symm hx)] at hw
      rw [if_neg hx]
      omega
  · have hnone : leaveProbe rl ip = none := by
      refine probeFind_none_iff.mpr fun s _ => ?_
      cases hs : rl.table[s]? with
      | none => simp only [heldBy, hs]
      | some e =>
        by_contra hne
        simp only [heldBy, hs, Bool.not_eq_false, Bool.and_eq_true, decide_eq_true_eq,
          beq_iff_eq] at hne
        have := le_weight (countOf ip) (List.mem_of_getElem? hs)
        simp only [countOf, hne.2, ite_true] at this
        unfold ipSum at h
        omega
    have hsame : ratelimitLeave rl ip now = rl := by simp only [ratelimitLeave, hnone]
    rw [hsame]
    split
    · rename_i hx
      subst hx
      omega
    · rfl

end LocalMarks.Limiter

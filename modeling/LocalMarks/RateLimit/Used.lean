import LocalMarks.Lib.Numeral
import LocalMarks.RateLimit.Runs

/-!
# The counter of occupied slots

The load test of accept reads `used`. Accept raises it with every slot it fills and the sweep
lowers it with every slot it clears, but the growth drops the dormant entries of the old
table and leaves it as it was. `GrowsOverDormant` names the accepts at which that happens.
-/

namespace LocalMarks.Limiter
open LocalMarks.Lib

/-- One call on a limiter. Any address may leave at any time and the clock may go back. -/
def afterCall (rl : RateLimit) : Call → RateLimit
  | .accept ip env => (ratelimitAccept rl ip env).2
  | .leave ip now => ratelimitLeave rl ip now

def CallStep (rl : RateLimit) (c : Call) (rl' : RateLimit) : Prop := rl' = afterCall rl c

def Created (rl : RateLimit) : Prop :=
  ∃ (maxConns now : ℤ) (ok : Bool), ratelimitCreate maxConns now ok = some rl

/-- `used` is the number of slots whose `ip` is not NULL, and whenever the load test of an
accept asks for a larger table, three quarters of the slots are occupied. -/
structure CountsSlots (rl : RateLimit) : Prop where
  used : occupied rl = rl.used
  load : ∀ env, (acceptSweep rl env).used * 4 ≥ (acceptSweep rl env).tableSize * 3 →
    occupied (acceptSweep rl env) * 4 ≥ (acceptSweep rl env).tableSize * 3

/-- The slots that still hold an entry when the load test of this accept runs. -/
def survivors (rl : RateLimit) (env : AcceptEnv) : List RLEntry :=
  if env.now - rl.lastSweep ≥ rlStaleTimeoutSecs then
    rl.table.filter fun e => !e.stale env.sweepNow
  else rl.table

/-- The table is due to grow, the allocation succeeds, and the sweep has left a dormant entry
in it. -/
def GrowsOverDormant (rl : RateLimit) (env : AcceptEnv) : Prop :=
  env.callocOk = true ∧ weight occupiedInd (survivors rl env) * 4 ≥ rl.tableSize * 3 ∧
    ∃ e ∈ survivors rl env, e.count = 0 ∧ e.ip ≠ none

/-- The call is not an accept that grows the table over a dormant entry. -/
def KeepsCount (rl : RateLimit) : Call → Prop
  | .accept _ env => ¬ GrowsOverDormant rl env
  | .leave _ _ => True

instance (rl : RateLimit) (env : AcceptEnv) : Decidable (GrowsOverDormant rl env) :=
  inferInstanceAs (Decidable (_ ∧ _ ∧ _))

instance (rl : RateLimit) : (c : Call) → Decidable (KeepsCount rl c)
  | .accept _ env => inferInstanceAs (Decidable (¬ GrowsOverDormant rl env))
  | .leave _ _ => isTrue trivial

/-! ### The sweep -/

theorem sweepSlots_filter {f : RLEntry → ℕ} (hf : ∀ e : RLEntry, f e.clear = 0) (now : ℤ)
    (es : List RLEntry) (used : ℕ) :
    weight f (sweepSlots now es used).1 = weight f (es.filter fun e => !e.stale now) := by
  induction es generalizing used with
  | nil => rfl
  | cons e es ih =>
    rw [sweepSlots]
    cases hs : e.stale now with
    | true =>
      rw [if_pos rfl, List.filter_cons_of_neg (by simp [hs]), weight_cons, hf, Nat.zero_add, ih]
    | false =>
      rw [if_neg (by simp), List.filter_cons_of_pos (by simp [hs]), weight_cons, weight_cons, ih]

theorem acceptSweep_survivors {f : RLEntry → ℕ} (hf : ∀ e : RLEntry, f e.clear = 0)
    (rl : RateLimit) (env : AcceptEnv) :
    weight f (acceptSweep rl env).table = weight f (survivors rl env) := by
  unfold acceptSweep survivors
  split
  · exact sweepSlots_filter hf env.sweepNow rl.table rl.used
  · rfl

theorem acceptSweep_size (rl : RateLimit) (env : AcceptEnv) :
    (acceptSweep rl env).tableSize = rl.tableSize := by
  rcases acceptSweep_cases rl env with h | h
  · rw [h]
  · rw [h]
    exact sweepSlots_length env.sweepNow rl.table rl.used

theorem acceptSweep_exact {rl : RateLimit} (env : AcceptEnv) (h : occupied rl = rl.used) :
    occupied (acceptSweep rl env) = (acceptSweep rl env).used := by
  rcases acceptSweep_cases rl env with hs | hs
  · rwa [hs]
  · rw [hs]
    have hdrop := sweepSlots_used env.sweepNow rl.table rl.used h.le
    have ho : weight occupiedInd rl.table = rl.used := h
    rw [ho, Nat.add_comm rl.used] at hdrop
    exact Nat.add_right_cancel hdrop

theorem countsSlots_of_exact {rl : RateLimit} (h : occupied rl = rl.used) : CountsSlots rl :=
  ⟨h, fun env hload => by rwa [acceptSweep_exact env h]⟩

/-! ### The growth -/

theorem dormantInd_pos {l : List RLEntry} :
    0 < weight dormantInd l ↔ ∃ e ∈ l, e.count = 0 ∧ e.ip ≠ none := by
  constructor
  · intro h
    obtain ⟨e, he, hpos⟩ := exists_of_weight_pos h
    refine ⟨e, he, ?_⟩
    by_contra hn
    rw [dormantInd, if_neg hn] at hpos
    exact absurd hpos (Nat.lt_irrefl 0)
  · intro hex
    obtain ⟨e, he, hd⟩ := hex
    have hle := le_weight dormantInd he
    rw [dormantInd, if_pos hd] at hle
    exact hle

/-- A growth keeps the counter exact if and only if no slot was dormant. -/
theorem ratelimitGrow_exact_iff {rl rl' : RateLimit} {ok : Bool} (hx : occupied rl = rl.used)
    (h : ratelimitGrow rl ok = some rl') :
    occupied rl' = rl'.used ↔ ¬ ∃ e ∈ rl.table, e.count = 0 ∧ e.ip ≠ none := by
  have hsplit : occupied rl = weight liveInd rl.table + weight dormantInd rl.table := by
    rw [occupied, ← weight_add]
    exact weight_congr fun e _ => occupiedInd_eq e
  rw [ratelimitGrow_occupied_eq h, (ratelimitGrow_some h).2.1, ← dormantInd_pos]
  omega

theorem acceptGrow_due {rl : RateLimit} {env : AcceptEnv} (hok : env.callocOk = true)
    (hload : rl.used * 4 ≥ rl.tableSize * 3) :
    ratelimitGrow rl env.callocOk = some (acceptGrow rl env) := by
  unfold acceptGrow
  rw [if_pos hload, hok]
  rfl

theorem acceptGrow_idle {rl : RateLimit} {env : AcceptEnv}
    (h : ¬ (env.callocOk = true ∧ rl.used * 4 ≥ rl.tableSize * 3)) : acceptGrow rl env = rl := by
  unfold acceptGrow
  split
  · rename_i hload
    have hok : env.callocOk = false := by
      by_contra hne
      exact h ⟨by simpa using hne, hload⟩
    simp only [ratelimitGrow, hok, Bool.false_eq_true, ite_false, Option.getD_none]
  · rfl

/-! ### The calls -/

/-- From an exact counter, accept leaves an exact counter if and only if it does not grow the
table over a dormant entry. -/
theorem ratelimitAccept_exact_iff {rl : RateLimit} (ip : CString) (env : AcceptEnv)
    (h : occupied rl = rl.used) :
    occupied (ratelimitAccept rl ip env).2 = (ratelimitAccept rl ip env).2.used ↔
      ¬ GrowsOverDormant rl env := by
  have hstep := acceptStep_used (ratelimitAccept_step rl ip env)
  have hprep : occupied (ratelimitAccept rl ip env).2 = (ratelimitAccept rl ip env).2.used ↔
      occupied (acceptPrepare rl env) = (acceptPrepare rl env).used := by omega
  have hsweep := acceptSweep_exact env h
  have hocc : occupied (acceptSweep rl env) = weight occupiedInd (survivors rl env) :=
    acceptSweep_survivors (fun _ => rfl) rl env
  have hdorm : (∃ e ∈ (acceptSweep rl env).table, e.count = 0 ∧ e.ip ≠ none) ↔
      ∃ e ∈ survivors rl env, e.count = 0 ∧ e.ip ≠ none := by
    rw [← dormantInd_pos, ← dormantInd_pos, acceptSweep_survivors (fun _ => rfl) rl env]
  rw [hprep, acceptPrepare]
  by_cases hgrow : env.callocOk = true ∧
      (acceptSweep rl env).used * 4 ≥ (acceptSweep rl env).tableSize * 3
  · rw [ratelimitGrow_exact_iff hsweep (acceptGrow_due hgrow.1 hgrow.2), hdorm]
    have hload := hgrow.2
    rw [← hsweep, hocc, acceptSweep_size] at hload
    exact not_congr ⟨fun hd => ⟨hgrow.1, hload, hd⟩, fun hd => hd.2.2⟩
  · rw [acceptGrow_idle hgrow]
    refine iff_of_true hsweep fun hd => hgrow ⟨hd.1, ?_⟩
    rw [← hsweep, hocc, acceptSweep_size]
    exact hd.2.1

theorem created_exact {rl : RateLimit} (h : Created rl) : occupied rl = rl.used := by
  obtain ⟨maxConns, now, ok, hc⟩ := h
  rw [(ratelimitCreate_some hc).2]
  exact freshLimiter_occupied maxConns now

/-- In every run in which no accept grows the table over a dormant entry, `used` is the number
of occupied slots at every point. -/
theorem reach_countsSlots (rl : RateLimit)
    (h : Reach Created (Guarded CallStep KeepsCount) rl) : CountsSlots rl := by
  refine countsSlots_of_exact (h.invariant (fun _ => created_exact) ?_)
  intro rl c rl' _ hx hst
  obtain ⟨hok, rfl⟩ := hst
  cases c with
  | accept ip env => exact (ratelimitAccept_exact_iff ip env hx).mpr hok
  | leave ip now =>
    obtain ⟨ho, hu, _⟩ := ratelimitLeave_frame rl ip now
    rw [afterCall, ho, hu, hx]

theorem reach_countsSlots_swept :
    ∃ rl, runGuarded (fun rl c => some (afterCall rl c)) KeepsCount (freshLimiter 2 0) sweptRun =
      some rl ∧ CountsSlots rl := by
  obtain ⟨rl, hrl⟩ : ∃ rl, runGuarded (fun rl c => some (afterCall rl c)) KeepsCount
      (freshLimiter 2 0) sweptRun = some rl :=
    Option.isSome_iff_exists.mp (by decide +kernel)
  have hreach : Reach Created (Guarded (StepOf fun rl c => some (afterCall rl c)) KeepsCount) rl :=
    .of_runGuarded sweptRun (.start ⟨2, 0, true, rfl⟩) hrl
  refine ⟨rl, hrl, reach_countsSlots rl (hreach.mono fun _ _ _ hst => ?_)⟩
  exact ⟨hst.1, (Option.some.inj hst.2).symm⟩

/-! ### A drift -/

def clientIp (n : ℕ) : CString :=
  ⟨ascii "10.0.0." ++ numeral 10 (n + 1), by
    rw [List.mem_append]
    exact fun h => h.elim (by decide) (numeral_nul_free (n + 1) (by decide) (by decide))⟩

theorem clientIp_inj {i j : ℕ} (h : clientIp i = clientIp j) : i = j := by
  have hb : numeral 10 (i + 1) = numeral 10 (j + 1) :=
    List.append_cancel_left (congrArg CString.bytes h)
  have hv := congrArg (numeralValue 10) hb
  rw [numeralValue_numeral _ (by decide) (by decide),
    numeralValue_numeral _ (by decide) (by decide)] at hv
  exact Nat.succ.inj hv

/-- The first table, with an entry for each client below `n` and a dormant one among them. -/
structure Filled (n : ℕ) (rl : RateLimit) : Prop where
  size : rl.tableSize = rlInitialSize
  swept : rl.lastSweep = 0
  used : rl.used = n
  counted : occupied rl = rl.used
  known : ∀ e ∈ rl.table, ∀ ip, e.ip = some ip → ∃ i < n, ip = clientIp i
  dormant : ∃ e ∈ rl.table, e.count = 0 ∧ e.ip ≠ none

theorem filled_first :
    Filled 1 (afterCall (afterCall (freshLimiter 1 0) (.accept (clientIp 0) (acceptAt 0)))
      (.leave (clientIp 0) 0)) := by
  refine ⟨by decide +kernel, by decide +kernel, by decide +kernel, by decide +kernel, ?_,
    by decide +kernel⟩
  have hone : ∀ e ∈ (afterCall (afterCall (freshLimiter 1 0)
      (.accept (clientIp 0) (acceptAt 0))) (.leave (clientIp 0) 0)).table,
      e.ip = none ∨ e.ip = some (clientIp 0) := by decide +kernel
  intro e he ip hip
  rcases hone e he with hnone | hsome
  · rw [hnone] at hip
    cases hip
  · exact ⟨0, Nat.zero_lt_one, Option.some.inj (hip.symm.trans hsome)⟩

theorem Filled.survivors {n : ℕ} {rl : RateLimit} (h : Filled n rl) :
    survivors rl (acceptAt 0) = rl.table := by
  rw [Limiter.survivors, if_neg (by rw [h.swept]; decide)]

theorem Filled.growsOverDormant_iff {n : ℕ} {rl : RateLimit} (h : Filled n rl) :
    GrowsOverDormant rl (acceptAt 0) ↔ 192 ≤ n := by
  have ho : weight occupiedInd rl.table = n := h.counted.trans h.used
  rw [GrowsOverDormant, h.survivors, ho, h.size, rlInitialSize]
  constructor
  · intro hd
    have := hd.2.1
    omega
  · intro hn
    exact ⟨rfl, by omega, h.dormant⟩

theorem Filled.prepare {n : ℕ} {rl : RateLimit} (h : Filled n rl) (hn : n < 192) :
    acceptPrepare rl (acceptAt 0) = rl := by
  have hsweep : acceptSweep rl (acceptAt 0) = rl := by
    rw [acceptSweep, if_neg (by rw [h.swept]; decide)]
  rw [acceptPrepare, hsweep]
  refine acceptGrow_idle fun hg => ?_
  rw [h.used, h.size, rlInitialSize] at hg
  omega

theorem Filled.accept {n : ℕ} {rl : RateLimit} (h : Filled n rl) (hn : n < 192) :
    Filled (n + 1) (afterCall rl (.accept (clientIp n) (acceptAt 0))) := by
  have hexact := (ratelimitAccept_exact_iff (clientIp n) (acceptAt 0) h.counted).mpr fun hd =>
    absurd (h.growsOverDormant_iff.mp hd) (by omega)
  have hnew : ∀ e ∈ rl.table, e.ip ≠ some (clientIp n) := by
    intro e he hip
    obtain ⟨i, hi, heq⟩ := h.known e he _ hip
    exact absurd (clientIp_inj heq) (by omega)
  have hstep := ratelimitAccept_step rl (clientIp n) (acceptAt 0)
  rw [h.prepare hn] at hstep
  rw [afterCall]
  generalize ratelimitAccept rl (clientIp n) (acceptAt 0) = r at hstep hexact ⊢
  cases hstep with
  | full hfull =>
    obtain ⟨slot, hslot⟩ := acceptProbe_isSome (clientIp n)
      (show occupied rl < rl.tableSize by rw [h.counted, h.used, h.size, rlInitialSize]; omega)
    rw [hfull] at hslot
    cases hslot
  | noMemory _ _ hno => cases hno
  | limited _ e _ he hip _ => exact absurd hip (hnew e (List.mem_of_getElem? he))
  | counted _ e _ he hip _ => exact absurd hip (hnew e (List.mem_of_getElem? he))
  | fresh slot e _ he hc hip =>
    refine ⟨?_, h.swept, congrArg (· + 1) h.used, hexact, ?_, ?_⟩
    · exact List.length_set.trans h.size
    · intro x hx ip hxip
      rcases List.mem_or_eq_of_mem_set hx with hx | rfl
      · obtain ⟨i, hi, heq⟩ := h.known x hx ip hxip
        exact ⟨i, by omega, heq⟩
      · exact ⟨n, Nat.lt_succ_self n, (Option.some.inj hxip).symm⟩
    · obtain ⟨d, hd, hd0, hdip⟩ := h.dormant
      obtain ⟨j, hj⟩ := List.mem_iff_getElem?.mp hd
      -- the slot that was written was empty, so it is not the dormant one
      have hne : slot ≠ j := by
        intro hsj
        rw [hsj, hj] at he
        exact hdip (Option.some.inj he ▸ hip)
      exact ⟨d, List.mem_of_getElem? ((List.getElem?_set_ne hne).trans hj), hd0, hdip⟩

theorem reach_filled {n : ℕ} (hn : n < 192) :
    ∃ rl, Reach Created CallStep rl ∧ Filled (n + 1) rl := by
  induction n with
  | zero =>
    exact ⟨_, .next _ (.next _ (.start ⟨1, 0, true, rfl⟩) rfl) rfl, filled_first⟩
  | succ n ih =>
    obtain ⟨rl, hr, hf⟩ := ih (by omega)
    exact ⟨_, .next _ hr rfl, hf.accept hn⟩

/-- A client comes and goes, 191 others connect, and the accept of one more grows the table:
the dormant entry is gone and `used` still counts it. -/
theorem used_drifts : ¬ ∀ rl, Reach Created CallStep rl → CountsSlots rl := by
  intro hall
  obtain ⟨rl, hr, hf⟩ := reach_filled (n := 191) (by decide)
  have hstep : CallStep rl (.accept (clientIp 192) (acceptAt 0)) _ := rfl
  have hc := (hall _ (.next _ hr hstep)).used
  exact (ratelimitAccept_exact_iff _ _ hf.counted).mp hc (hf.growsOverDormant_iff.mpr le_rfl)

end LocalMarks.Limiter

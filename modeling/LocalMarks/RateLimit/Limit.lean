import LocalMarks.RateLimit.Runs

/-!
# The limit on simultaneous connections

The stale sweep empties slots and leaves no tombstone. When the emptied slot lies between
the home slot of a connected IP and its entry, the next accept of that IP stops at the hole
and opens a second entry, which is counted on its own. `HiddenEntry` names that situation;
runs that never meet it respect the limit.
-/

namespace LocalMarks.Limiter
open LocalMarks.Lib

/-- The probe for `ip` stops at an empty slot although some slot of the table counts
connections of `ip`. -/
def HiddenEntry (rl : RateLimit) (ip : CString) : Prop :=
  (∃ slot e, acceptProbe rl ip = some slot ∧ rl.table[slot]? = some e ∧ e.ip = none) ∧
    ∃ e ∈ rl.table, e.ip = some ip ∧ 0 < e.count

theorem hiddenEntry_iff {rl : RateLimit} {ip : CString} :
    (((acceptProbe rl ip).bind fun slot => rl.table[slot]?).any fun e => e.ip.isNone) = true ∧
      (∃ e ∈ rl.table, e.ip = some ip ∧ 0 < e.count) ↔ HiddenEntry rl ip := by
  unfold HiddenEntry
  simp only [Option.any_eq_true, Option.bind_eq_some_iff, Option.isNone_iff_eq_none]
  grind

instance (rl : RateLimit) (ip : CString) : Decidable (HiddenEntry rl ip) :=
  decidable_of_iff _ hiddenEntry_iff

/-- The call is not an accept whose sweep and growth leave the IP's entry hidden. -/
def NoHidden (s : State) : Call → Prop
  | .accept ip env => ¬ HiddenEntry (acceptPrepare s.limiter env) ip
  | .leave _ _ => True

instance (s : State) : (c : Call) → Decidable (NoHidden s c)
  | .accept ip env => inferInstanceAs (Decidable (¬ HiddenEntry (acceptPrepare s.limiter env) ip))
  | .leave _ _ => isTrue trivial

/-- A counted entry comes before every other slot of its IP on the probe path. -/
def LiveFirst (table : List RLEntry) : Prop :=
  ∀ (ip : CString) (a b : ℕ) (ea eb : RLEntry), table[a]? = some ea → table[b]? = some eb →
    ea.ip = some ip → eb.ip = some ip → 0 < ea.count → a ≠ b →
    ProbeBefore table.length (homeSlot ip table.length) a b

structure Limited (rl : RateLimit) : Prop where
  cap : ∀ e ∈ rl.table, (e.count : ℤ) ≤ rl.maxPerIp
  first : LiveFirst rl.table

theorem LiveFirst.unique {table : List RLEntry} (h : LiveFirst table) {ip : CString} {a b : ℕ}
    {ea eb : RLEntry} (ha : table[a]? = some ea) (hb : table[b]? = some eb)
    (hia : ea.ip = some ip) (hib : eb.ip = some ip) (hca : 0 < ea.count) (hcb : 0 < eb.count) :
    a = b := by
  by_contra hab
  exact (h ip a b ea eb ha hb hia hib hca hab).asymm
    (h ip b a eb ea hb ha hib hia hcb (Ne.symm hab))

/-- A limited table counts at most `max_per_ip` connections of any IP. -/
theorem Limited.ipSum_le {rl : RateLimit} (h : Limited rl) (ip : CString) (hpos : 0 ≤ rl.maxPerIp) :
    (ipSum rl ip : ℤ) ≤ rl.maxPerIp := by
  have hle : ipSum rl ip ≤ rl.maxPerIp.toNat := weight_le_of_unique
    (fun e he => by
      have := h.cap e he
      unfold countOf
      split <;> omega)
    fun i j a b hi hj ha hb => by
      have hread : ∀ e : RLEntry, countOf ip e ≠ 0 → e.ip = some ip ∧ 0 < e.count := by
        intro e hne
        unfold countOf at hne
        split at hne
        · rename_i hip
          exact ⟨hip, Nat.pos_of_ne_zero hne⟩
        · exact absurd rfl hne
      exact h.first.unique hi hj (hread a ha).1 (hread b hb).1 (hread a ha).2 (hread b hb).2
  omega

/-! ### The invariant under each operation -/

theorem liveFirst_sweep {table : List RLEntry} (h : LiveFirst table) (now : ℤ) (used : ℕ) :
    LiveFirst (sweepSlots now table used).1 := by
  have hkeep : ∀ (i : ℕ) (e : RLEntry) (ip : CString),
      (sweepSlots now table used).1[i]? = some e → e.ip = some ip → table[i]? = some e := by
    intro i e ip hi hip
    rcases sweepSlots_getElem? now table used i with heq | ⟨x, _, hx⟩
    · rwa [heq] at hi
    · rw [hx, Option.some.injEq] at hi
      subst hi
      cases hip
  intro ip a b ea eb ha hb hia hib hc hab
  rw [sweepSlots_length]
  exact h ip a b ea eb (hkeep a ea ip ha hia) (hkeep b eb ip hb hib) hia hib hc hab

def liveAt (ip : CString) (e : RLEntry) : ℕ := if e.ip = some ip ∧ 0 < e.count then 1 else 0

theorem liveFirst_grow {rl rl' : RateLimit} {ok : Bool} (h : LiveFirst rl.table)
    (hg : ratelimitGrow rl ok = some rl') : LiveFirst rl'.table := by
  intro ip a b ea eb ha hb hia hib _ hab
  have hlive : LiveReading (liveAt ip) := by
    intro e he
    simp only [liveAt, he, Nat.lt_irrefl, and_false, ite_false]
  have hcount : ∀ {i : ℕ} {e : RLEntry}, rl'.table[i]? = some e → e.ip = some ip →
      liveAt ip e = 1 := by
    intro i e hi hip
    rcases ratelimitGrow_mem hg (List.mem_of_getElem? hi) with rfl | ⟨_, hc⟩
    · cases hip
    · simp only [liveAt, hip, hc, and_self, ite_true]
  have hle : weight (liveAt ip) rl.table ≤ 1 := weight_le_of_unique
    (fun e _ => by unfold liveAt; split <;> omega)
    fun i j x y hi hj hx hy => by
      have hread : ∀ e : RLEntry, liveAt ip e ≠ 0 → e.ip = some ip ∧ 0 < e.count := by
        intro e hne
        by_contra hn
        exact hne (if_neg hn)
      exact h.unique hi hj (hread x hx).1 (hread y hy).1 (hread x hx).2 (hread y hy).2
  have htwo := add_le_weight (liveAt ip) ha hb hab
  rw [hcount ha hia, hcount hb hib, ratelimitGrow_weight hlive hg] at htwo
  omega

theorem Limited.prepare {rl : RateLimit} (h : Limited rl) (env : AcceptEnv)
    (hpos : 0 ≤ rl.maxPerIp) : Limited (acceptPrepare rl env) := by
  constructor
  · intro e he
    rw [acceptPrepare_maxPerIp]
    by_cases hc : 0 < e.count
    · exact h.cap e (acceptPrepare_mem he hc)
    · omega
  · have hsweep : LiveFirst (acceptSweep rl env).table := by
      rcases acceptSweep_cases rl env with hs | hs
      · rw [hs]
        exact h.first
      · rw [hs]
        exact liveFirst_sweep h.first env.sweepNow rl.used
    rw [acceptPrepare]
    rcases acceptGrow_cases (acceptSweep rl env) env with ⟨hg, _⟩ | hg
    · rw [hg]
      exact hsweep
    · exact liveFirst_grow hsweep hg

theorem liveFirst_set {table : List RLEntry} (h : LiveFirst table) {slot : ℕ} {e x : RLEntry}
    (he : table[slot]? = some e) (hip : x.ip = e.ip) (hc : 0 < x.count → 0 < e.count) :
    LiveFirst (table.set slot x) := by
  have hback : ∀ (i : ℕ) (y : RLEntry), (table.set slot x)[i]? = some y →
      ∃ z, table[i]? = some z ∧ y.ip = z.ip ∧ (0 < y.count → 0 < z.count) := by
    intro i y hy
    rw [List.getElem?_set] at hy
    split at hy
    · rename_i hi
      subst hi
      split at hy
      · cases hy
        exact ⟨e, he, hip, hc⟩
      · cases hy
    · exact ⟨y, hy, rfl, id⟩
  intro ip a b ea eb ha hb hia hib hca hab
  obtain ⟨za, hza, hipa, hcza⟩ := hback a ea ha
  obtain ⟨zb, hzb, hipb, _⟩ := hback b eb hb
  rw [List.length_set]
  exact h ip a b za zb hza hzb (hipa ▸ hia) (hipb ▸ hib) (hcza hca) hab

/-- Counting a connection in the slot the probe stopped at. The slot comes before every other
slot of the IP; `hother` says that no other slot counts connections of the IP. -/
theorem liveFirst_count {rl : RateLimit} (h : LiveFirst rl.table) {ip : CString} {slot : ℕ}
    {x : RLEntry} (hp : acceptProbe rl ip = some slot) (hx : x.ip = some ip)
    (hother : ∀ (a : ℕ) (e : RLEntry), rl.table[a]? = some e → e.ip = some ip → 0 < e.count →
      a ≠ slot → ProbeBefore rl.table.length (homeSlot ip rl.table.length) a slot) :
    LiveFirst (rl.table.set slot x) := by
  obtain ⟨hslot, _, hbefore⟩ := probeFind_some hp
  have hlen : slot < rl.table.length := hslot
  intro y a b ea eb ha hb hia hib hca hab
  rw [List.length_set]
  rw [List.getElem?_set] at ha hb
  by_cases hsa : slot = a
  · subst hsa
    simp only [ite_true, if_pos hlen, Option.some.injEq] at ha
    subst ha
    obtain rfl : ip = y := Option.some.inj (hx.symm.trans hia)
    rw [if_neg hab] at hb
    have hlt := (List.getElem?_eq_some_iff.mp hb).1
    refine (probeBefore_total hslot hlt hab).resolve_right fun hbs => ?_
    have := hbefore b hbs
    simp [stopsAt, hb, hib] at this
  · rw [if_neg hsa] at ha
    by_cases hsb : slot = b
    · subst hsb
      simp only [ite_true, if_pos hlen, Option.some.injEq] at hb
      subst hb
      obtain rfl : ip = y := Option.some.inj (hx.symm.trans hib)
      exact hother a ea ha hia hca hab
    · rw [if_neg hsb] at hb
      exact h y a b ea eb ha hb hia hib hca hab

theorem cap_set {rl : RateLimit} (h : Limited rl) {slot : ℕ} {x : RLEntry}
    (hx : (x.count : ℤ) ≤ rl.maxPerIp) :
    ∀ e ∈ rl.table.set slot x, (e.count : ℤ) ≤ rl.maxPerIp := by
  intro e he
  rcases List.mem_or_eq_of_mem_set he with he | rfl
  · exact h.cap e he
  · exact hx

theorem Limited.accept {rl : RateLimit} {ip : CString} {env : AcceptEnv} (h : Limited rl)
    (hpos : 0 < rl.maxPerIp) (hn : ¬ HiddenEntry (acceptPrepare rl env) ip) :
    Limited (ratelimitAccept rl ip env).2 := by
  have hp := h.prepare env hpos.le
  have hmax := acceptPrepare_maxPerIp rl env
  have hstep := ratelimitAccept_step rl ip env
  generalize ratelimitAccept rl ip env = r at hstep ⊢
  generalize acceptPrepare rl env = p at hstep hn hp hmax
  cases hstep with
  | full _ => exact hp
  | noMemory _ _ _ => exact hp
  | fresh slot e hslot he _ hip =>
    refine ⟨cap_set hp (by rw [hmax]; exact_mod_cast hpos), ?_⟩
    refine liveFirst_count hp.first hslot rfl fun a y ha hy hc _ => ?_
    exact absurd ⟨⟨slot, e, hslot, he, hip⟩, y, List.mem_of_getElem? ha, hy, hc⟩ hn
  | limited slot e hslot he hip _ =>
    exact ⟨cap_set hp (hp.cap e (List.mem_of_getElem? he)), liveFirst_set hp.first he rfl id⟩
  | counted slot e hslot he hip hlt =>
    refine ⟨cap_set hp (by push_cast; omega), ?_⟩
    exact liveFirst_count hp.first hslot rfl fun a y ha hy hc has =>
      hp.first ip a slot y e ha he hy hip hc has

theorem Limited.leave {rl : RateLimit} {ip : CString} (now : ℤ) (h : Limited rl)
    (hs : 0 < ipSum rl ip) : Limited (ratelimitLeave rl ip now) := by
  obtain ⟨slot, e, hc, _, he, _, heq⟩ := ratelimitLeave_held now hs
  have hcap := h.cap e (List.mem_of_getElem? he)
  rw [heq]
  refine ⟨cap_set h ?_, liveFirst_set h.first he rfl fun _ => hc⟩
  dsimp only
  omega

/-! ### Runs -/

theorem fresh_limited {maxConns : ℤ} {s : State} (h : Fresh maxConns s) : Limited s.limiter := by
  rw [fresh_limiter h]
  have hmem : ∀ e ∈ List.replicate rlInitialSize emptyEntry, e = emptyEntry :=
    fun e he => List.eq_of_mem_replicate he
  constructor
  · intro e he
    rw [hmem e he]
    exact (ratelimitCreate_some h.1).1.le
  · intro ip a b ea eb ha _ hia _ _ _
    rw [hmem ea (List.mem_of_getElem? ha)] at hia
    cases hia

/-- In every run that never meets a hidden entry, no IP has more admitted connections than
the limit, whatever the allocations do. -/
theorem admitted_le_limit (maxConns : ℤ) (s : State)
    (h : Reach (Fresh maxConns) (Guarded (StepOf exec) NoHidden) s) (ip : CString) :
    (s.admitted ip : ℤ) ≤ maxConns := by
  have hinv : Limited s.limiter ∧ 0 < maxConns := by
    refine h.invariant (I := fun s => Limited s.limiter ∧ 0 < maxConns)
      (fun s hs => ⟨fresh_limited hs, (ratelimitCreate_some hs.1).1⟩) ?_
    rintro s c s' hr ⟨hl, hpos⟩ ⟨hok, hst⟩
    have ha := reach_accounted hr.of_guarded
    refine ⟨?_, hpos⟩
    cases c with
    | accept ip env =>
      rw [(exec_accept hst).1]
      exact hl.accept (ha.limit ▸ hpos) hok
    | leave ip now =>
      obtain ⟨hadm, hlim, _⟩ := exec_leave hst
      rw [hlim]
      exact hl.leave now (ha.sum ip ▸ hadm)
  have ha := reach_accounted h.of_guarded
  have hle := hinv.1.ipSum_le ip (ha.limit ▸ hinv.2.le)
  rwa [ha.sum, ha.limit] at hle

theorem admitted_le_limit_swept :
    ∃ s, runGuarded exec NoHidden (freshState 2 0) sweptRun = some s ∧
      s.admitted ipA = 2 ∧ (s.admitted ipA : ℤ) ≤ 2 := by
  have hfresh := freshState_fresh 0 (by decide : (0 : ℤ) < 2)
  have hrun : (runGuarded exec NoHidden (freshState 2 0) sweptRun).map (fun s => s.admitted ipA) =
      some 2 := by decide +kernel
  obtain ⟨s, hs, htwo⟩ := Option.map_eq_some_iff.mp hrun
  exact ⟨s, hs, htwo, admitted_le_limit 2 s (.of_runGuarded sweptRun (.start hfresh) hs) ipA⟩

/-- With a limit of one, A and B connect, A leaves, and after the sweep has emptied A's slot
B connects a second time. -/
def secondEntryRun : List Call :=
  [.accept ipA (acceptAt 0), .accept ipB (acceptAt 0), .leave ipA 0, .accept ipB (acceptAt 61)]

theorem limit_exceeded :
    ¬ ∀ (maxConns : ℤ) (s : State), 1 ≤ maxConns → Reach (Fresh maxConns) (StepOf exec) s →
      ∀ ip, (s.admitted ip : ℤ) ≤ maxConns := by
  intro hall
  have hrun : (runList exec (freshState 1 0) secondEntryRun).map (fun s => s.admitted ipB) =
      some 2 := by decide +kernel
  obtain ⟨s, hs, htwo⟩ := Option.map_eq_some_iff.mp hrun
  have hfresh := freshState_fresh 0 (by decide : (0 : ℤ) < 1)
  have := hall 1 s le_rfl (Reach.of_runList secondEntryRun (.start hfresh) hs) ipB
  omega

end LocalMarks.Limiter

import LocalMarks.Lib.Reach
import LocalMarks.RateLimit.Calls

/-!
# Runs of the rate limiter

A run starts from a fresh limiter and issues accepts and balanced leaves under a clock that
never goes back. The state carries, next to the limiter, the number of connections of each
IP that were admitted and have not left.
-/

namespace LocalMarks.Limiter
open LocalMarks.Lib

structure State where
  limiter : RateLimit
  admitted : CString → ℕ
  clock : ℤ

inductive Call where
  | accept (ip : CString) (env : AcceptEnv)
  | leave (ip : CString) (now : ℤ)

/-- One call. An accept reads the clock twice when it sweeps; leave is issued only for a
connection that was admitted and has not left. -/
def exec (s : State) : Call → Option State
  | .accept ip env =>
    if s.clock ≤ env.now ∧ env.now ≤ env.sweepNow then
      let r := ratelimitAccept s.limiter ip env
      some ⟨r.2, fun x => s.admitted x + if r.1 = 0 ∧ x = ip then 1 else 0, env.sweepNow⟩
    else none
  | .leave ip now =>
    if s.clock ≤ now ∧ 0 < s.admitted ip then
      some ⟨ratelimitLeave s.limiter ip now,
        fun x => s.admitted x - if x = ip then 1 else 0, now⟩
    else none

/-- A limiter just created for `maxConns` connections per IP; nobody is connected. -/
def Fresh (maxConns : ℤ) (s : State) : Prop :=
  ratelimitCreate maxConns s.clock true = some s.limiter ∧ ∀ ip, s.admitted ip = 0

def freshState (maxConns clock : ℤ) : State := ⟨freshLimiter maxConns clock, fun _ => 0, clock⟩

theorem freshState_fresh {maxConns : ℤ} (clock : ℤ) (h : 0 < maxConns) :
    Fresh maxConns (freshState maxConns clock) := by
  refine ⟨?_, fun _ => rfl⟩
  simp only [ratelimitCreate, if_neg (not_le.mpr h), ite_true, freshState]

/-- `calloc` and `strdup` succeed in this call. -/
def AllocOk (_ : State) : Call → Prop
  | .accept _ env => env.callocOk = true ∧ env.strdupOk = true
  | .leave _ _ => True

theorem ratelimitCreate_some {maxConns now : ℤ} {ok : Bool} {rl : RateLimit}
    (h : ratelimitCreate maxConns now ok = some rl) :
    0 < maxConns ∧ rl = freshLimiter maxConns now := by
  unfold ratelimitCreate at h
  split at h
  · cases h
  · rename_i hpos
    split at h
    · exact ⟨Int.not_le.mp hpos, (Option.some.inj h).symm⟩
    · cases h

theorem freshLimiter_occupied (maxConns now : ℤ) : occupied (freshLimiter maxConns now) = 0 :=
  weight_eq_zero fun e he => by rw [List.eq_of_mem_replicate he]; rfl

theorem fresh_limiter {maxConns : ℤ} {s : State} (h : Fresh maxConns s) :
    s.limiter = freshLimiter maxConns s.clock := (ratelimitCreate_some h.1).2

theorem exec_accept {s s' : State} {ip : CString} {env : AcceptEnv}
    (h : exec s (.accept ip env) = some s') :
    s'.limiter = (ratelimitAccept s.limiter ip env).2 ∧
      s'.admitted = fun x => s.admitted x +
        if (ratelimitAccept s.limiter ip env).1 = 0 ∧ x = ip then 1 else 0 := by
  simp only [exec] at h
  split at h
  · cases h
    exact ⟨rfl, rfl⟩
  · cases h

theorem exec_leave {s s' : State} {ip : CString} {now : ℤ}
    (h : exec s (.leave ip now) = some s') :
    0 < s.admitted ip ∧ s'.limiter = ratelimitLeave s.limiter ip now ∧
      s'.admitted = fun x => s.admitted x - if x = ip then 1 else 0 := by
  simp only [exec] at h
  split at h
  · rename_i hc
    cases h
    exact ⟨hc.2, rfl, rfl⟩
  · cases h

/-! ### Accounting -/

/-- The books of the limiter agree with the connections. -/
structure Accounted (maxConns : ℤ) (s : State) : Prop where
  sum : ∀ ip, ipSum s.limiter ip = s.admitted ip
  used : occupied s.limiter ≤ s.limiter.used
  limit : s.limiter.maxPerIp = maxConns

theorem fresh_accounted {maxConns : ℤ} {s : State} (h : Fresh maxConns s) :
    Accounted maxConns s := by
  have hl := fresh_limiter h
  refine ⟨fun ip => ?_, ?_, by rw [hl]; rfl⟩
  · rw [ipSum, hl, h.2 ip]
    exact weight_replicate_empty (countOf_live ip) rlInitialSize
  · rw [hl, freshLimiter_occupied]
    exact Nat.zero_le _

theorem exec_accounted {maxConns : ℤ} {s s' : State} {c : Call} (hs : Accounted maxConns s)
    (h : exec s c = some s') : Accounted maxConns s' := by
  cases c with
  | accept ip env =>
    obtain ⟨hl, ha⟩ := exec_accept h
    refine ⟨fun x => ?_, ?_, ?_⟩
    · rw [hl, ha, ratelimitAccept_ipSum, hs.sum]
    · rw [hl]
      exact ratelimitAccept_occupied ip env hs.used
    · rw [hl, ratelimitAccept_maxPerIp, hs.limit]
  | leave ip now =>
    obtain ⟨_, hl, ha⟩ := exec_leave h
    obtain ⟨ho, hu, hm⟩ := ratelimitLeave_frame s.limiter ip now
    refine ⟨fun x => ?_, ?_, ?_⟩
    · rw [hl, ha, ratelimitLeave_ipSum, hs.sum]
    · rw [hl, ho, hu]
      exact hs.used
    · rw [hl, hm, hs.limit]

theorem reach_accounted {maxConns : ℤ} {s : State}
    (h : Reach (Fresh maxConns) (StepOf exec) s) : Accounted maxConns s :=
  h.invariant (fun _ => fresh_accounted) fun _ _ _ _ hi hst => exec_accounted hi hst

/-- Accept is refused, when the allocations succeed, only at the limit. -/
theorem ratelimitAccept_refused {rl : RateLimit} {ip : CString} {env : AcceptEnv}
    (hu : occupied rl ≤ rl.used) (hc : env.callocOk = true) (hd : env.strdupOk = true)
    (h : (ratelimitAccept rl ip env).1 = -1) : rl.maxPerIp ≤ ipSum rl ip := by
  have hsum := acceptPrepare_weight (countOf_live ip) rl env
  rw [← acceptPrepare_maxPerIp rl env]
  have hstep := ratelimitAccept_step rl ip env
  generalize ratelimitAccept rl ip env = r at hstep h
  cases hstep with
  | full hfull =>
    obtain ⟨slot, hslot⟩ := acceptProbe_isSome ip (acceptPrepare_room hu hc)
    rw [hfull] at hslot
    cases hslot
  | fresh _ _ _ _ _ _ => cases h
  | noMemory _ _ hno =>
    rw [hd] at hno
    cases hno
  | limited slot e _ he hip hmax =>
    have hle := le_weight (countOf ip) (List.mem_of_getElem? he)
    simp only [countOf, hip, ite_true] at hle
    rw [ipSum, ← hsum]
    exact hmax.trans (by exact_mod_cast hle)
  | counted _ _ _ _ _ _ => cases h

/-- In every run in which `calloc` and `strdup` succeed the books are right at every point:
the sums are the admitted connections, `used` covers the occupied slots and the sweep never
wraps it, the probe of accept always stops, accept refuses only at the limit, leave finds an
entry to decrement, and a call for one IP leaves the sums of the others alone. -/
theorem limiter_accounting (maxConns : ℤ) (s : State)
    (h : Reach (Fresh maxConns) (Guarded (StepOf exec) AllocOk) s) :
    (∀ ip, ipSum s.limiter ip = s.admitted ip) ∧
    occupied s.limiter ≤ s.limiter.used ∧
    (∀ now pre e post, s.limiter.table = pre ++ e :: post → e.stale now = true →
      0 < (sweepSlots now pre s.limiter.used).2) ∧
    (∀ ip env, env.callocOk = true → env.strdupOk = true →
      (∃ slot, acceptProbe (acceptPrepare s.limiter env) ip = some slot) ∧
      ((ratelimitAccept s.limiter ip env).1 = -1 → maxConns ≤ s.admitted ip) ∧
      ∀ x, x ≠ ip → ipSum (ratelimitAccept s.limiter ip env).2 x = ipSum s.limiter x) ∧
    (∀ ip now, (0 < s.admitted ip → ∃ slot e, leaveProbe s.limiter ip = some slot ∧
        s.limiter.table[slot]? = some e ∧ e.ip = some ip ∧ 0 < e.count) ∧
      ∀ x, x ≠ ip → ipSum (ratelimitLeave s.limiter ip now) x = ipSum s.limiter x) := by
  have hi := reach_accounted h.of_guarded
  refine ⟨hi.sum, hi.used, ?_, ?_, ?_⟩
  · intro now pre e post ht hst
    exact sweepSlots_no_wrap now pre e post _ (ht ▸ hi.used) hst
  · intro ip env hc hd
    refine ⟨acceptProbe_isSome ip (acceptPrepare_room hi.used hc), ?_, ?_⟩
    · intro hr
      have := ratelimitAccept_refused hi.used hc hd hr
      rwa [hi.limit, hi.sum] at this
    · intro x hx
      rw [ratelimitAccept_ipSum, if_neg (fun hh => hx hh.2), Nat.add_zero]
  · intro ip now
    refine ⟨fun hpos => ?_, ?_⟩
    · obtain ⟨slot, e, hc, hl, he, hip, _⟩ := ratelimitLeave_held now (hi.sum ip ▸ hpos)
      exact ⟨slot, e, hl, he, hip, hc⟩
    · intro x hx
      rw [ratelimitLeave_ipSum, if_neg hx, Nat.sub_zero]

/-- An address, and a call at which nothing fails. -/
def ipA : CString := ⟨ascii "10.0.0.3", by decide⟩
def acceptAt (now : ℤ) : AcceptEnv := ⟨now, now, true, true⟩

/-- An address with the home slot of `ipA` in a fresh table. -/
def ipB : CString := ⟨ascii "10.0.0.210", by decide⟩

/-- A and B connect, B leaves, the sweep empties B's slot while A connects a second time, and B
comes back. -/
def sweptRun : List Call :=
  [.accept ipA (acceptAt 0), .accept ipB (acceptAt 0), .leave ipB 0, .accept ipA (acceptAt 61),
    .accept ipB (acceptAt 61)]

theorem limiter_accounting_swept :
    ∃ s, runList exec (freshState 2 0) sweptRun = some s ∧
      (∀ ip, ipSum s.limiter ip = s.admitted ip) ∧ occupied s.limiter ≤ s.limiter.used := by
  have hfresh := freshState_fresh 0 (by decide : (0 : ℤ) < 2)
  obtain ⟨s, hs⟩ : ∃ s, runList exec (freshState 2 0) sweptRun = some s :=
    Option.isSome_iff_exists.mp (by decide +kernel)
  have hok : ∀ c ∈ sweptRun, ∀ t, AllocOk t c := by
    intro c hc t
    simp only [sweptRun, List.mem_cons, List.not_mem_nil, or_false] at hc
    rcases hc with rfl | rfl | rfl | rfl | rfl
    all_goals simp [AllocOk, acceptAt]
  obtain ⟨hsum, hused, -⟩ := limiter_accounting 2 s (.of_runList_guarded sweptRun hok
    (.start hfresh) hs)
  exact ⟨s, hs, hsum, hused⟩

end LocalMarks.Limiter

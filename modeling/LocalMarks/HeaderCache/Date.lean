import LocalMarks.Lib.CString
import LocalMarks.Lib.Mutex
import LocalMarks.Lib.Reach
import Mathlib.Order.Nat

/-!
# The cached date (header_cache.c)

`header_cache_date_copy` reads the clock before it locks `hc_mutex`, and the date that it may
then store is computed from another reading. Threads and the clock go on between any two of
these steps. Times are whole seconds; what `gmtime_r` and `strftime` write for one is given.
-/

namespace LocalMarks.HeaderCache
open LocalMarks.Lib

/-- Where a call of `header_cache_date_copy` is. From `comparing` to `unlocking` it has the
mutex; `copied` is the second whose date is in the caller's buffer, none for the result -1. -/
inductive CallPc where
  | entry
  | locking (now : ℕ)
  | comparing (now : ℕ)
  | updating (now : ℕ)
  | formatting (now time : ℕ)
  | storing (now : ℕ)
  | copying
  | unlocking (copied : Option ℕ)
  | returning (copied : Option ℕ)
  deriving DecidableEq

/-- A call with the length of its buffer and what the clock showed when it began. -/
structure Call where
  began : ℕ
  bufLen : ℕ
  pc : CallPc
  deriving DecidableEq

/-- The clock, the second that `hc_date` shows, `last_update`, and the call that each thread is
in. -/
structure Cache where
  clock : ℕ
  date : ℕ
  lastUpdate : ℕ
  mutex : Option ℕ
  calls : ℕ → Option Call

/-- header_cache_init. -/
def headerCacheInit (clock : ℕ) : Cache where
  clock := clock
  date := clock
  lastUpdate := 0
  mutex := none
  calls := fun _ => none

def Cache.atPc (hc : Cache) (t : ℕ) (c : Call) (pc : CallPc) : Cache :=
  { hc with calls := Function.update hc.calls t (some { c with pc := pc }) }

section
variable (text : ℕ → Bytes)

def runCall (t : ℕ) (c : Call) (hc : Cache) : Option Cache :=
  match c.pc with
  | .entry => some (hc.atPc t c (.locking hc.clock))
  | .locking now =>
    if hc.mutex = none then some ({ hc with mutex := some t }.atPc t c (.comparing now)) else none
  | .comparing now =>
    some (hc.atPc t c (if now ≠ hc.lastUpdate then .updating now else .copying))
  -- header_cache_update_date reads the clock a second time
  | .updating now => some (hc.atPc t c (.formatting now hc.clock))
  | .formatting now time => some ({ hc with date := time }.atPc t c (.storing now))
  | .storing now => some ({ hc with lastUpdate := now }.atPc t c .copying)
  | .copying => some (hc.atPc t c
      (.unlocking (if (text hc.date).length ≥ c.bufLen then none else some hc.date)))
  | .unlocking copied => some ({ hc with mutex := none }.atPc t c (.returning copied))
  | .returning _ => some { hc with calls := Function.update hc.calls t none }

inductive Label where
  | tick (seconds : ℕ)
  | call (t bufLen : ℕ)
  | run (t : ℕ)
  deriving DecidableEq

def exec (hc : Cache) : Label → Option Cache
  | .tick seconds => some { hc with clock := hc.clock + seconds }
  | .call t bufLen =>
    if hc.calls t = none then
      some { hc with calls := Function.update hc.calls t (some ⟨hc.clock, bufLen, .entry⟩) }
    else none
  | .run t => (hc.calls t).bind fun c => runCall text t c hc

def Reachable : Cache → Prop :=
  Reach (fun hc => ∃ clock, hc = headerCacheInit clock) (StepOf (exec text))

end

/-! ### The invariant -/

def CallPc.holds : CallPc → Bool
  | .entry | .locking _ | .returning _ => false
  | _ => true

def Cache.holds (hc : Cache) (t : ℕ) : Bool := (hc.calls t).any fun c => c.pc.holds

/-- What a call that began at `began` knows at its program point. A reading of the clock that is
carried into the lock may be old, but it is not older than the call. -/
def CallPc.Fresh (began : ℕ) (hc : Cache) : CallPc → Prop
  | .entry => began ≤ hc.clock
  | .locking now | .comparing now | .updating now => began ≤ now ∧ now ≤ hc.clock
  | .formatting now time => began ≤ now ∧ now ≤ time ∧ hc.date ≤ time ∧ time ≤ hc.clock
  | .storing now => began ≤ now ∧ now ≤ hc.date
  | .copying => began ≤ hc.date
  | .unlocking copied | .returning copied => ∀ d ∈ copied, began ≤ d ∧ d ≤ hc.clock

structure Inv (hc : Cache) : Prop where
  mutex : Owned hc.mutex hc.holds
  lastUpdate_le : hc.lastUpdate ≤ hc.date
  date_le : hc.date ≤ hc.clock
  fresh : ∀ t c, hc.calls t = some c → c.pc.Fresh c.began hc

variable {text : ℕ → Bytes} {hc hc' : Cache}

/-- What a call knows stays true while the clock goes on, and, for what is said of the date, as
long as this does not change. -/
theorem CallPc.Fresh.later {pc : CallPc} {began : ℕ} (h : pc.Fresh began hc)
    (hclock : hc.clock ≤ hc'.clock) (hdate : pc.holds = true → hc'.date = hc.date) :
    pc.Fresh began hc' := by
  cases pc with
  | entry => exact h.trans hclock
  | locking now => exact ⟨h.1, h.2.trans hclock⟩
  | comparing now => exact ⟨h.1, h.2.trans hclock⟩
  | updating now => exact ⟨h.1, h.2.trans hclock⟩
  | formatting now time =>
    obtain ⟨h1, h2, h3, h4⟩ := h
    exact ⟨h1, h2, (hdate rfl).trans_le h3, h4.trans hclock⟩
  | storing now => exact ⟨h.1, h.2.trans_eq (hdate rfl).symm⟩
  | copying => exact h.trans_eq (hdate rfl).symm
  | unlocking copied => exact fun d hd => ⟨(h d hd).1, (h d hd).2.trans hclock⟩
  | returning copied => exact fun d hd => ⟨(h d hd).1, (h d hd).2.trans hclock⟩

theorem holds_update (calls : ℕ → Option Call) (t : ℕ) (c : Option Call) :
    (fun u => (Function.update calls t c u).any fun c => c.pc.holds) =
      Function.update (fun u => (calls u).any fun c => c.pc.holds) t
        (c.any fun c => c.pc.holds) := by
  funext u
  by_cases hu : u = t
  · rw [hu, Function.update_self, Function.update_self]
  · rw [Function.update_of_ne hu, Function.update_of_ne hu]

/-- A step of thread `t`, which changes the date only if it has the mutex. -/
theorem Inv.step {t : ℕ} {c' : Option Call} (h : Inv hc)
    (hcalls : hc'.calls = Function.update hc.calls t c') (hclock : hc'.clock = hc.clock)
    (hmutex : Owned hc'.mutex
      (Function.update hc.holds t (c'.any fun c => c.pc.holds)))
    (hlast : hc'.lastUpdate ≤ hc'.date) (hdate : hc'.date ≤ hc'.clock)
    (hfresh : ∀ d ∈ c', d.pc.Fresh d.began hc')
    (hwrite : hc.holds t = true ∨ hc'.date = hc.date) : Inv hc' := by
  refine ⟨?_, hlast, hdate, fun u d hd => ?_⟩
  · have hholds : hc'.holds = _ := funext fun u => by rw [Cache.holds, hcalls]
    rw [hholds, holds_update]
    exact hmutex
  · rw [hcalls] at hd
    by_cases hu : u = t
    · rw [hu, Function.update_self] at hd
      exact hfresh d hd
    · rw [Function.update_of_ne hu] at hd
      refine (h.fresh u d hd).later hclock.ge fun hdheld => ?_
      have hother : hc.holds u = true := by rw [Cache.holds, hd]; exact hdheld
      exact hwrite.resolve_left fun hown => hu (h.mutex.excl hother hown)

theorem Inv.stay {t : ℕ} {c : Call} {pc : CallPc} {date lastUpdate : ℕ} (h : Inv hc)
    (hheld : pc.holds = hc.holds t) (hlast : lastUpdate ≤ date)
    (hdate : date ≤ hc.clock)
    (hfresh : pc.Fresh c.began { hc with date := date, lastUpdate := lastUpdate })
    (hwrite : hc.holds t = true ∨ date = hc.date) :
    Inv ({ hc with date := date, lastUpdate := lastUpdate }.atPc t c pc) := by
  refine h.step rfl rfl (h.mutex.keep hheld) hlast hdate ?_ hwrite
  intro d hd
  obtain rfl := Option.some.inj hd
  exact hfresh.later le_rfl fun _ => rfl

theorem runCall_inv {t : ℕ} {c : Call} (h : Inv hc) (ht : hc.calls t = some c)
    (hrun : runCall text t c hc = some hc') : Inv hc' := by
  have hknown := h.fresh t c ht
  have hholds : hc.holds t = c.pc.holds := by rw [Cache.holds, ht]; rfl
  have hlast := h.lastUpdate_le
  have hdate := h.date_le
  unfold runCall at hrun
  generalize hpc : c.pc = pc at hknown hholds hrun
  cases pc with
  | entry =>
    cases hrun
    exact h.stay hholds.symm hlast hdate ⟨hknown, le_rfl⟩ (.inr rfl)
  | locking now =>
    obtain ⟨hfree, hrun⟩ := Option.ite_none_right_eq_some.mp hrun
    cases hrun
    refine h.step rfl rfl (Owned.acquire (hfree ▸ h.mutex)) hlast hdate ?_ (.inr rfl)
    intro d hd
    obtain rfl := Option.some.inj hd
    exact hknown
  | comparing now =>
    cases hrun
    by_cases hold : now = hc.lastUpdate
    · -- a reading that equals `last_update` has been reached by the date
      rw [if_neg (not_not.mpr hold)]
      exact h.stay hholds.symm hlast hdate (hknown.1.trans (hold.trans_le hlast)) (.inr rfl)
    · rw [if_pos hold]
      exact h.stay hholds.symm hlast hdate hknown (.inr rfl)
  | updating now =>
    cases hrun
    exact h.stay hholds.symm hlast hdate ⟨hknown.1, hknown.2, hdate, le_rfl⟩ (.inr rfl)
  | formatting now time =>
    obtain ⟨hbegan, hnow, hgrow, htime⟩ := hknown
    cases hrun
    exact h.stay hholds.symm (hlast.trans hgrow) htime ⟨hbegan, hnow⟩ (.inl hholds)
  | storing now =>
    cases hrun
    exact h.stay hholds.symm hknown.2 hdate (hknown.1.trans hknown.2) (.inr rfl)
  | copying =>
    cases hrun
    refine h.stay hholds.symm hlast hdate ?_ (.inr rfl)
    intro d hd
    split at hd
    · cases hd
    · obtain rfl := Option.some.inj hd
      exact ⟨hknown, hdate⟩
  | unlocking copied =>
    cases hrun
    refine h.step rfl rfl (h.mutex.release hholds) hlast hdate ?_ (.inr rfl)
    intro d hd
    obtain rfl := Option.some.inj hd
    exact hknown
  | returning copied =>
    cases hrun
    exact h.step rfl rfl (h.mutex.keep hholds.symm) hlast hdate nofun (.inr rfl)

theorem exec_inv {l : Label} (h : Inv hc) (hst : exec text hc l = some hc') : Inv hc' := by
  cases l with
  | tick seconds =>
    cases hst
    have hclock : hc.clock ≤ hc.clock + seconds := Nat.le_add_right _ _
    exact ⟨h.mutex, h.lastUpdate_le, h.date_le.trans hclock,
      fun t c ht => (h.fresh t c ht).later hclock fun _ => rfl⟩
  | call t bufLen =>
    obtain ⟨hidle, hst⟩ := Option.ite_none_right_eq_some.mp hst
    cases hst
    have hholds : hc.holds t = false := by rw [Cache.holds, hidle]; rfl
    refine h.step rfl rfl (h.mutex.keep hholds.symm) h.lastUpdate_le h.date_le ?_ (.inr rfl)
    intro d hd
    obtain rfl := Option.some.inj hd
    exact le_rfl
  | run t =>
    obtain ⟨c, ht, hrun⟩ := Option.bind_eq_some_iff.mp hst
    exact runCall_inv h ht hrun

theorem Reachable.inv (h : Reachable text hc) : Inv hc := by
  refine h.invariant (fun s hs => ?_) fun s l s' _ hi hst => exec_inv hi hst
  obtain ⟨clock, rfl⟩ := hs
  refine ⟨fun t => ?_, Nat.zero_le _, le_rfl, nofun⟩
  simp [Cache.holds, headerCacheInit]

/-- The date changes in one step only, to a reading of the clock that was made under the mutex. -/
theorem exec_date {l : Label} (h : Inv hc) (hst : exec text hc l = some hc') :
    hc.date ≤ hc'.date := by
  cases l with
  | tick seconds => cases hst; exact le_rfl
  | call t bufLen =>
    obtain ⟨-, hst⟩ := Option.ite_none_right_eq_some.mp hst
    cases hst
    exact le_rfl
  | run t =>
    obtain ⟨c, ht, hrun⟩ := Option.bind_eq_some_iff.mp hst
    have hknown := h.fresh t c ht
    unfold runCall at hrun
    generalize c.pc = pc at hknown hrun
    cases pc with
    | formatting now time =>
      cases hrun
      exact hknown.2.2.1
    | locking now =>
      obtain ⟨-, hrun⟩ := Option.ite_none_right_eq_some.mp hrun
      cases hrun
      exact le_rfl
    | _ =>
      cases hrun
      exact le_rfl

/-- A date that a call returns is not older than the call and not ahead of the clock, whatever
the other threads and the clock do in between, and the cached date never goes back. -/
theorem dateCopy_fresh (h : Reachable text hc) :
    (∀ t c d, hc.calls t = some c → c.pc = .returning (some d) →
      c.began ≤ d ∧ d ≤ hc.clock) ∧
    ∀ l hc', exec text hc l = some hc' → hc.date ≤ hc'.date := by
  constructor
  · intro t c d ht hpc
    have hfresh := h.inv.fresh t c ht
    rw [hpc] at hfresh
    exact hfresh d rfl
  · intro l hc' hst
    exact exec_date h.inv hst

/-- A call that reads the clock at 7, gets the mutex at 9 and returns the date of 9. -/
def lateCall : List Label :=
  [.call 1 64, .run 1, .tick 2, .run 1, .run 1, .run 1, .run 1, .run 1, .run 1, .run 1]

/-- What strftime writes in the first ten seconds. -/
def earlyText (second : ℕ) : Bytes :=
  ascii "Thu, 01 Jan 1970 00:00:0" ++ [48 + UInt8.ofNat second] ++ ascii " GMT"

theorem dateCopy_fresh_late : ∃ hc, hc.clock = 9 ∧ 7 ≤ 9 ∧ 9 ≤ hc.clock ∧
    ∀ l hc', exec earlyText hc l = some hc' → hc.date ≤ hc'.date := by
  have hrun : ∃ hc, runList (exec earlyText) (headerCacheInit 7) lateCall = some hc ∧
      hc.calls 1 = some ⟨7, 64, .returning (some 9)⟩ ∧ hc.clock = 9 := ⟨_, rfl, rfl, rfl⟩
  obtain ⟨hc, hlist, hcall, hclock⟩ := hrun
  have hfresh := dateCopy_fresh (Reach.of_runList lateCall (.start ⟨7, rfl⟩) hlist)
  obtain ⟨hbegan, hnow⟩ := hfresh.1 1 _ 9 hcall rfl
  exact ⟨hc, hclock, hbegan, hnow, hfresh.2⟩

end LocalMarks.HeaderCache

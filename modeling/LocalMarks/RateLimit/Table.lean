import LocalMarks.Lib.CString
import LocalMarks.Lib.LinearProbe
import LocalMarks.Lib.Weight

/-!
# The rate limiter's table (ratelimit.c)

A limiter holds an open-addressing table of IP entries. An entry whose `count` dropped to
zero stays in its slot as a dormant entry until the stale sweep clears the slot.
-/

namespace LocalMarks.Limiter
open LocalMarks.Lib

def rlInitialSize : ℕ := 256
def rlGrowthFactor : ℕ := 2
def rlStaleTimeoutSecs : ℤ := 60

/-- `RLEntry`; `ip = none` is the NULL pointer. A counted entry has an IP, so neither
`hash_ip` nor `strcmp` ever sees NULL. -/
structure RLEntry where
  ip : Option CString
  count : ℕ
  lastActivity : ℤ
  ip_of_count : 0 < count → ip ≠ none
  deriving DecidableEq

def emptyEntry : RLEntry := ⟨none, 0, 0, fun h => absurd h (by decide)⟩

/-- struct RateLimit without its mutex: every operation runs with the lock held,
so a run is a sequence of whole operations. -/
structure RateLimit where
  maxPerIp : ℤ
  table : List RLEntry
  used : ℕ
  lastSweep : ℤ
  size_pos : 0 < table.length

def RateLimit.tableSize (rl : RateLimit) : ℕ := rl.table.length

def RateLimit.setSlot (rl : RateLimit) (slot : ℕ) (e : RLEntry) : RateLimit :=
  { rl with table := rl.table.set slot e, size_pos := by rw [List.length_set]; exact rl.size_pos }

/-- djb2 over signed chars, in 64-bit arithmetic. -/
def hashIp (ip : CString) : UInt64 :=
  ip.bytes.foldl (fun h c => ((h <<< 5) + h) + c.toInt8.toInt64.toUInt64) 5381

def homeSlot (ip : CString) (size : ℕ) : ℕ := (hashIp ip).toNat % size

def freshLimiter (maxConnsPerIp now : ℤ) : RateLimit :=
  ⟨maxConnsPerIp, List.replicate rlInitialSize emptyEntry, 0, now,
    by rw [List.length_replicate]; decide⟩

/-- NULL when the limit is not positive or an allocation fails. -/
def ratelimitCreate (maxConnsPerIp now : ℤ) (callocOk : Bool) : Option RateLimit :=
  if maxConnsPerIp ≤ 0 then none
  else if callocOk then some (freshLimiter maxConnsPerIp now)
  else none

/-! ### Growing -/

/-- The inner rehash loop: the first slot of the probe path with count == 0. -/
def rehashSlot (newTable : List RLEntry) (ip : CString) : Option ℕ :=
  probeFind newTable.length (homeSlot ip newTable.length) fun slot =>
    match newTable[slot]? with
    | some e => e.count == 0
    | none => false

/-- One round of the outer rehash loop. A dormant entry is freed, not stored. -/
def rehashEntry (newTable : List RLEntry) (e : RLEntry) : List RLEntry :=
  if 0 < e.count then
    match e.ip with
    | some ip =>
      match rehashSlot newTable ip with
      | some slot => newTable.set slot e
      | none => newTable
    | none => newTable
  else newTable

theorem rehashEntry_length (t : List RLEntry) (e : RLEntry) :
    (rehashEntry t e).length = t.length := by
  unfold rehashEntry
  split
  · split
    · split
      · rw [List.length_set]
      · rfl
    · rfl
  · rfl

theorem rehash_length (es t : List RLEntry) : (es.foldl rehashEntry t).length = t.length := by
  induction es generalizing t with
  | nil => rfl
  | cons e es ih => rw [List.foldl_cons, ih, rehashEntry_length]

/-- The result none is the return value -1, which leaves the limiter as it was.
The field `used` is not recomputed. -/
def ratelimitGrow (rl : RateLimit) (callocOk : Bool) : Option RateLimit :=
  if callocOk then
    some { rl with
      table := rl.table.foldl rehashEntry
        (List.replicate (rl.tableSize * rlGrowthFactor) emptyEntry)
      size_pos := by
        rw [rehash_length, List.length_replicate]
        exact Nat.mul_pos rl.size_pos (by decide) }
  else none

/-! ### Sweeping -/

/-- used-- on a size_t, which wraps at zero. -/
def sizeDec (n : ℕ) : ℕ := if n = 0 then 2 ^ 64 - 1 else n - 1

/-- A dormant entry not touched for more than the timeout. -/
def RLEntry.stale (now : ℤ) (e : RLEntry) : Bool :=
  e.count == 0 && e.ip.isSome && decide (now - e.lastActivity > rlStaleTimeoutSecs)

def RLEntry.clear (e : RLEntry) : RLEntry :=
  ⟨none, 0, e.lastActivity, fun h => absurd h (by decide)⟩

/-- The sweep loop over the remaining slots; only the slot under the cursor is written. -/
def sweepSlots (now : ℤ) : List RLEntry → ℕ → List RLEntry × ℕ
  | [], used => ([], used)
  | e :: es, used =>
    if e.stale now then
      let r := sweepSlots now es (sizeDec used)
      (e.clear :: r.1, r.2)
    else
      let r := sweepSlots now es used
      (e :: r.1, r.2)

theorem sweepSlots_length (now : ℤ) (es : List RLEntry) (used : ℕ) :
    (sweepSlots now es used).1.length = es.length := by
  induction es generalizing used with
  | nil => rfl
  | cons e es ih =>
    rw [sweepSlots]
    split <;> simp only [List.length_cons, ih]

/-- The parameter is the sweep's own reading of the clock. -/
def ratelimitSweepStale (rl : RateLimit) (now : ℤ) : RateLimit :=
  let r := sweepSlots now rl.table rl.used
  { rl with
    table := r.1
    used := r.2
    size_pos := by rw [sweepSlots_length]; exact rl.size_pos }

/-! ### Accepting and leaving -/

/-- What the environment decides during one `ratelimit_accept`: the two readings of the
clock (the caller's and the sweep's) and whether `calloc` and `strdup` succeed. -/
structure AcceptEnv where
  now : ℤ
  sweepNow : ℤ
  callocOk : Bool
  strdupOk : Bool

def acceptSweep (rl : RateLimit) (env : AcceptEnv) : RateLimit :=
  if env.now - rl.lastSweep ≥ rlStaleTimeoutSecs then
    { ratelimitSweepStale rl env.sweepNow with lastSweep := env.now }
  else rl

/-- The load test, with the growth it asks for; a failed growth is only logged. -/
def acceptGrow (rl : RateLimit) (env : AcceptEnv) : RateLimit :=
  if rl.used * 4 ≥ rl.tableSize * 3 then (ratelimitGrow rl env.callocOk).getD rl else rl

/-- The limiter on which the probe loop of `ratelimit_accept` runs. -/
def acceptPrepare (rl : RateLimit) (env : AcceptEnv) : RateLimit :=
  acceptGrow (acceptSweep rl env) env

/-- The probe loop of accept stops at an empty slot or at the IP's own slot. -/
def stopsAt (rl : RateLimit) (ip : CString) (slot : ℕ) : Bool :=
  match rl.table[slot]? with
  | some e => (e.count == 0 && e.ip == none) || e.ip == some ip
  | none => false

def acceptProbe (rl : RateLimit) (ip : CString) : Option ℕ :=
  probeFind rl.tableSize (homeSlot ip rl.tableSize) (stopsAt rl ip)

/-- `ratelimit_accept`: the return value and the limiter afterwards. -/
def ratelimitAccept (rl : RateLimit) (ip : CString) (env : AcceptEnv) : ℤ × RateLimit :=
  let rl := acceptPrepare rl env
  match acceptProbe rl ip with
  | none => (-1, rl)
  | some slot =>
    match rl.table[slot]? with
    | none => (-1, rl)
    | some e =>
      if e.count = 0 ∧ e.ip = none then
        if env.strdupOk then
          (0, { rl.setSlot slot ⟨some ip, 1, env.now, fun _ => Option.some_ne_none ip⟩ with
            used := rl.used + 1 })
        else (-1, rl)
      else if (e.count : ℤ) ≥ rl.maxPerIp then
        (-1, rl.setSlot slot { e with lastActivity := env.now })
      else
        (0, rl.setSlot slot ⟨some ip, e.count + 1, env.now, fun _ => Option.some_ne_none ip⟩)

/-- The loop of leave stops at a counted entry of the IP and passes over empty slots. -/
def heldBy (rl : RateLimit) (ip : CString) (slot : ℕ) : Bool :=
  match rl.table[slot]? with
  | some e => decide (0 < e.count) && e.ip == some ip
  | none => false

def leaveProbe (rl : RateLimit) (ip : CString) : Option ℕ :=
  probeFind rl.tableSize (homeSlot ip rl.tableSize) (heldBy rl ip)

def ratelimitLeave (rl : RateLimit) (ip : CString) (now : ℤ) : RateLimit :=
  match leaveProbe rl ip with
  | none => rl
  | some slot =>
    match rl.table[slot]? with
    | none => rl
    | some e =>
      rl.setSlot slot ⟨e.ip, e.count - 1, now, fun h => e.ip_of_count (by omega)⟩

end LocalMarks.Limiter

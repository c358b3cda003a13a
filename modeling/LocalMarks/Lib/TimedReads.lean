import LocalMarks.Lib.Reach

/-!
# Reads of a value that changes

Time is counted in the steps of a run. A read takes from one step to a later one, while the
value it asks for goes on changing.
-/

namespace LocalMarks.Lib

variable {σ ε α : Type*}

/-- The states of a run and the labels of its steps, of which the first `length` are made. -/
structure Run (init : σ → Prop) (step : σ → ε → σ → Prop) where
  state : ℕ → σ
  label : ℕ → ε
  length : ℕ
  starts : init (state 0)
  steps : ∀ n < length, step (state n) (label n) (state (n + 1))

theorem Run.holds {init : σ → Prop} {step : σ → ε → σ → Prop} (run : Run init step)
    {P : ℕ → Prop} (start : P 0) (next : ∀ n < run.length, P n → P (n + 1)) :
    ∀ n ≤ run.length, P n := by
  intro n
  induction n with
  | zero => exact fun _ => start
  | succ n ih => exact fun hn => next n hn (ih (Nat.le_of_lt hn))

def statesOf (exec : σ → ε → Option σ) (s : σ) : List ε → ℕ → σ
  | [], _ => s
  | _ :: _, 0 => s
  | e :: es, n + 1 => ((exec s e).map fun s' => statesOf exec s' es n).getD s

theorem statesOf_step {exec : σ → ε → Option σ} {s s' : σ} {es : List ε}
    (h : runList exec s es = some s') (n : ℕ) (hn : n < es.length) :
    exec (statesOf exec s es n) es[n] = some (statesOf exec s es (n + 1)) := by
  induction es generalizing s n with
  | nil => exact absurd hn (Nat.not_lt_zero n)
  | cons e es ih =>
    obtain ⟨t, ht, hrest⟩ := Option.bind_eq_some_iff.mp h
    have hnext : ∀ m, statesOf exec s (e :: es) (m + 1) = statesOf exec t es m := fun m => by
      rw [statesOf, ht, Option.map_some, Option.getD_some]
    cases n with
    | zero =>
      rw [hnext, List.getElem_cons_zero]
      cases es <;> exact ht
    | succ n =>
      rw [hnext, hnext, List.getElem_cons_succ]
      exact ih hrest n (Nat.lt_of_succ_lt_succ hn)

/-- A list of labels that the step function executes is a run. -/
def Run.ofList {init : σ → Prop} {exec : σ → ε → Option σ} {s s' : σ} (hinit : init s)
    (es : List ε) (h : runList exec s es = some s') (after : ε) : Run init (StepOf exec) where
  state := statesOf exec s es
  label n := es.getD n after
  length := es.length
  starts := by cases es <;> exact hinit
  steps n hn := by
    rw [StepOf, List.getD, List.getElem?_eq_getElem hn, Option.getD_some]
    exact statesOf_step h n hn

/-- A read that was made from the step `began` to the step `ended`. -/
structure TimedRead (α : Type*) where
  began : ℕ
  ended : ℕ
  value : α

/-- `time` says of each read when the value was the one it returned. A read that ends later
does not go back behind one that ended before. -/
structure OrderedBy (value : ℕ → α) (reads : TimedRead α → Prop) (time : TimedRead α → ℕ) :
    Prop where
  past : ∀ r, reads r → time r ≤ r.ended
  value : ∀ r, reads r → value (time r) = r.value
  order : ∀ r r', reads r → reads r' → r.ended ≤ r'.ended → time r ≤ time r'

/-- Every read returns the value as it once was, and never an older one than was read before. -/
def ReadsForward (value : ℕ → α) (reads : TimedRead α → Prop) : Prop :=
  ∃ time, OrderedBy value reads time

/-- Every read returns the value as it was at a moment of the read. -/
def Linearizable (value : ℕ → α) (reads : TimedRead α → Prop) : Prop :=
  ∃ time, OrderedBy value reads time ∧ ∀ r, reads r → r.began ≤ time r

end LocalMarks.Lib

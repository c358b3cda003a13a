import Mathlib.Order.Basic

/-!
# Reachable states of a labelled transition system

A system is a set of initial states and a step relation whose label carries every
choice the environment makes (which call is issued, what the clock shows, whether an
allocation succeeds). `Reach` is the set of states such a system can be in.
-/

namespace LocalMarks.Lib

variable {σ τ ε δ : Type*}

/-- The states reached from `init` by any number of steps. -/
inductive Reach (init : σ → Prop) (step : σ → ε → σ → Prop) : σ → Prop where
  | start {s : σ} : init s → Reach init step s
  | next {s s' : σ} (e : ε) : Reach init step s → step s e s' → Reach init step s'

namespace Reach
variable {init : σ → Prop} {step : σ → ε → σ → Prop}

/-- Invariant rule: what holds initially and survives every step holds of every
reachable state. The step premise may use that the source state is reachable. -/
theorem invariant {I : σ → Prop} (h0 : ∀ s, init s → I s)
    (hs : ∀ s e s', Reach init step s → I s → step s e s' → I s')
    {s : σ} (h : Reach init step s) : I s := by
  induction h with
  | start hi => exact h0 _ hi
  | next e hr hst ih => exact hs _ e _ hr ih hst

theorem mono {step' : σ → ε → σ → Prop} (hs : ∀ s e s', step s e s' → step' s e s')
    {s : σ} (h : Reach init step s) : Reach init step' s := by
  induction h with
  | start hi => exact start hi
  | next e _ hst ih => exact next e ih (hs _ e _ hst)

/-- A system whose steps are steps of another one, or change nothing there, when its states are
seen as states of that one. -/
theorem simulated {init' : τ → Prop} {step' : τ → δ → τ → Prop} (f : σ → τ)
    (h0 : ∀ s, init s → init' (f s))
    (hs : ∀ s e s', Reach init step s → step s e s' → f s' = f s ∨ ∃ d, step' (f s) d (f s'))
    {s : σ} (h : Reach init step s) : Reach init' step' (f s) := by
  induction h with
  | start hi => exact start (h0 _ hi)
  | next e hr hst ih =>
    rcases hs _ e _ hr hst with hsame | ⟨d, hd⟩
    · rw [hsame]
      exact ih
    · exact next d ih hd

end Reach

/-- The steps of `step` whose source state and label satisfy `ok`. -/
def Guarded (step : σ → ε → σ → Prop) (ok : σ → ε → Prop) : σ → ε → σ → Prop :=
  fun s e s' => ok s e ∧ step s e s'

theorem Reach.of_guarded {init : σ → Prop} {step : σ → ε → σ → Prop} {ok : σ → ε → Prop}
    {s : σ} (h : Reach init (Guarded step ok) s) : Reach init step s :=
  h.mono fun _ _ _ hst => hst.2

/-! ### Executable systems -/

/-- The step relation of a partial step function. -/
def StepOf (exec : σ → ε → Option σ) : σ → ε → σ → Prop := fun s e s' => exec s e = some s'

/-- Executes a list of labels from left to right. -/
def runList (exec : σ → ε → Option σ) : σ → List ε → Option σ
  | s, [] => some s
  | s, e :: es => (exec s e).bind fun s' => runList exec s' es

theorem Reach.of_runList_guarded {init : σ → Prop} {exec : σ → ε → Option σ}
    {ok : σ → ε → Prop} {s s' : σ} (es : List ε) (hok : ∀ e ∈ es, ∀ t, ok t e)
    (hr : Reach init (Guarded (StepOf exec) ok) s) (h : runList exec s es = some s') :
    Reach init (Guarded (StepOf exec) ok) s' := by
  induction es generalizing s with
  | nil => exact Option.some.inj h ▸ hr
  | cons e es ih =>
    obtain ⟨t, ht, hrest⟩ := Option.bind_eq_some_iff.mp h
    exact ih (fun x hx => hok x (List.mem_cons_of_mem _ hx))
      (hr.next e ⟨hok e (List.mem_cons_self ..) s, ht⟩) hrest

theorem Reach.of_runList {init : σ → Prop} {exec : σ → ε → Option σ} {s s' : σ} (es : List ε)
    (hr : Reach init (StepOf exec) s) (h : runList exec s es = some s') :
    Reach init (StepOf exec) s' := by
  have hfree : Reach init (Guarded (StepOf exec) fun _ _ => True) s :=
    hr.mono fun _ _ _ hst => ⟨trivial, hst⟩
  exact (hfree.of_runList_guarded es (fun _ _ _ => trivial) h).of_guarded

/-- Executes a list of labels as long as each is allowed where it comes. -/
def runGuarded (exec : σ → ε → Option σ) (ok : σ → ε → Prop) [∀ s e, Decidable (ok s e)] :
    σ → List ε → Option σ
  | s, [] => some s
  | s, e :: es =>
    if ok s e then (exec s e).bind fun s' => runGuarded exec ok s' es else none

theorem Reach.of_runGuarded {I : σ → Prop} {exec : σ → ε → Option σ} {ok : σ → ε → Prop}
    [∀ s e, Decidable (ok s e)] {s s' : σ} (es : List ε)
    (hr : Reach I (Guarded (StepOf exec) ok) s) (h : runGuarded exec ok s es = some s') :
    Reach I (Guarded (StepOf exec) ok) s' := by
  induction es generalizing s with
  | nil => exact Option.some.inj h ▸ hr
  | cons e es ih =>
    simp only [runGuarded, Option.ite_none_right_eq_some] at h
    obtain ⟨t, ht, hrest⟩ := Option.bind_eq_some_iff.mp h.2
    exact ih (hr.next e ⟨h.1, ht⟩) hrest

end LocalMarks.Lib

import LocalMarks.Lib.Reach
import Mathlib.Data.List.Count
import Mathlib.Logic.Function.Basic

/-!
# The logger under signals (log.c, server.c)

Every function of the logger runs between a lock and an unlock of `g_log_mutex`, which a thread
cannot lock twice. `handle_signal` logs a message, and it is called on top of whatever the thread
that gets the signal is doing.
-/

namespace LocalMarks.Log
open LocalMarks.Lib

inductive LogLevel where
  | off
  | fatal
  | error
  | warn
  | info
  | debug
  | trace
  deriving DecidableEq

def LogLevel.rank : LogLevel → ℕ
  | .off => 0
  | .fatal => 1
  | .error => 2
  | .warn => 3
  | .info => 4
  | .debug => 5
  | .trace => 6

inductive LogStream where
  | stderr
  | file (n : ℕ)
  deriving DecidableEq

/-- A call of the logger with its arguments. `log_init` has chosen its stream and its colour flag
before it locks; `log_record` is told whether it has a format. -/
inductive LogCall where
  | logInit (stream : LogStream) (color : Bool) (level : LogLevel)
  | logSetLevel (level : LogLevel)
  | logGetLevel
  | logUseColor
  | logGetFile
  | logRecord (level : LogLevel) (fmt : Bool)
  deriving DecidableEq

/-- Where a call is: before the lock, at it, in the critical section, at the unlock. -/
inductive CallPc where
  | entry
  | acquiring
  | held
  | releasing
  deriving DecidableEq

inductive Signal where
  | sigint
  | sigterm
  deriving DecidableEq

/-- `handle_signal`: the message, then the store to `g_shutdown`. -/
inductive HandlerPc where
  | logging
  | storing
  deriving DecidableEq

inductive Frame where
  | call (c : LogCall) (pc : CallPc)
  | handler (sig : Signal) (pc : HandlerPc)
  deriving DecidableEq

/-- The state of log.c, `g_shutdown`, and the calls that each thread is in, the innermost one
first. `lines` are the messages written, with their threads. -/
structure Logger where
  mutex : Option ℕ
  level : LogLevel
  stream : Option LogStream
  useColor : Bool
  lines : List (ℕ × LogLevel)
  shutdown : Bool
  stack : ℕ → List Frame

def newLogger : Logger where
  mutex := none
  level := .info
  stream := none
  useColor := false
  lines := []
  shutdown := false
  stack := fun _ => []

def Logger.atThread (log : Logger) (t : ℕ) (frames : List Frame) : Logger :=
  { log with stack := Function.update log.stack t frames }

/-- What a call does between the lock and the unlock. -/
def critical (t : ℕ) (c : LogCall) (log : Logger) : Logger :=
  match c with
  | .logInit stream color level =>
    { log with stream := some stream, useColor := color, level := level }
  | .logSetLevel level => { log with level := level }
  | .logRecord level _ =>
    if level.rank > log.level.rank then log else { log with lines := log.lines ++ [(t, level)] }
  | .logGetLevel | .logUseColor | .logGetFile => log

/-- `log_record` returns before the lock when it has no format or `log_init` was not called. -/
def skipsLock (c : LogCall) (log : Logger) : Bool :=
  match c with
  | .logRecord _ fmt => !fmt || log.stream.isNone
  | _ => false

/-- The next step of the innermost call of thread `t`. -/
def runFrame (t : ℕ) (frame : Frame) (below : List Frame) (log : Logger) : Option Logger :=
  match frame with
  | .call c .entry =>
    some (log.atThread t (if skipsLock c log then below else .call c .acquiring :: below))
  | .call c .acquiring =>
    if log.mutex = none then
      some ({ log with mutex := some t }.atThread t (.call c .held :: below))
    else none
  | .call c .held => some ((critical t c log).atThread t (.call c .releasing :: below))
  | .call _ .releasing => some ({ log with mutex := none }.atThread t below)
  | .handler sig .logging =>
    some (log.atThread t (.call (.logRecord .info true) .entry :: .handler sig .storing :: below))
  | .handler _ .storing => some ({ log with shutdown := true }.atThread t below)

inductive Label where
  | call (t : ℕ) (c : LogCall)
  | run (t : ℕ)
  | signal (t : ℕ) (sig : Signal)
  deriving DecidableEq

/-- A signal is blocked while its own handler runs; `sa_mask` blocks no other one. -/
def exec (log : Logger) : Label → Option Logger
  | .call t c => if log.stack t = [] then some (log.atThread t [.call c .entry]) else none
  | .run t =>
    match log.stack t with
    | [] => none
    | frame :: below => runFrame t frame below log
  | .signal t sig =>
    if .handler sig .logging ∈ log.stack t ∨ .handler sig .storing ∈ log.stack t then none
    else some (log.atThread t (.handler sig .logging :: log.stack t))

def Reachable : Logger → Prop := Reach (fun log => log = newLogger) (StepOf exec)

/-- The thread waits for the mutex and has it. -/
def SelfBlocked (log : Logger) (t : ℕ) : Prop :=
  log.mutex = some t ∧ ∃ c below, log.stack t = .call c .acquiring :: below

/-- No signal is delivered to a thread that has the mutex, once the logger is initialised. -/
def SignalOutside (log : Logger) : Label → Prop
  | .signal t _ => log.mutex = some t → log.stream = none
  | _ => True

instance (log : Logger) (l : Label) : Decidable (SignalOutside log l) :=
  match l with
  | .signal t _ => inferInstanceAs (Decidable (log.mutex = some t → log.stream = none))
  | .call _ _ => inferInstanceAs (Decidable True)
  | .run _ => inferInstanceAs (Decidable True)

theorem atThread_stack (log : Logger) (t : ℕ) (frames : List Frame) :
    (log.atThread t frames).stack t = frames := Function.update_self ..

theorem exec_run {log : Logger} {t : ℕ} {frame : Frame} {below : List Frame}
    (hs : log.stack t = frame :: below) : exec log (.run t) = runFrame t frame below log := by
  simp only [exec, hs]

/-- What a step can be: a call of an idle thread, a step of the innermost call of a thread, or a
signal whose handler comes on top of what the thread was doing. -/
theorem exec_cases {log log' : Logger} {l : Label} (hst : exec log l = some log') :
    (∃ t c, l = .call t c ∧ log.stack t = [] ∧ log' = log.atThread t [.call c .entry]) ∨
    (∃ t frame below, l = .run t ∧ log.stack t = frame :: below ∧
      runFrame t frame below log = some log') ∨
    ∃ t sig, l = .signal t sig ∧
      log' = log.atThread t (.handler sig .logging :: log.stack t) := by
  cases l with
  | call t c =>
    obtain ⟨hs, hlog⟩ := Option.ite_none_right_eq_some.mp hst
    exact .inl ⟨t, c, rfl, hs, (Option.some.inj hlog).symm⟩
  | run t =>
    simp only [exec] at hst
    split at hst
    · cases hst
    · rename_i frame below hs
      exact .inr (.inl ⟨t, frame, below, rfl, hs, hst⟩)
  | signal t sig =>
    obtain ⟨-, hlog⟩ := Option.ite_none_left_eq_some.mp hst
    exact .inr (.inr ⟨t, sig, rfl, (Option.some.inj hlog).symm⟩)

/-! ### Who has the mutex -/

def Frame.holds : Frame → Bool
  | .call _ .held | .call _ .releasing => true
  | _ => false

def holdsIn (frames : List Frame) : ℕ := frames.countP Frame.holds

theorem holdsIn_cons (f : Frame) (fs : List Frame) :
    holdsIn (f :: fs) = holdsIn fs + if f.holds then 1 else 0 := List.countP_cons

/-- A thread has the mutex exactly when one of its calls is in the critical section, and then it
is only one. -/
structure Exclusive (log : Logger) : Prop where
  mine : ∀ t, log.mutex = some t → holdsIn (log.stack t) = 1
  others : ∀ t, log.mutex ≠ some t → holdsIn (log.stack t) = 0

namespace Exclusive
variable {log log' : Logger} {t : ℕ} {frames : List Frame}

theorem owner (h : Exclusive log) (hpos : 0 < holdsIn (log.stack t)) : log.mutex = some t := by
  by_contra hne
  exact absurd (h.others t hne) (Nat.ne_of_gt hpos)

theorem keep (h : Exclusive log) (hmutex : log'.mutex = log.mutex)
    (hstack : log'.stack = Function.update log.stack t frames)
    (hcount : holdsIn frames = holdsIn (log.stack t)) : Exclusive log' := by
  have hall : ∀ u, holdsIn (log'.stack u) = holdsIn (log.stack u) := by
    intro u
    rw [hstack]
    by_cases hu : u = t
    · subst hu
      rw [Function.update_self, hcount]
    · rw [Function.update_of_ne hu]
  refine ⟨fun u hu => ?_, fun u hu => ?_⟩
  · rw [hall]
    exact h.mine u (hmutex ▸ hu)
  · rw [hall]
    exact h.others u (hmutex ▸ hu)

theorem acquire (h : Exclusive log) (hfree : log.mutex = none) (hmutex : log'.mutex = some t)
    (hstack : log'.stack = Function.update log.stack t frames)
    (hcount : holdsIn frames = holdsIn (log.stack t) + 1) : Exclusive log' := by
  have hnone : ∀ u, holdsIn (log.stack u) = 0 := fun u =>
    h.others u (by rw [hfree]; exact (Option.some_ne_none u).symm)
  refine ⟨fun u hu => ?_, fun u hu => ?_⟩
  · obtain rfl : t = u := Option.some.inj (hmutex.symm.trans hu)
    rw [hstack, Function.update_self, hcount, hnone]
  · have hut : u ≠ t := by
      rintro rfl
      exact hu hmutex
    rw [hstack, Function.update_of_ne hut]
    exact hnone u

theorem release (h : Exclusive log) (hmutex : log'.mutex = none)
    (hstack : log'.stack = Function.update log.stack t frames)
    (hcount : holdsIn frames + 1 = holdsIn (log.stack t)) : Exclusive log' := by
  have hmine : log.mutex = some t := h.owner (by omega)
  refine ⟨fun u hu => ?_, fun u _ => ?_⟩
  · rw [hmutex] at hu
    cases hu
  · rw [hstack]
    by_cases hut : u = t
    · subst hut
      have hone := h.mine u hmine
      rw [Function.update_self]
      omega
    · rw [Function.update_of_ne hut]
      apply h.others u
      rw [hmine]
      exact fun heq => hut (Option.some.inj heq).symm

end Exclusive

theorem critical_frame (t : ℕ) (c : LogCall) (log : Logger) :
    (critical t c log).mutex = log.mutex ∧ (critical t c log).stack = log.stack := by
  unfold critical
  cases c with
  | logRecord level fmt =>
    dsimp only
    split <;> exact ⟨rfl, rfl⟩
  | _ => exact ⟨rfl, rfl⟩

theorem runFrame_exclusive {log log' : Logger} {t : ℕ} {frame : Frame} {below : List Frame}
    (h : Exclusive log) (hs : log.stack t = frame :: below)
    (hst : runFrame t frame below log = some log') : Exclusive log' := by
  unfold runFrame at hst
  split at hst
  case h_1 c =>
    cases hst
    refine h.keep rfl rfl ?_
    rw [hs]
    split <;> rfl
  case h_2 c =>
    split at hst
    · rename_i hfree
      cases hst
      exact h.acquire hfree rfl rfl (by rw [hs, holdsIn_cons, holdsIn_cons]; rfl)
    · cases hst
  case h_3 c =>
    cases hst
    obtain ⟨hmutex, hstack⟩ := critical_frame t c log
    exact h.keep hmutex (congrArg (Function.update · t _) hstack) (by rw [hs]; rfl)
  case h_4 c =>
    cases hst
    exact h.release rfl rfl (by rw [hs, holdsIn_cons]; rfl)
  case h_5 sig =>
    cases hst
    exact h.keep rfl rfl (by rw [hs]; rfl)
  case h_6 sig =>
    cases hst
    exact h.keep rfl rfl (by rw [hs]; rfl)

theorem exec_exclusive {log log' : Logger} {l : Label} (h : Exclusive log)
    (hst : exec log l = some log') : Exclusive log' := by
  obtain ⟨t, c, -, hs, rfl⟩ | ⟨t, frame, below, -, hs, hrun⟩ | ⟨t, sig, -, rfl⟩ := exec_cases hst
  · exact h.keep rfl rfl (by rw [hs]; rfl)
  · exact runFrame_exclusive h hs hrun
  · exact h.keep rfl rfl rfl

theorem reachable_exclusive {log : Logger} (h : Reachable log) : Exclusive log := by
  refine h.invariant (I := Exclusive) (fun s hs => ?_) fun _ _ _ _ hi hst => exec_exclusive hi hst
  subst hs
  exact ⟨fun t ht => (by cases ht), fun _ _ => rfl⟩

/-! ### Signals outside the critical section -/

/-- What may stand above a call in its critical section when the logger is not initialised: the
handler, and a message of it that will be dropped. -/
def Frame.passing : Frame → Bool
  | .handler _ _ => true
  | .call (.logRecord _ _) .entry => true
  | _ => false

/-- A thread that has the mutex is in its critical section, or in handlers that come back to it
without a lock. -/
def Returning (log : Logger) (frames : List Frame) : Prop :=
  ∃ above f below, frames = above ++ f :: below ∧ f.holds = true ∧
    (∀ g ∈ above, g.passing = true) ∧ (above ≠ [] → log.stream = none)

def Unblocked (log : Logger) : Prop :=
  ∀ t, log.mutex = some t → Returning log (log.stack t)

theorem Returning.top {log : Logger} {f : Frame} {below : List Frame} (h : f.holds = true) :
    Returning log (f :: below) :=
  ⟨[], f, below, rfl, h, fun g hg => (by cases hg), fun hne => absurd rfl hne⟩

theorem Returning.cons {log : Logger} {f : Frame} {below : List Frame}
    (h : Returning log (f :: below)) :
    f.holds = true ∨ f.passing = true ∧ log.stream = none ∧ Returning log below := by
  obtain ⟨above, g, rest, hsplit, hholds, hpassing, hstream⟩ := h
  cases above with
  | nil =>
    obtain ⟨rfl, _⟩ := List.cons.inj hsplit
    exact Or.inl hholds
  | cons a above =>
    obtain ⟨rfl, hrest⟩ := List.cons.inj hsplit
    refine Or.inr ⟨hpassing f (List.mem_cons_self ..), hstream (List.cons_ne_nil _ _), ?_⟩
    exact ⟨above, g, rest, hrest, hholds, fun x hx => hpassing x (List.mem_cons_of_mem _ hx),
      fun _ => hstream (List.cons_ne_nil _ _)⟩

theorem Returning.push {log : Logger} {f : Frame} {below : List Frame}
    (h : Returning log below) (hf : f.passing = true) (hstream : log.stream = none) :
    Returning log (f :: below) := by
  obtain ⟨above, g, rest, rfl, hholds, hpassing, _⟩ := h
  refine ⟨f :: above, g, rest, rfl, hholds, fun x hx => ?_, fun _ => hstream⟩
  rcases List.mem_cons.mp hx with rfl | hx
  · exact hf
  · exact hpassing x hx

theorem Returning.of_stream {log log' : Logger} {frames : List Frame} (h : Returning log frames)
    (hstream : log'.stream = log.stream) : Returning log' frames := by
  unfold Returning at *
  rw [hstream]
  exact h

theorem Unblocked.of_top {log' : Logger} {t : ℕ} {f : Frame} {below : List Frame}
    (hmutex : log'.mutex = some t) (hs : log'.stack t = f :: below) (hf : f.holds = true) :
    Unblocked log' := by
  intro u hu
  obtain rfl : t = u := Option.some.inj (hmutex.symm.trans hu)
  rw [hs]
  exact Returning.top hf

theorem Unblocked.keep {log log' : Logger} {t : ℕ} {frames : List Frame} (h : Unblocked log)
    (hmutex : log'.mutex = log.mutex) (hstream : log'.stream = log.stream)
    (hstack : log'.stack = Function.update log.stack t frames)
    (ht : log.mutex = some t → Returning log (log.stack t) → Returning log frames) :
    Unblocked log' := by
  intro u hu
  rw [hmutex] at hu
  apply Returning.of_stream _ hstream
  rw [hstack]
  by_cases hut : u = t
  · subst hut
    rw [Function.update_self]
    exact ht hu (h u hu)
  · rw [Function.update_of_ne hut]
    exact h u hu

theorem runFrame_unblocked {log log' : Logger} {t : ℕ} {frame : Frame} {below : List Frame}
    (he : Exclusive log) (h : Unblocked log) (hs : log.stack t = frame :: below)
    (hst : runFrame t frame below log = some log') : Unblocked log' := by
  unfold runFrame at hst
  split at hst
  case h_1 c =>
    cases hst
    refine h.keep rfl rfl rfl fun _ hret => ?_
    rw [hs] at hret
    rcases hret.cons with hholds | ⟨hpassing, hstream, hbelow⟩
    · cases hholds
    · -- only a message can wait here, and without a stream it is dropped
      cases c with
      | logRecord level fmt =>
        rw [if_pos (by simp [skipsLock, hstream])]
        exact hbelow
      | _ => cases hpassing
  case h_2 c =>
    split at hst
    · cases hst
      exact .of_top rfl (atThread_stack ..) rfl
    · cases hst
  case h_3 c =>
    cases hst
    -- the thread has the mutex, and this call is the one in its critical section
    have hmine : log.mutex = some t := he.owner (by rw [hs, holdsIn_cons]; exact Nat.succ_pos _)
    exact .of_top ((critical_frame t c log).1.trans hmine) (atThread_stack ..) rfl
  case h_4 c =>
    cases hst
    intro u hu
    cases hu
  case h_5 sig =>
    cases hst
    refine h.keep rfl rfl rfl fun _ hret => ?_
    rw [hs] at hret
    rcases hret.cons with hholds | ⟨_, hstream, hbelow⟩
    · cases hholds
    · exact (hbelow.push rfl hstream).push rfl hstream
  case h_6 sig =>
    cases hst
    refine h.keep rfl rfl rfl fun _ hret => ?_
    rw [hs] at hret
    rcases hret.cons with hholds | ⟨_, _, hbelow⟩
    · cases hholds
    · exact hbelow

theorem exec_unblocked {log log' : Logger} {l : Label} (he : Exclusive log) (h : Unblocked log)
    (hok : SignalOutside log l) (hst : exec log l = some log') : Unblocked log' := by
  obtain ⟨t, c, -, hs, rfl⟩ | ⟨t, frame, below, -, hs, hrun⟩ | ⟨t, sig, rfl, rfl⟩ :=
    exec_cases hst
  · refine h.keep rfl rfl rfl fun hmine _ => ?_
    have hone := he.mine t hmine
    rw [hs] at hone
    cases hone
  · exact runFrame_unblocked he h hs hrun
  · exact h.keep rfl rfl rfl fun hmine hret => hret.push rfl (hok hmine)

/-- When no signal is delivered to a thread that has the mutex of an initialised logger, no
thread ever waits for a mutex that it has. -/
theorem never_self_blocked {log : Logger}
    (h : Reach (fun log => log = newLogger) (Guarded (StepOf exec) SignalOutside) log) (t : ℕ) :
    ¬ SelfBlocked log t := by
  have hinv : Unblocked log := by
    refine h.invariant (I := Unblocked) (fun s hs => ?_) fun s l s' hr hu hst => ?_
    · subst hs
      intro t ht
      cases ht
    · exact exec_unblocked (reachable_exclusive hr.of_guarded) hu hst.1 hst.2
  rintro ⟨hmine, c, below, hs⟩
  have hret := hinv t hmine
  rw [hs] at hret
  rcases hret.cons with hholds | ⟨hpassing, _, _⟩
  · cases hholds
  · cases c <;> cases hpassing

theorem never_self_blocked_run : ∃ log,
    Reach (fun log => log = newLogger) (Guarded (StepOf exec) SignalOutside) log ∧
      log.mutex = some 0 ∧ (log.stack 1).head? = some (.call (.logRecord .info true) .acquiring) ∧
      ∀ t, ¬ SelfBlocked log t := by
  have hrun : (runGuarded exec SignalOutside newLogger
      ([.call 0 (.logInit .stderr false .info)] ++ List.replicate 4 (.run 0) ++
        [.call 0 (.logRecord .warn true), .run 0, .run 0, .signal 1 .sigint, .run 1, .run 1])).map
          (fun log => (log.mutex, (log.stack 1).head?)) =
        some (some 0, some (.call (.logRecord .info true) .acquiring)) := by decide +kernel
  obtain ⟨log, hrun, hend⟩ := Option.map_eq_some_iff.mp hrun
  obtain ⟨hmutex, hhead⟩ := Prod.mk.inj hend
  have hreach := Reach.of_runGuarded (I := fun log => log = newLogger) _ (.start rfl) hrun
  exact ⟨log, hreach, hmutex, hhead, never_self_blocked hreach⟩

theorem signal_inside_blocks {log log' : Logger} {t : ℕ} {sig : Signal}
    (hst : exec log (.signal t sig) = some log') (hin : ¬ SignalOutside log (.signal t sig)) :
    ∃ last, runList exec log' [.run t, .run t] = some last ∧ SelfBlocked last t := by
  simp only [SignalOutside, not_forall] at hin
  obtain ⟨hmine, hstream⟩ := hin
  have hlock : skipsLock (.logRecord .info true) log = false := by
    rw [skipsLock, Bool.not_true, Bool.false_or, Option.isNone_eq_false_iff,
      Option.isSome_iff_ne_none]
    exact hstream
  simp only [exec] at hst
  split at hst
  · cases hst
  · cases hst
    -- the handler calls `log_record`, and that comes to the lock
    obtain ⟨called, hcalled⟩ : ∃ called, called =
        log.atThread t (.handler sig .logging :: log.stack t) := ⟨_, rfl⟩
    obtain ⟨logs, hlogs⟩ : ∃ logs, logs = called.atThread t
        (.call (.logRecord .info true) .entry :: .handler sig .storing :: log.stack t) := ⟨_, rfl⟩
    have hfirst : exec called (.run t) = some logs := by
      rw [exec_run (hcalled ▸ atThread_stack ..), hlogs]
      rfl
    have hsecond : exec logs (.run t) = some (logs.atThread t
        (.call (.logRecord .info true) .acquiring :: .handler sig .storing :: log.stack t)) := by
      have hskip : skipsLock (.logRecord .info true) logs = false := by
        rw [hlogs, hcalled]
        exact hlock
      rw [exec_run (hlogs ▸ atThread_stack ..), runFrame, hskip]
      rfl
    refine ⟨_, ?_, ?_, .logRecord .info true, .handler sig .storing :: log.stack t,
      atThread_stack logs t _⟩
    · rw [← hcalled, runList, hfirst, Option.bind_some, runList, hsecond]
      rfl
    · rw [hlogs, hcalled]
      exact hmine

theorem SelfBlocked.stuck {log : Logger} {t : ℕ} (h : SelfBlocked log t) :
    exec log (.run t) = none := by
  obtain ⟨hmine, c, below, hs⟩ := h
  rw [exec_run hs, runFrame, hmine]
  exact if_neg (Option.some_ne_none t)

theorem signal_deadlock : ¬ ∀ log, Reachable log → ∀ t, ¬ SelfBlocked log t := by
  intro hevery
  have hrun : (runList exec newLogger
      ([.call 0 (.logInit .stderr false .info)] ++ List.replicate 4 (.run 0) ++
        [.call 0 (.logRecord .warn true), .run 0, .run 0, .signal 0 .sigint, .run 0, .run 0])).map
          (fun log => (log.mutex, (log.stack 0).head?)) =
        some (some 0, some (.call (.logRecord .info true) .acquiring)) := by decide +kernel
  obtain ⟨log, hrun, hend⟩ := Option.map_eq_some_iff.mp hrun
  obtain ⟨hmutex, hhead⟩ := Prod.mk.inj hend
  obtain ⟨below, hstack⟩ := List.head?_eq_some_iff.mp hhead
  exact hevery log (Reach.of_runList _ (.start rfl) hrun) 0 ⟨hmutex, _, below, hstack⟩

end LocalMarks.Log

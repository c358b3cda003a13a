import LocalMarks.Lib.Numeral
import LocalMarks.Log.Signals

/-!
# The records in the log file (log.c)

`log_record` writes a record in several pieces. The pieces of two threads do not mix in a file,
since they are written with `g_log_mutex` locked; what a thread writes to `stderr` by itself can
come between the pieces of another.
-/

namespace LocalMarks.Log.Records
open LocalMarks.Lib

def utf8 (s : String) : Bytes := s.toList.flatMap String.utf8EncodeChar

def colorReset : Bytes := utf8 "\x1b[0m"
def colorDim : Bytes := utf8 "\x1b[2m"

/-- The flags that log.c is compiled with. -/
structure LogBuild where
  showTimeStamp : Bool
  showSourceLocation : Bool

/-- What `log_record` is called with. The message is its format with the arguments, and the clock is
what `strftime` gives when the record is written. -/
structure Record where
  level : LogLevel
  file : Bytes
  line : ℤ
  func : Bytes
  newLine : Bool
  message : Option Bytes
  clock : Bytes
  micros : ℕ
  deriving DecidableEq

def defaultLogHandler : LogLevel → Bytes
  | .fatal => utf8 "[FATAL] "
  | .error => utf8 "[ERROR] "
  | .warn => utf8 "[WARN ] "
  | .info => utf8 "[INFO ] "
  | .debug => utf8 "[DEBUG] "
  | .trace => utf8 "[TRACE] "
  | .off => utf8 "[UNKWN] "

def colorLogHandler : LogLevel → Bytes
  | .fatal => utf8 "💀 [\x1b[1;34mFATAL\x1b[0m] "
  | .error => utf8 "🚨 [\x1b[1;31mERROR\x1b[0m] "
  | .warn => utf8 "⚠️  [\x1b[1;33mWARN \x1b[0m] "
  | .info => utf8 "ℹ️  [\x1b[1;32mINFO \x1b[0m] "
  | .debug => utf8 "🛠️  [\x1b[1;36mDEBUG\x1b[0m] "
  | .trace => utf8 "🔬 [\x1b[1;35mTRACE\x1b[0m] "
  | .off => utf8 "[\x1b[1;34mUNKWN\x1b[0m] "

def logTimeStampHandler (color : Bool) (r : Record) : List Bytes :=
  (if color then [colorDim] else []) ++
    [utf8 "[" ++ r.clock ++ utf8 "." ++ paddedNumeral 10 6 r.micros ++ utf8 "] "] ++
    if color then [colorReset] else []

def sourceLocation (color : Bool) (r : Record) : Bytes :=
  (if color then colorDim else []) ++ utf8 "[" ++ r.file ++ utf8 ":" ++ signedNumeral r.line ++
    utf8 ":" ++ r.func ++ utf8 "]" ++ (if color then colorReset else []) ++ utf8 " "

/-- What `log_record` writes, a piece for each call of stdio. -/
def Record.pieces (b : LogBuild) (color : Bool) (r : Record) : List Bytes :=
  (if b.showTimeStamp then logTimeStampHandler color r else []) ++
    [if color then colorLogHandler r.level else defaultLogHandler r.level] ++
    (if b.showSourceLocation then [sourceLocation color r] else []) ++
    [r.message.getD []] ++ if r.newLine then [utf8 "\n"] else []

/-- What it writes to `stderr` instead before `log_init`. -/
def Record.droppedPieces (r : Record) : List Bytes :=
  utf8 "\x1b[1;31m[LOG] error: log_init() not called — dropping message\x1b[0m" ::
    if r.newLine then [utf8 "\n"] else []

inductive Call where
  | logInit (stream : LogStream) (color : Bool) (level : LogLevel)
  | logSetLevel (level : LogLevel)
  | logGetLevel
  | logUseColor
  | logGetFile
  | logRecord (r : Record)
  deriving DecidableEq

/-- Where a call is, as in the coarse model, with the pieces that it has still to write. -/
inductive Pc where
  | entry
  | dropping (rest : List Bytes)
  | acquiring
  | held
  | writing (rest : List Bytes)
  | releasing
  deriving DecidableEq

inductive Frame where
  | call (c : Call) (pc : Pc)
  | handler (sig : Signal) (pc : HandlerPc)
  deriving DecidableEq

/-- What has been written on purpose: a record, or what main prints to `log_get_file()`. -/
inductive Entry where
  | record (t : ℕ) (r : Record) (color : Bool)
  | print (text : Bytes)
  deriving DecidableEq

def Entry.text (b : LogBuild) : Entry → Bytes
  | .record _ r color => (r.pieces b color).flatten
  | .print text => text

/-- The state of log.c with all that was written to each stream. `accepted` is the history of the
entries and of the streams that they were meant for. -/
structure Writer where
  mutex : Option ℕ
  level : LogLevel
  stream : Option LogStream
  useColor : Bool
  shutdown : Bool
  stack : ℕ → List Frame
  output : LogStream → Bytes
  accepted : List (Option LogStream × Entry)

/-- The program has just started; a log file may have been there before. -/
def newWriter (old : LogStream → Bytes) : Writer where
  mutex := none
  level := .info
  stream := none
  useColor := false
  shutdown := false
  stack := fun _ => []
  output := old
  accepted := []

namespace Writer

def atThread (w : Writer) (t : ℕ) (frames : List Frame) : Writer :=
  { w with stack := Function.update w.stack t frames }

def put (w : Writer) (f : LogStream) (text : Bytes) : Writer :=
  { w with output := Function.update w.output f (w.output f ++ text) }

/-- A write to `g_log_stream`. -/
def write (w : Writer) (text : Bytes) : Writer := w.stream.elim w fun f => w.put f text

def accept (w : Writer) (e : Entry) : Writer := { w with accepted := w.accepted ++ [(w.stream, e)] }

end Writer

/-- The checks of `log_record` before the lock; there is no place to go to where it returns. -/
def entered (c : Call) (w : Writer) : Option Pc :=
  match c with
  | .logRecord r =>
    if r.message = none then none
    else if w.stream = none then some (.dropping r.droppedPieces) else some .acquiring
  | _ => some .acquiring

/-- What a call does first after the lock, and where it goes on. -/
def critical (b : LogBuild) (t : ℕ) (c : Call) (w : Writer) : Writer × Pc :=
  match c with
  | .logInit stream color level =>
    ({ w with stream := some stream, useColor := color, level := level }, .releasing)
  | .logSetLevel level => ({ w with level := level }, .releasing)
  | .logRecord r =>
    if r.level.rank > w.level.rank then (w, .releasing)
    else (w.accept (.record t r w.useColor), .writing (r.pieces b w.useColor))
  | .logGetLevel | .logUseColor | .logGetFile => (w, .releasing)

def signalNumber : Signal → ℤ
  | .sigint => 2
  | .sigterm => 15

/-- The message of `handle_signal`. -/
def signalRecord (sig : Signal) (clock : Bytes) (micros : ℕ) : Record where
  level := .info
  file := utf8 "src/server.c"
  line := 38
  func := utf8 "handle_signal"
  newLine := true
  message := some (utf8 "Signal " ++ signedNumeral (signalNumber sig) ++
    utf8 " received, initiating graceful shutdown")
  clock := clock
  micros := micros

/-- The next step of the innermost call of thread `t`; the clock is that of a handler's message. -/
def runFrame (b : LogBuild) (t : ℕ) (clock : Bytes × ℕ) (frame : Frame) (below : List Frame)
    (w : Writer) : Option Writer :=
  match frame with
  | .call c .entry =>
    some (w.atThread t ((entered c w).elim below fun pc => .call c pc :: below))
  | .call _ (.dropping []) => some (w.atThread t below)
  | .call c (.dropping (p :: ps)) =>
    some ((w.put .stderr p).atThread t (.call c (.dropping ps) :: below))
  | .call c .acquiring =>
    if w.mutex = none then
      some ({ w with mutex := some t }.atThread t (.call c .held :: below))
    else none
  | .call c .held =>
    some ((critical b t c w).1.atThread t (.call c (critical b t c w).2 :: below))
  | .call c (.writing []) => some (w.atThread t (.call c .releasing :: below))
  | .call c (.writing (p :: ps)) => some ((w.write p).atThread t (.call c (.writing ps) :: below))
  | .call _ .releasing => some ({ w with mutex := none }.atThread t below)
  | .handler sig .logging =>
    some (w.atThread t (.call (.logRecord (signalRecord sig clock.1 clock.2)) .entry ::
      .handler sig .storing :: below))
  | .handler _ .storing => some ({ w with shutdown := true }.atThread t below)

inductive Label where
  | call (t : ℕ) (c : Call)
  | run (t : ℕ) (clock : Bytes × ℕ)
  | signal (t : ℕ) (sig : Signal)
  /-- Without a lock: main to `log_get_file()`, and whatever to `stderr` (`perror`, `log_init`). -/
  | print (text : Bytes)
  | stderr (text : Bytes)
  deriving DecidableEq

def exec (b : LogBuild) (w : Writer) : Label → Option Writer
  | .call t c => if w.stack t = [] then some (w.atThread t [.call c .entry]) else none
  | .run t clock =>
    match w.stack t with
    | [] => none
    | frame :: below => runFrame b t clock frame below w
  | .signal t sig =>
    if .handler sig .logging ∈ w.stack t ∨ .handler sig .storing ∈ w.stack t then none
    else some (w.atThread t (.handler sig .logging :: w.stack t))
  | .print text => some ((w.accept (.print text)).write text)
  | .stderr text => some (w.put .stderr text)

/-- Nothing is printed to the stream while a thread has the mutex. -/
def PrintsAlone (w : Writer) : Label → Prop
  | .print _ => w.mutex = none
  | _ => True

instance (w : Writer) (l : Label) : Decidable (PrintsAlone w l) :=
  match l with
  | .print _ => inferInstanceAs (Decidable (w.mutex = none))
  | .call _ _ | .run _ _ | .signal _ _ | .stderr _ => inferInstanceAs (Decidable True)

/-! ### The coarse model -/

def Call.coarse : Call → LogCall
  | .logInit stream color level => .logInit stream color level
  | .logSetLevel level => .logSetLevel level
  | .logGetLevel => .logGetLevel
  | .logUseColor => .logUseColor
  | .logGetFile => .logGetFile
  | .logRecord r => .logRecord r.level r.message.isSome

/-- A call that drops its message has returned there, and one that writes has written. -/
def Pc.coarse : Pc → Option CallPc
  | .entry => some .entry
  | .dropping _ => none
  | .acquiring => some .acquiring
  | .held => some .held
  | .writing _ | .releasing => some .releasing

def Frame.coarse : Frame → Option Log.Frame
  | .call c pc => pc.coarse.map fun pc => .call c.coarse pc
  | .handler sig pc => some (.handler sig pc)

def Entry.line : Entry → Option (ℕ × LogLevel)
  | .record t r _ => some (t, r.level)
  | .print _ => none

def coarseStack (frames : List Frame) : List Log.Frame := frames.filterMap Frame.coarse

/-- The state of the coarse model, in which a record is written in one step. -/
def Writer.coarse (w : Writer) : Logger where
  mutex := w.mutex
  level := w.level
  stream := w.stream
  useColor := w.useColor
  lines := (w.accepted.map Prod.snd).filterMap Entry.line
  shutdown := w.shutdown
  stack := coarseStack ∘ w.stack

section
variable {b : LogBuild} {w w' : Writer} {t : ℕ}

theorem coarse_atThread (w : Writer) (t : ℕ) (frames : List Frame) :
    (w.atThread t frames).coarse = w.coarse.atThread t (coarseStack frames) := by
  simp only [Writer.coarse, Writer.atThread, Logger.atThread, Function.comp_update]

theorem coarse_put (w : Writer) (f : LogStream) (text : Bytes) : (w.put f text).coarse = w.coarse :=
  rfl

theorem coarse_write (w : Writer) (text : Bytes) : (w.write text).coarse = w.coarse := by
  unfold Writer.write
  cases w.stream <;> rfl

theorem coarse_accept (w : Writer) (e : Entry) :
    (w.accept e).coarse = { w.coarse with lines := w.coarse.lines ++ e.line.toList } := by
  simp only [Writer.coarse, Writer.accept, List.map_append, List.filterMap_append]
  cases e <;> rfl

/-- A step of a frame that the coarse model does not see leaves the stack there. -/
theorem coarse_same {frames frames' : List Frame} (hs : w.stack t = frames)
    (hsame : coarseStack frames' = coarseStack frames) :
    (w.atThread t frames').coarse = w.coarse := by
  have hold : w.coarse.stack t = coarseStack frames' := by
    show coarseStack (w.stack t) = _
    rw [hs, hsame]
  rw [coarse_atThread, Logger.atThread, ← hold, Function.update_eq_self]

theorem critical_coarse (b : LogBuild) (t : ℕ) (c : Call) (w : Writer) :
    (critical b t c w).1.coarse = Log.critical t c.coarse w.coarse ∧
      (critical b t c w).2.coarse = some .releasing := by
  cases c with
  | logRecord r =>
    simp only [critical, Log.critical, Call.coarse]
    by_cases hlevel : r.level.rank > w.level.rank
    · have hcoarse : r.level.rank > w.coarse.level.rank := hlevel
      rw [if_pos hlevel, if_pos hcoarse]
      exact ⟨rfl, rfl⟩
    · have hcoarse : ¬r.level.rank > w.coarse.level.rank := hlevel
      rw [if_neg hlevel, if_neg hcoarse]
      exact ⟨coarse_accept w _, rfl⟩
  | _ => exact ⟨rfl, rfl⟩

theorem entered_coarse (c : Call) (w : Writer) (below : List Frame) :
    coarseStack ((entered c w).elim below fun pc => .call c pc :: below) =
      if skipsLock c.coarse w.coarse then coarseStack below
      else .call c.coarse .acquiring :: coarseStack below := by
  cases c with
  | logRecord r =>
    have hskips : skipsLock (Call.logRecord r).coarse w.coarse =
        (!r.message.isSome || w.stream.isNone) := rfl
    rw [hskips, entered]
    by_cases hmessage : r.message = none
    · rw [if_pos hmessage, hmessage]
      rfl
    · rw [if_neg hmessage, Option.isSome_iff_ne_none.mpr hmessage, Bool.not_true, Bool.false_or]
      by_cases hstream : w.stream = none
      · rw [if_pos hstream, hstream]
        rfl
      · rw [if_neg hstream, Option.isNone_eq_false_iff.mpr (Option.isSome_iff_ne_none.mpr hstream)]
        rfl
  | _ => rfl

theorem runFrame_coarse {clock : Bytes × ℕ} {frame : Frame} {below : List Frame}
    (hs : w.stack t = frame :: below) (hst : runFrame b t clock frame below w = some w') :
    w'.coarse = w.coarse ∨ Log.exec w.coarse (.run t) = some w'.coarse := by
  have hstack : w.coarse.stack t = coarseStack (frame :: below) := congrArg coarseStack hs
  unfold runFrame at hst
  split at hst
  case h_1 c =>
    cases hst
    rw [exec_run hstack, coarse_atThread, entered_coarse]
    exact Or.inr rfl
  case h_2 c =>
    cases hst
    exact Or.inl (coarse_same hs rfl)
  case h_3 c p ps =>
    cases hst
    refine Or.inl (Eq.trans ?_ (coarse_put w .stderr p))
    exact coarse_same (w := w.put .stderr p) hs rfl
  case h_4 c =>
    split at hst
    · rename_i hfree
      cases hst
      refine Or.inr ?_
      rw [exec_run hstack, coarse_atThread]
      exact if_pos hfree
    · cases hst
  case h_5 c =>
    cases hst
    obtain ⟨hcritical, hpc⟩ := critical_coarse b t c w
    refine Or.inr ?_
    have hframes : coarseStack (.call c (critical b t c w).2 :: below) =
        .call c.coarse .releasing :: coarseStack below := by
      have hframe : Frame.coarse (.call c (critical b t c w).2) =
          some (.call c.coarse .releasing) := by
        rw [Frame.coarse, hpc]
        rfl
      exact List.filterMap_cons_some hframe
    rw [exec_run hstack, coarse_atThread, hcritical, hframes]
    rfl
  case h_6 c =>
    cases hst
    exact Or.inl (coarse_same hs rfl)
  case h_7 c p ps =>
    cases hst
    refine Or.inl (Eq.trans ?_ (coarse_write w p))
    have hsame : (w.write p).stack t = .call c (.writing (p :: ps)) :: below := by
      unfold Writer.write
      cases w.stream <;> exact hs
    exact coarse_same hsame rfl
  case h_8 c =>
    cases hst
    rw [exec_run hstack, coarse_atThread]
    exact Or.inr rfl
  case h_9 sig =>
    cases hst
    rw [exec_run hstack, coarse_atThread]
    exact Or.inr rfl
  case h_10 sig =>
    cases hst
    rw [exec_run hstack, coarse_atThread]
    exact Or.inr rfl

theorem exec_coarse {l : Label} (hst : exec b w l = some w') :
    w'.coarse = w.coarse ∨ ∃ l', Log.exec w.coarse l' = some w'.coarse := by
  cases l with
  | call t c =>
    obtain ⟨hs, hw⟩ := Option.ite_none_right_eq_some.mp hst
    obtain rfl := Option.some.inj hw
    refine Or.inr ⟨.call t c.coarse, ?_⟩
    have hidle : w.coarse.stack t = [] := congrArg coarseStack hs
    rw [coarse_atThread, Log.exec, if_pos hidle]
    rfl
  | run t clock =>
    simp only [exec] at hst
    split at hst
    · cases hst
    · rename_i frame below hs
      exact (runFrame_coarse hs hst).imp id fun hrun => ⟨.run t, hrun⟩
  | signal t sig =>
    obtain ⟨hno, hw⟩ := Option.ite_none_left_eq_some.mp hst
    obtain rfl := Option.some.inj hw
    refine Or.inr ⟨.signal t sig, ?_⟩
    have hnone : ¬(.handler sig .logging ∈ w.coarse.stack t ∨
        .handler sig .storing ∈ w.coarse.stack t) := by
      have hback : ∀ pc, .handler sig pc ∈ coarseStack (w.stack t) →
          .handler sig pc ∈ w.stack t := by
        intro pc hmem
        obtain ⟨frame, hframe, hcoarse⟩ := List.mem_filterMap.mp hmem
        cases frame with
        | call c p =>
          obtain ⟨_, -, hfalse⟩ := Option.map_eq_some_iff.mp hcoarse
          cases hfalse
        | handler sig' pc' =>
          obtain ⟨rfl, rfl⟩ := Log.Frame.handler.inj (Option.some.inj hcoarse)
          exact hframe
      exact fun h => hno (h.imp (hback _) (hback _))
    rw [Log.exec, if_neg hnone, coarse_atThread]
    rfl
  | print text =>
    obtain rfl := Option.some.inj hst
    refine Or.inl ?_
    have hnone : (Entry.print text).line.toList = [] := rfl
    rw [coarse_write, coarse_accept, hnone, List.append_nil]
  | stderr text =>
    obtain rfl := Option.some.inj hst
    exact Or.inl rfl

theorem reachable_coarse {old : LogStream → Bytes}
    (h : Reach (fun w => w = newWriter old) (StepOf (exec b)) w) : Reachable w.coarse := by
  refine h.simulated Writer.coarse ?_ fun _ _ _ _ hst => exec_coarse hst
  rintro w rfl
  rfl

/-! ### What is in a file -/

def Frame.pieces : Frame → Option (List Bytes)
  | .call _ (.writing ps) => some ps
  | _ => none

/-- What the calls of a thread have still to write. -/
def unwrittenIn (frames : List Frame) : Bytes := ((frames.findSome? Frame.pieces).getD []).flatten

def Writer.pending (w : Writer) : Bytes := w.mutex.elim [] fun t => unwrittenIn (w.stack t)

def Writer.textsOn (b : LogBuild) (w : Writer) (f : LogStream) : List Bytes :=
  (w.accepted.filter fun a => a.1 = some f).map fun a => a.2.text b

def Writer.unwritten (w : Writer) (f : LogStream) : Bytes :=
  if w.stream = some f then w.pending else []

/-- Each file has what was meant for it, but for the rest of a record that is being written. -/
structure Filed (b : LogBuild) (old : LogStream → Bytes) (w : Writer) : Prop where
  output : ∀ n, w.output (.file n) ++ w.unwritten (.file n) =
    old (.file n) ++ (w.textsOn b (.file n)).flatten
  part : w.pending ≠ [] → ∃ e, w.accepted.getLast? = some (w.stream, e) ∧ w.pending <:+ e.text b

theorem pending_free (h : w.mutex = none) : w.pending = [] := by
  rw [Writer.pending, h]
  rfl

theorem pending_owner {frames : List Frame} (h : w.mutex = some t) (hs : w.stack t = frames) :
    w.pending = unwrittenIn frames := by
  rw [Writer.pending, h, ← hs]
  rfl

theorem pending_atThread {frames : List Frame} (h : w.mutex = some t) :
    (w.atThread t frames).pending = unwrittenIn frames :=
  pending_owner h (Function.update_self ..)

theorem unwrittenIn_of_free {frames : List Frame} (h : holdsIn (coarseStack frames) = 0) :
    unwrittenIn frames = [] := by
  have hnone : frames.findSome? Frame.pieces = none := by
    rw [List.findSome?_eq_none_iff]
    intro frame hframe
    cases frame with
    | handler sig pc => rfl
    | call c pc =>
      cases pc with
      | writing ps =>
        have hmem : Log.Frame.call c.coarse .releasing ∈ coarseStack frames :=
          List.mem_filterMap.mpr ⟨_, hframe, rfl⟩
        exact absurd rfl (List.countP_eq_zero.mp h _ hmem)
      | _ => rfl
  rw [unwrittenIn, hnone]
  rfl

theorem owner_of_holds (he : Exclusive w.coarse) {frame : Frame} {below : List Frame}
    {g : Log.Frame} (hs : w.stack t = frame :: below) (hframe : frame.coarse = some g)
    (hholds : g.holds = true) : w.mutex = some t ∧ unwrittenIn below = [] := by
  have hstack : w.coarse.stack t = g :: coarseStack below := by
    show coarseStack (w.stack t) = _
    rw [hs]
    exact List.filterMap_cons_some hframe
  have hcount : holdsIn (w.coarse.stack t) = holdsIn (coarseStack below) + 1 := by
    rw [hstack, holdsIn_cons, if_pos hholds]
  have hmine : w.coarse.mutex = some t := he.owner (by omega)
  have hone := he.mine t hmine
  exact ⟨hmine, unwrittenIn_of_free (by omega)⟩

theorem Filed.keep {old : LogStream → Bytes} (h : Filed b old w)
    (houtput : ∀ n, w'.output (.file n) = w.output (.file n)) (haccepted : w'.accepted = w.accepted)
    (hstream : w'.stream = w.stream) (hpending : w'.pending = w.pending) : Filed b old w' where
  output := by
    intro n
    rw [houtput, Writer.unwritten, Writer.textsOn, hstream, hpending, haccepted]
    exact h.output n
  part := by
    rw [hpending, haccepted, hstream]
    exact h.part

theorem Filed.quiet {old : LogStream → Bytes} (h : Filed b old w)
    (houtput : ∀ n, w'.output (.file n) = w.output (.file n)) (haccepted : w'.accepted = w.accepted)
    (hpending : w.pending = []) (hpending' : w'.pending = []) : Filed b old w' where
  output := by
    intro n
    have hold := h.output n
    rw [Writer.unwritten, hpending, ite_self, List.append_nil] at hold
    rw [Writer.unwritten, hpending', ite_self, List.append_nil, houtput, hold, Writer.textsOn,
      Writer.textsOn, haccepted]
  part := fun hne => absurd hpending' hne

theorem Filed.atThread {old : LogStream → Bytes} (h : Filed b old w) {frames : List Frame}
    (hsame : unwrittenIn frames = unwrittenIn (w.stack t)) :
    Filed b old (w.atThread t frames) := by
  refine h.keep (fun _ => rfl) rfl rfl ?_
  cases hmutex : w.mutex with
  | none => exact (pending_free (w := w.atThread t frames) hmutex).trans (pending_free hmutex).symm
  | some u =>
    by_cases hut : u = t
    · subst hut
      rw [pending_atThread hmutex, pending_owner hmutex rfl, hsame]
    · rw [pending_owner (w := w) hmutex rfl]
      exact pending_owner hmutex (Function.update_of_ne hut ..)

theorem textsOn_accept (b : LogBuild) (w : Writer) (e : Entry) (f : LogStream) :
    (w.accept e).textsOn b f = w.textsOn b f ++ if w.stream = some f then [e.text b] else [] := by
  unfold Writer.textsOn Writer.accept
  rw [List.filter_append, List.map_append, List.filter_singleton]
  by_cases hf : w.stream = some f
  · rw [if_pos hf, decide_eq_true hf]
    rfl
  · rw [if_neg hf, decide_eq_false hf]
    rfl

theorem write_output (w : Writer) (text : Bytes) (f : LogStream) :
    (w.write text).output f = w.output f ++ if w.stream = some f then text else [] := by
  unfold Writer.write
  cases hstream : w.stream with
  | none => rw [if_neg (Option.some_ne_none f).symm, List.append_nil]; rfl
  | some g =>
    show Function.update w.output g (w.output g ++ text) f = _
    by_cases hfg : f = g
    · rw [hfg, Function.update_self, if_pos rfl]
    · have hne : ¬some g = some f := fun heq => hfg (Option.some.inj heq).symm
      rw [Function.update_of_ne hfg, if_neg hne, List.append_nil]

theorem write_frame (w : Writer) (text : Bytes) :
    (w.write text).mutex = w.mutex ∧ (w.write text).stream = w.stream ∧
      (w.write text).accepted = w.accepted ∧ (w.write text).stack = w.stack := by
  unfold Writer.write
  cases hstream : w.stream with
  | none => exact ⟨rfl, hstream, rfl, rfl⟩
  | some f => exact ⟨rfl, hstream, rfl, rfl⟩

theorem put_stderr (w : Writer) (text : Bytes) (n : ℕ) :
    (w.put .stderr text).output (.file n) = w.output (.file n) := by
  have hne : LogStream.file n ≠ .stderr := nofun
  exact Function.update_of_ne hne (w.output .stderr ++ text) w.output

theorem Filed.wrote {old : LogStream → Bytes} (h : Filed b old w) {p rest : Bytes}
    (hpending : w.pending = p ++ rest) (houtput : w'.output = (w.write p).output)
    (haccepted : w'.accepted = w.accepted) (hstream : w'.stream = w.stream)
    (hrest : w'.pending = rest) : Filed b old w' where
  output := by
    intro n
    rw [← show w.textsOn b (.file n) = w'.textsOn b (.file n) by
      rw [Writer.textsOn, Writer.textsOn, haccepted], ← h.output n, houtput, write_output,
      Writer.unwritten, Writer.unwritten, hstream, hrest, hpending]
    by_cases hf : w.stream = some (.file n)
    · rw [if_pos hf, if_pos hf, if_pos hf, List.append_assoc]
    · rw [if_neg hf, if_neg hf, if_neg hf, List.append_nil]
  part := by
    intro hne
    rw [hrest] at hne ⊢
    obtain ⟨e, hlast, hsuffix⟩ := h.part (by
      rw [hpending]
      exact List.append_ne_nil_of_right_ne_nil _ hne)
    rw [hpending] at hsuffix
    exact ⟨e, by rw [haccepted, hstream, hlast], (List.suffix_append p rest).trans hsuffix⟩

theorem Filed.began {old : LogStream → Bytes} (h : Filed b old w) {e : Entry}
    (hpending : w.pending = []) (houtput : w'.output = w.output)
    (haccepted : w'.accepted = (w.accept e).accepted) (hstream : w'.stream = w.stream)
    (hrest : w'.pending = e.text b) : Filed b old w' where
  output := by
    intro n
    have hold := h.output n
    rw [Writer.unwritten, hpending, ite_self, List.append_nil] at hold
    rw [show w'.textsOn b (.file n) = (w.accept e).textsOn b (.file n) by
      rw [Writer.textsOn, Writer.textsOn, haccepted], textsOn_accept, Writer.unwritten, hstream,
      hrest, houtput, hold, List.append_assoc, List.flatten_append]
    by_cases hf : w.stream = some (.file n)
    · rw [if_pos hf, if_pos hf, List.flatten_singleton]
    · rw [if_neg hf, if_neg hf, List.flatten_nil]
  part := by
    intro _
    refine ⟨e, ?_, by rw [hrest]⟩
    rw [haccepted, hstream, Writer.accept, List.getLast?_append_of_ne_nil _ (List.cons_ne_nil _ _),
      List.getLast?_singleton]

theorem entered_pieces (c : Call) (w : Writer) (below : List Frame) :
    unwrittenIn ((entered c w).elim below fun pc => .call c pc :: below) = unwrittenIn below := by
  cases c with
  | logRecord r =>
    simp only [entered]
    split
    · rfl
    · split <;> rfl
  | _ => rfl

theorem critical_cases (b : LogBuild) (t : ℕ) (c : Call) (w : Writer) :
    (∃ r, (critical b t c w) = (w.accept (.record t r w.useColor),
      .writing (r.pieces b w.useColor))) ∨
    ((critical b t c w).2 = .releasing ∧ (critical b t c w).1.output = w.output ∧
      (critical b t c w).1.accepted = w.accepted) := by
  cases c with
  | logRecord r =>
    simp only [critical]
    split
    · exact Or.inr ⟨rfl, rfl, rfl⟩
    · exact Or.inl ⟨r, rfl⟩
  | _ => exact Or.inr ⟨rfl, rfl, rfl⟩

theorem runFrame_filed {old : LogStream → Bytes} {clock : Bytes × ℕ} {frame : Frame}
    {below : List Frame} (he : Exclusive w.coarse) (h : Filed b old w)
    (hs : w.stack t = frame :: below) (hst : runFrame b t clock frame below w = some w') :
    Filed b old w' := by
  unfold runFrame at hst
  split at hst
  case h_1 c =>
    cases hst
    exact h.atThread (by rw [entered_pieces, hs]; rfl)
  case h_2 c =>
    cases hst
    exact h.atThread (by rw [hs]; rfl)
  case h_3 c p ps =>
    cases hst
    have hput : Filed b old (w.put .stderr p) := h.keep (put_stderr w p) rfl rfl rfl
    have hsame : (w.put .stderr p).stack t = .call c (.dropping (p :: ps)) :: below := hs
    exact hput.atThread (by rw [hsame]; rfl)
  case h_4 c =>
    split at hst
    · rename_i hfree
      cases hst
      have hnone : holdsIn (w.coarse.stack t) = 0 :=
        he.others t (by rw [show w.coarse.mutex = none from hfree]; exact nofun)
      have hbelow : unwrittenIn (w.stack t) = [] := unwrittenIn_of_free hnone
      rw [hs] at hbelow
      exact h.quiet (fun _ => rfl) rfl (pending_free hfree) ((pending_atThread rfl).trans hbelow)
    · cases hst
  case h_5 c =>
    cases hst
    obtain ⟨hmine, hbelow⟩ := owner_of_holds he hs rfl rfl
    have hidle : w.pending = [] := (pending_owner hmine hs).trans hbelow
    have hmutex : (critical b t c w).1.mutex = some t :=
      (congrArg Logger.mutex (critical_coarse b t c w).1).trans
        ((critical_frame t c.coarse w.coarse).1.trans hmine)
    obtain ⟨r, hbegun⟩ | ⟨hpc, houtput, haccepted⟩ := critical_cases b t c w
    · rw [hbegun] at hmutex ⊢
      exact h.began (e := .record t r w.useColor) hidle rfl rfl rfl (pending_atThread hmutex)
    · refine h.quiet (fun n => congrFun houtput _) haccepted hidle ?_
      rw [pending_atThread hmutex, hpc]
      exact hbelow
  case h_6 c =>
    cases hst
    obtain ⟨hmine, hbelow⟩ := owner_of_holds he hs rfl rfl
    exact h.quiet (fun _ => rfl) rfl (pending_owner hmine hs)
      ((pending_atThread hmine).trans hbelow)
  case h_7 c p ps =>
    cases hst
    obtain ⟨hmine, -⟩ := owner_of_holds he hs rfl rfl
    obtain ⟨hmutex, hstream, haccepted, -⟩ := write_frame w p
    exact h.wrote (pending_owner hmine hs) rfl haccepted hstream
      (pending_atThread (hmutex.trans hmine))
  case h_8 c =>
    cases hst
    obtain ⟨hmine, hbelow⟩ := owner_of_holds he hs rfl rfl
    exact h.quiet (fun _ => rfl) rfl ((pending_owner hmine hs).trans hbelow) (pending_free rfl)
  case h_9 sig =>
    cases hst
    exact h.atThread (by rw [hs]; rfl)
  case h_10 sig =>
    cases hst
    have hstored : Filed b old { w with shutdown := true } := h.keep (fun _ => rfl) rfl rfl rfl
    have hsame : ({ w with shutdown := true } : Writer).stack t =
      .handler sig .storing :: below := hs
    exact hstored.atThread (by rw [hsame]; rfl)

theorem exec_filed {old : LogStream → Bytes} {l : Label} (he : Exclusive w.coarse)
    (h : Filed b old w) (hok : PrintsAlone w l) (hst : exec b w l = some w') :
    Filed b old w' := by
  cases l with
  | call t c =>
    obtain ⟨hs, hw⟩ := Option.ite_none_right_eq_some.mp hst
    obtain rfl := Option.some.inj hw
    exact h.atThread (by rw [hs]; rfl)
  | run t clock =>
    simp only [exec] at hst
    split at hst
    · cases hst
    · rename_i frame below hs
      exact runFrame_filed he h hs hst
  | signal t sig =>
    obtain ⟨-, hw⟩ := Option.ite_none_left_eq_some.mp hst
    obtain rfl := Option.some.inj hw
    exact h.atThread rfl
  | print text =>
    obtain rfl := Option.some.inj hst
    have hidle := pending_free hok
    -- as a record that is written in one piece
    obtain ⟨hmutex, hstream, haccepted, -⟩ := write_frame (w.accept (.print text)) text
    constructor
    · intro n
      have hold := h.output n
      rw [Writer.unwritten, hidle, ite_self, List.append_nil] at hold
      rw [Writer.unwritten, pending_free (hmutex.trans hok), ite_self, List.append_nil,
        write_output, Writer.textsOn, haccepted, ← Writer.textsOn, textsOn_accept,
        List.flatten_append, ← List.append_assoc, ← hold]
      show w.output (.file n) ++ (if w.stream = some (.file n) then text else []) = _
      split <;> simp [Entry.text]
    · intro hne
      exact absurd (pending_free (hmutex.trans hok)) hne
  | stderr text =>
    obtain rfl := Option.some.inj hst
    exact h.keep (put_stderr w text) rfl rfl rfl

end

theorem newWriter_filed (b : LogBuild) (old : LogStream → Bytes) : Filed b old (newWriter old) where
  output := by
    intro n
    rw [Writer.unwritten, pending_free rfl, ite_self]
    rfl
  part := fun hne => absurd (pending_free rfl) hne

theorem reach_filed {b : LogBuild} {old : LogStream → Bytes} {w : Writer}
    (h : Reach (fun w => w = newWriter old) (Guarded (StepOf (exec b)) PrintsAlone) w) :
    Filed b old w := by
  refine h.invariant (fun w hw => ?_) fun s l s' hr hs hst => ?_
  · subst hw
    exact newWriter_filed b old
  · exact exec_filed (reachable_exclusive (reachable_coarse hr.of_guarded)) hs hst.1 hst.2

/-- Whatever threads log and whatever signals come, the logger that writes its records piece by
piece behaves as the one that writes each in one step. A log file has what was there before and
then the records one after the other, each of them whole; only of the last one a part may still be
missing, while a thread has the mutex. -/
theorem records_whole {b : LogBuild} {old : LogStream → Bytes} {w : Writer}
    (h : Reach (fun w => w = newWriter old) (Guarded (StepOf (exec b)) PrintsAlone) w) :
    Reachable w.coarse ∧ ∀ n, ∃ rest,
      w.output (.file n) ++ rest = old (.file n) ++ (w.textsOn b (.file n)).flatten ∧
      (rest = [] ∨ w.mutex ≠ none ∧ ∃ text ∈ (w.textsOn b (.file n)).getLast?, rest <:+ text) := by
  refine ⟨reachable_coarse h.of_guarded, fun n => ⟨_, (reach_filed h).output n, ?_⟩⟩
  rw [or_iff_not_imp_left]
  intro hne
  have hstream : w.stream = some (.file n) := by
    by_contra hother
    exact hne (if_neg hother)
  rw [Writer.unwritten, if_pos hstream] at hne ⊢
  obtain ⟨e, hlast, hsuffix⟩ := (reach_filed h).part hne
  refine ⟨fun hfree => hne (pending_free hfree), e.text b, ?_, hsuffix⟩
  obtain ⟨before, hbefore⟩ := List.getLast?_eq_some_iff.mp hlast
  rw [Writer.textsOn, hbefore, List.filter_append, List.map_append, List.filter_singleton, hstream,
    decide_eq_true rfl]
  exact List.getLast?_concat ..

def plainRecord (level : LogLevel) (message : String) : Record where
  level := level
  file := []
  line := 0
  func := []
  newLine := true
  message := some (utf8 message)
  clock := []
  micros := 0

/-- Thread 0 has written the label of its record, and thread 1 waits to write its own. -/
def bothLog : List Label :=
  [.call 0 (.logInit (.file 1) false .info)] ++ List.replicate 4 (.run 0 ([], 0)) ++
    [.call 0 (.logRecord (plainRecord .warn "first")),
      .call 1 (.logRecord (plainRecord .error "second"))] ++
    List.replicate 4 (.run 0 ([], 0)) ++ [.run 1 ([], 0)]

theorem records_whole_both : ∃ w : Writer,
    w.mutex = some 0 ∧ w.output (.file 1) = utf8 "old\n[WARN ] " ∧
    Reachable w.coarse ∧ ∀ n, ∃ rest, w.output (.file n) ++ rest =
        utf8 "old\n" ++ (w.textsOn ⟨false, false⟩ (.file n)).flatten ∧
      (rest = [] ∨ w.mutex ≠ none ∧
        ∃ text ∈ (w.textsOn ⟨false, false⟩ (.file n)).getLast?, rest <:+ text) := by
  have hrun : (runGuarded (exec ⟨false, false⟩) PrintsAlone (newWriter fun _ => utf8 "old\n")
      bothLog).map (fun w => (w.mutex, w.output (.file 1))) =
        some (some 0, utf8 "old\n[WARN ] ") := by decide +kernel
  obtain ⟨w, hw, hend⟩ := Option.map_eq_some_iff.mp hrun
  obtain ⟨hmutex, hout⟩ := Prod.mk.inj hend
  have hstart : Reach (fun w => w = newWriter fun _ => utf8 "old\n")
      (Guarded (StepOf (exec ⟨false, false⟩)) PrintsAlone) (newWriter fun _ => utf8 "old\n") :=
    .start rfl
  exact ⟨w, hmutex, hout, records_whole (hstart.of_runGuarded bothLog hw)⟩

end LocalMarks.Log.Records

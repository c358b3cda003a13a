import LocalMarks.BookmarkCache.Entry
import LocalMarks.Lib.Numeral
import LocalMarks.Lib.Strtoll
import LocalMarks.Log.Signals

/-!
# The command line (main.c)

`argp_parse` hands the options to `parse_opt` one after the other, then the paths, then the end.
The program goes on only if none of them is refused, and then with the last value of each option.
-/

namespace LocalMarks.Main
open LocalMarks.Lib
open LocalMarks.Log

inductive Opt where
  | port
  | logLevel
  | host
  | logFile
  | pass
  | user
  | browser
  | printRequest
  | tlsKey
  | tlsCert
  | threads
  | keepAlive
  | maxConns
  deriving DecidableEq

/-- `Arguments`. The log level and the flag are read from their texts, as the numbers are. -/
structure Arguments where
  user : Option CString
  pass : Option CString
  browser : Option CString
  host : CString
  port : ℤ
  threads : ℤ
  keepAlive : ℤ
  maxConns : ℤ
  logFile : Option CString
  printRequest : Bool
  logLevel : LogLevel
  bookmarkFiles : List CString
  tlsCert : Option CString
  tlsKey : Option CString
  deriving DecidableEq

def localhost : CString := ⟨ascii "localhost", by decide⟩

def defaults : Arguments where
  user := none
  pass := none
  browser := none
  host := localhost
  port := 8080
  threads := 2
  keepAlive := 3
  maxConns := 0
  logFile := none
  printRequest := false
  logLevel := .info
  bookmarkFiles := []
  tlsCert := none
  tlsKey := none

/-! ### `parse_opt` -/

/-- A numeric option: the text that is no number, and the number out of range, are both quoted in
the message. -/
structure NumberOption where
  invalid : String
  outOfRange : String × String
  lo : ℤ
  hi : ℤ

def portOption : NumberOption := ⟨"Invalid port: '", ("Port out of range: ", "."), 1, 65535⟩
def threadsOption : NumberOption :=
  ⟨"Invalid thread count: '", ("Thread count out of range: ", " (1-256)."), 1, 256⟩
def keepAliveOption : NumberOption :=
  ⟨"Invalid keep-alive timeout: '", ("Keep-alive timeout out of range: ", " (0-3600)."), 0, 3600⟩
def maxConnsOption : NumberOption :=
  ⟨"Invalid max connections: '", ("Max connections out of range: ", " (0-1000)."), 0, 1000⟩

def NumberOption.parse (o : NumberOption) (arg : CString) : Except Bytes ℤ :=
  let r := strtol arg.bytes
  if arg.bytes = [] ∨ r.2 ≠ [] then .error (ascii o.invalid ++ arg.bytes ++ ascii "'.")
  else if r.1 < o.lo ∨ o.hi < r.1 then
    .error (ascii o.outOfRange.1 ++ signedNumeral r.1 ++ ascii o.outOfRange.2)
  else .ok r.1

def logLevelOf (arg : CString) : Option LogLevel :=
  if arg.bytes = ascii "off" then some .off
  else if arg.bytes = ascii "fatal" then some .fatal
  else if arg.bytes = ascii "error" then some .error
  else if arg.bytes = ascii "warn" then some .warn
  else if arg.bytes = ascii "info" then some .info
  else if arg.bytes = ascii "debug" then some .debug
  else if arg.bytes = ascii "trace" then some .trace
  else none

def badLevel (arg : CString) : Bytes :=
  ascii "Invalid log level: '" ++ arg.bytes ++
    ascii "'. Use: off, fatal, error, warn, info, debug, trace."

/-- ARGP_ERR_UNKNOWN: an option that the build does not have. -/
def unknownOption : Bytes := ascii "unrecognized option"

/-- `parse_opt` for an option. `tls` is the build with `SUPPORT_TLS_E`. -/
def parseOpt (tls : Bool) (a : Arguments) (key : Opt) (arg : CString) :
    Except Bytes Arguments :=
  match key with
  | .port => (portOption.parse arg).map fun n => { a with port := n }
  | .logLevel =>
    match logLevelOf arg with
    | none => .error (badLevel arg)
    | some level => .ok { a with logLevel := level }
  | .host => .ok { a with host := arg }
  | .logFile => .ok { a with logFile := some arg }
  | .pass => .ok { a with pass := some arg }
  | .user => .ok { a with user := some arg }
  | .browser => .ok { a with browser := some arg }
  | .printRequest => .ok { a with printRequest := true }
  | .tlsKey => if tls then .ok { a with tlsKey := some arg } else .error unknownOption
  | .tlsCert => if tls then .ok { a with tlsCert := some arg } else .error unknownOption
  | .threads => (threadsOption.parse arg).map fun n => { a with threads := n }
  | .keepAlive => (keepAliveOption.parse arg).map fun n => { a with keepAlive := n }
  | .maxConns => (maxConnsOption.parse arg).map fun n => { a with maxConns := n }

def parseArg (tls : Bool) (a : Arguments) (path : CString) : Except Bytes Arguments :=
  if tls && (a.tlsCert.isSome && a.tlsKey.isNone) then
    .error (ascii "<BOTH YOU HAVE TO PASS --tls-cert && --tls-key>")
  else if tls && (a.tlsCert.isNone && a.tlsKey.isSome) then
    .error (ascii "<BOTH YOU HAVE PASS --tls-cert && --tls-key>")
  else if BookmarkCache.maxBookmarkFiles ≤ a.bookmarkFiles.length then
    .error (ascii "Too many bookmark files (max 10).")
  else .ok { a with bookmarkFiles := a.bookmarkFiles ++ [path] }

/-- The first of the files that `access` does not find readable. -/
def unreadable (readable : CString → Bool) (files : List CString) : Option CString :=
  files.find? fun f => !readable f

def parseEnd (tls : Bool) (readable : CString → Bool) (a : Arguments) : Except Bytes Arguments :=
  if a.bookmarkFiles = [] then .error (ascii "At least one bookmark JSON file is required.")
  else if a.user.isSome ∧ a.pass.isNone then
    .error (ascii "A password must be provided when a username is specified.")
  else
    match unreadable readable a.bookmarkFiles with
    | some f => .error (ascii "Cannot read bookmark file: '" ++ f.bytes ++ ascii "'.")
    | none =>
      match unreadable readable (if tls then a.tlsCert.toList else []) with
      | some f => .error (ascii "Cannot read TLS certificate: '" ++ f.bytes ++ ascii "'.")
      | none =>
        match unreadable readable (if tls then a.tlsKey.toList else []) with
        | some f => .error (ascii "Cannot read TLS private key: '" ++ f.bytes ++ ascii "'.")
        | none => .ok a

/-- `argp_parse`: the options come before the other arguments, wherever they stand. -/
def argpParse (tls : Bool) (readable : CString → Bool) (opts : List (Opt × CString))
    (paths : List CString) : Except Bytes Arguments :=
  (opts.foldlM (fun a o => parseOpt tls a o.1 o.2) defaults).bind fun a =>
    (paths.foldlM (parseArg tls) a).bind (parseEnd tls readable)

/-! ### What the options say -/

/-- The text of each option that was given last. -/
def lastTexts (opts : List (Opt × CString)) : Opt → Option CString :=
  opts.foldl (fun texts o => Function.update texts o.1 (some o.2)) fun _ => none

def number (fallback : ℤ) (text : Option CString) : ℤ :=
  (text.map fun t => (strtol t.bytes).1).getD fallback

/-- The arguments that the texts of the options and the paths stand for. -/
def settle (texts : Opt → Option CString) (paths : List CString) : Arguments where
  user := texts .user
  pass := texts .pass
  browser := texts .browser
  host := (texts .host).getD localhost
  port := number 8080 (texts .port)
  threads := number 2 (texts .threads)
  keepAlive := number 3 (texts .keepAlive)
  maxConns := number 0 (texts .maxConns)
  logFile := texts .logFile
  printRequest := (texts .printRequest).isSome
  logLevel := ((texts .logLevel).bind logLevelOf).getD .info
  bookmarkFiles := paths
  tlsCert := texts .tlsCert
  tlsKey := texts .tlsKey

def NumberOption.Accepts (o : NumberOption) (arg : CString) : Prop :=
  ∃ n, WholeNumber arg.bytes n ∧ o.lo ≤ n ∧ n ≤ o.hi

/-- The option is not refused. -/
def OptionOk (tls : Bool) (key : Opt) (arg : CString) : Prop :=
  match key with
  | .port => portOption.Accepts arg
  | .logLevel => (logLevelOf arg).isSome
  | .tlsKey | .tlsCert => tls = true
  | .threads => threadsOption.Accepts arg
  | .keepAlive => keepAliveOption.Accepts arg
  | .maxConns => maxConnsOption.Accepts arg
  | .host | .logFile | .pass | .user | .browser | .printRequest => True

/-- A command line that the program goes on with. -/
structure Accepted (tls : Bool) (readable : CString → Bool) (opts : List (Opt × CString))
    (paths : List CString) : Prop where
  options : ∀ o ∈ opts, OptionOk tls o.1 o.2
  some_path : paths ≠ []
  few_paths : paths.length ≤ BookmarkCache.maxBookmarkFiles
  paths_readable : ∀ p ∈ paths, readable p = true
  password : (lastTexts opts .user).isSome → (lastTexts opts .pass).isSome
  tls_pair : (lastTexts opts .tlsCert).isSome ↔ (lastTexts opts .tlsKey).isSome
  tls_readable : ∀ p, (p ∈ lastTexts opts .tlsCert ∨ p ∈ lastTexts opts .tlsKey) →
    readable p = true

/-! ### One option -/

theorem bind_ok {ε α β : Type} {x : Except ε α} {f : α → Except ε β} {b : β} :
    x.bind f = .ok b ↔ ∃ a, x = .ok a ∧ f a = .ok b := by
  cases x with
  | error e => exact iff_of_false (by rintro ⟨⟩) (by rintro ⟨a, ⟨⟩, -⟩)
  | ok a =>
    constructor
    · exact fun h => ⟨a, rfl, h⟩
    · rintro ⟨a', ⟨⟩, h⟩
      exact h

theorem map_ok {ε α β : Type} {x : Except ε α} {f : α → β} {b : β} :
    x.map f = .ok b ↔ ∃ a, x = .ok a ∧ b = f a := by
  cases x with
  | error e => exact iff_of_false (by rintro ⟨⟩) (by rintro ⟨a, ⟨⟩, -⟩)
  | ok a =>
    constructor
    · rintro ⟨⟩
      exact ⟨a, rfl, rfl⟩
    · rintro ⟨a', ⟨⟩, rfl⟩
      rfl

/-- The bounds are not the values that `strtol` returns on overflow. -/
structure NumberOption.Inside (o : NumberOption) : Prop where
  lo : int64Min < o.lo
  hi : o.hi < int64Max

theorem NumberOption.parse_ok {o : NumberOption} (ho : o.Inside) {arg : CString} {n : ℤ} :
    o.parse arg = .ok n ↔ WholeNumber arg.bytes n ∧ o.lo ≤ n ∧ n ≤ o.hi := by
  have hlo := ho.lo
  have hhi := ho.hi
  by_cases hne : arg.bytes = []
  · refine iff_of_false ?_ fun h => h.1.ne_nil hne
    unfold parse
    rw [if_pos (Or.inl hne)]
    rintro ⟨⟩
  · rw [← strtoll_whole hne]
    unfold parse strtol
    rcases hr : strtoll arg.bytes with ⟨z, rest⟩
    dsimp only
    by_cases hrest : rest = []
    · rw [if_neg (not_or.mpr ⟨hne, not_not.mpr hrest⟩)]
      by_cases hrange : max int64Min (min int64Max z) < o.lo ∨
          o.hi < max int64Min (min int64Max z)
      · rw [if_pos hrange]
        refine iff_of_false (by rintro ⟨⟩) ?_
        rintro ⟨hz, hn⟩
        cases hz
        omega
      · rw [if_neg hrange]
        constructor
        · intro h
          cases h
          have hz : max int64Min (min int64Max z) = z := by omega
          rw [hz, hrest]
          exact ⟨rfl, by omega, by omega⟩
        · rintro ⟨hz, hn⟩
          cases hz
          exact congrArg Except.ok (by omega)
    · rw [if_pos (Or.inr hrest)]
      refine iff_of_false (by rintro ⟨⟩) ?_
      rintro ⟨hz, -⟩
      exact hrest (Prod.mk.inj hz).2

theorem NumberOption.parse_settled {o : NumberOption} (ho : o.Inside) {arg : CString} {n : ℤ}
    (fallback : ℤ) : o.parse arg = .ok n ↔ o.Accepts arg ∧ n = number fallback (some arg) := by
  have hread : ∀ m, o.parse arg = .ok m → m = number fallback (some arg) := by
    intro m hm
    unfold parse at hm
    dsimp only at hm
    split at hm
    · cases hm
    · split at hm
      · cases hm
      · cases hm
        rfl
  constructor
  · intro h
    exact ⟨⟨n, (parse_ok ho).mp h⟩, hread n h⟩
  · rintro ⟨⟨m, hm⟩, hn⟩
    have hparse := (parse_ok ho).mpr hm
    rw [hn, ← hread m hparse]
    exact hparse

theorem portOption_inside : portOption.Inside := ⟨by decide, by decide⟩
theorem threadsOption_inside : threadsOption.Inside := ⟨by decide, by decide⟩
theorem keepAliveOption_inside : keepAliveOption.Inside := ⟨by decide, by decide⟩
theorem maxConnsOption_inside : maxConnsOption.Inside := ⟨by decide, by decide⟩

theorem parse_number {o : NumberOption} (ho : o.Inside) {arg : CString} (fallback : ℤ)
    {set : ℤ → Arguments} {a b : Arguments} (hb : set (number fallback (some arg)) = b) :
    (o.parse arg).map set = .ok a ↔ o.Accepts arg ∧ a = b := by
  rw [map_ok]
  constructor
  · rintro ⟨n, hn, rfl⟩
    obtain ⟨haccepts, rfl⟩ := (NumberOption.parse_settled ho fallback).mp hn
    exact ⟨haccepts, hb⟩
  · rintro ⟨haccepts, rfl⟩
    exact ⟨_, (NumberOption.parse_settled ho fallback).mpr ⟨haccepts, rfl⟩, hb.symm⟩

theorem parseOpt_settle (tls : Bool) (texts : Opt → Option CString) (paths : List CString)
    (key : Opt) (arg : CString) (a : Arguments) :
    parseOpt tls (settle texts paths) key arg = .ok a ↔
      OptionOk tls key arg ∧ a = settle (Function.update texts key (some arg)) paths := by
  have hset : ∀ {b : Arguments}, b = settle (Function.update texts key (some arg)) paths →
      ((.ok b : Except Bytes Arguments) = .ok a ↔
        True ∧ a = settle (Function.update texts key (some arg)) paths) := by
    rintro b rfl
    rw [true_and, Except.ok.injEq, eq_comm]
  have htls : ∀ {b : Arguments}, b = settle (Function.update texts key (some arg)) paths →
      ((if tls then .ok b else .error unknownOption : Except Bytes Arguments) = .ok a ↔
        tls = true ∧ a = settle (Function.update texts key (some arg)) paths) := by
    rintro b rfl
    cases tls with
    | true => rw [if_pos rfl, Except.ok.injEq, eq_comm, eq_self, true_and]
    | false => exact iff_of_false (by rintro ⟨⟩) (by rintro ⟨⟨⟩, -⟩)
  cases key with
  | port => exact parse_number portOption_inside 8080 rfl
  | threads => exact parse_number threadsOption_inside 2 rfl
  | keepAlive => exact parse_number keepAliveOption_inside 3 rfl
  | maxConns => exact parse_number maxConnsOption_inside 0 rfl
  | logLevel =>
    unfold parseOpt OptionOk
    dsimp only
    cases hlevel : logLevelOf arg with
    | none => exact iff_of_false (by rintro ⟨⟩) (by rintro ⟨⟨⟩, -⟩)
    | some level =>
      have hlast : ((Function.update texts .logLevel (some arg) .logLevel).bind
          logLevelOf).getD .info = level := by
        rw [Function.update_self, Option.bind_some, hlevel, Option.getD_some]
      have hb : ({ settle texts paths with logLevel := level } : Arguments) =
          settle (Function.update texts .logLevel (some arg)) paths := by
        rw [← hlast]
        rfl
      rw [Option.isSome_some, eq_self]
      exact hset hb
  | host => exact hset rfl
  | logFile => exact hset rfl
  | pass => exact hset rfl
  | user => exact hset rfl
  | browser => exact hset rfl
  | printRequest => exact hset rfl
  | tlsKey => exact htls rfl
  | tlsCert => exact htls rfl

/-! ### The whole line -/

/-- The options one after the other: each is accepted by itself, the last text of each counts. -/
theorem parseOptions_settle (tls : Bool) (texts : Opt → Option CString) (paths : List CString)
    (opts : List (Opt × CString)) (a : Arguments) :
    opts.foldlM (fun a o => parseOpt tls a o.1 o.2) (settle texts paths) = .ok a ↔
      (∀ o ∈ opts, OptionOk tls o.1 o.2) ∧
        a = settle (opts.foldl (fun t o => Function.update t o.1 (some o.2)) texts) paths := by
  induction opts generalizing texts with
  | nil =>
    rw [List.foldlM_nil, List.foldl_nil]
    constructor
    · rintro ⟨⟩
      exact ⟨by rintro _ ⟨⟩, rfl⟩
    · rintro ⟨-, rfl⟩
      rfl
  | cons o rest ih =>
    rw [List.foldlM_cons, List.foldl_cons, List.forall_mem_cons]
    refine bind_ok.trans ?_
    constructor
    · rintro ⟨b, hb, hrest⟩
      obtain ⟨hok, rfl⟩ := (parseOpt_settle tls texts paths o.1 o.2 b).mp hb
      obtain ⟨hall, ha⟩ := (ih _).mp hrest
      exact ⟨⟨hok, hall⟩, ha⟩
    · rintro ⟨⟨hok, hall⟩, ha⟩
      exact ⟨_, (parseOpt_settle tls texts paths o.1 o.2 _).mpr ⟨hok, rfl⟩, (ih _).mpr ⟨hall, ha⟩⟩

def TlsPair (texts : Opt → Option CString) : Prop :=
  (texts .tlsCert).isSome ↔ (texts .tlsKey).isSome

theorem parseArg_settle (tls : Bool) (texts : Opt → Option CString) (seen : List CString)
    (path : CString) (a : Arguments) :
    parseArg tls (settle texts seen) path = .ok a ↔
      (tls = true → TlsPair texts) ∧ seen.length < BookmarkCache.maxBookmarkFiles ∧
        a = settle texts (seen ++ [path]) := by
  have hfull : (if BookmarkCache.maxBookmarkFiles ≤ seen.length then
        .error (ascii "Too many bookmark files (max 10).")
      else .ok (settle texts (seen ++ [path])) : Except Bytes Arguments) = .ok a ↔
      seen.length < BookmarkCache.maxBookmarkFiles ∧ a = settle texts (seen ++ [path]) := by
    split_ifs with h
    · exact iff_of_false (by rintro ⟨⟩) fun h' => absurd h'.1 (Nat.not_lt.mpr h)
    · rw [Except.ok.injEq, eq_comm]
      exact (and_iff_right (Nat.lt_of_not_le h)).symm
  have hpair : TlsPair texts ↔
      ¬ ((texts .tlsCert).isSome && (texts .tlsKey).isNone) = true ∧
        ¬ ((texts .tlsCert).isNone && (texts .tlsKey).isSome) = true := by
    unfold TlsPair
    cases texts .tlsCert <;> cases texts .tlsKey <;> simp
  cases tls with
  | false => exact hfull.trans (and_iff_right (by rintro ⟨⟩)).symm
  | true =>
    rw [forall_prop_of_true rfl, hpair, ← hfull]
    unfold parseArg
    rw [Bool.true_and, Bool.true_and]
    change (if ((texts .tlsCert).isSome && (texts .tlsKey).isNone) = true then _ else
      if ((texts .tlsCert).isNone && (texts .tlsKey).isSome) = true then _ else _) = _ ↔ _
    by_cases hcert : ((texts .tlsCert).isSome && (texts .tlsKey).isNone) = true
    · rw [if_pos hcert]
      exact iff_of_false (by rintro ⟨⟩) fun h => h.1.1 hcert
    · rw [if_neg hcert]
      by_cases hkey : ((texts .tlsCert).isNone && (texts .tlsKey).isSome) = true
      · rw [if_pos hkey]
        exact iff_of_false (by rintro ⟨⟩) fun h => h.1.2 hkey
      · rw [if_neg hkey]
        exact (and_iff_right ⟨hcert, hkey⟩).symm

theorem parseArgs_settle (tls : Bool) (texts : Opt → Option CString) (seen paths : List CString)
    (hseen : seen.length ≤ BookmarkCache.maxBookmarkFiles) (a : Arguments) :
    paths.foldlM (parseArg tls) (settle texts seen) = .ok a ↔
      (paths ≠ [] → tls = true → TlsPair texts) ∧
        (seen ++ paths).length ≤ BookmarkCache.maxBookmarkFiles ∧
        a = settle texts (seen ++ paths) := by
  induction paths generalizing seen with
  | nil =>
    rw [List.foldlM_nil, List.append_nil]
    constructor
    · rintro ⟨⟩
      exact ⟨fun h => absurd rfl h, hseen, rfl⟩
    · rintro ⟨-, -, rfl⟩
      rfl
  | cons path rest ih =>
    have happ : seen ++ path :: rest = (seen ++ [path]) ++ rest := by
      rw [List.append_assoc, List.singleton_append]
    rw [List.foldlM_cons, happ]
    refine bind_ok.trans ?_
    constructor
    · rintro ⟨b, hb, hrest⟩
      obtain ⟨hpair, hlt, rfl⟩ := (parseArg_settle tls texts seen path b).mp hb
      have hle : (seen ++ [path]).length ≤ BookmarkCache.maxBookmarkFiles := by
        rw [List.length_append, List.length_singleton]
        exact hlt
      obtain ⟨-, hlen, ha⟩ := (ih _ hle).mp hrest
      exact ⟨fun _ => hpair, hlen, ha⟩
    · rintro ⟨hpair, hlen, ha⟩
      have hpair' := hpair (List.cons_ne_nil path rest)
      have hle : (seen ++ [path]).length ≤ BookmarkCache.maxBookmarkFiles := by
        rw [List.length_append] at hlen
        omega
      have hlt : seen.length < BookmarkCache.maxBookmarkFiles := by
        rw [List.length_append, List.length_singleton] at hle
        exact hle
      exact ⟨_, (parseArg_settle tls texts seen path _).mpr ⟨hpair', hlt, rfl⟩,
        (ih _ hle).mpr ⟨fun _ => hpair', hlen, ha⟩⟩

theorem unreadable_none {readable : CString → Bool} {files : List CString} :
    unreadable readable files = none ↔ ∀ f ∈ files, readable f = true := by
  unfold unreadable
  rw [List.find?_eq_none]
  simp only [Bool.not_eq_true', Bool.not_eq_false]

theorem checked_ok {readable : CString → Bool} {files : List CString} {message : CString → Bytes}
    {x : Except Bytes Arguments} {b : Arguments} :
    (match unreadable readable files with
      | some f => (.error (message f) : Except Bytes Arguments)
      | none => x) = .ok b ↔ (∀ f ∈ files, readable f = true) ∧ x = .ok b := by
  rw [← unreadable_none]
  cases unreadable readable files with
  | none => exact (and_iff_right rfl).symm
  | some f => exact iff_of_false (by rintro ⟨⟩) (by rintro ⟨⟨⟩, -⟩)

theorem tlsFile_readable {readable : CString → Bool} {tls : Bool} {file : Option CString} :
    (∀ f ∈ (if tls then file.toList else []), readable f = true) ↔
      (tls = true → ∀ f ∈ file, readable f = true) := by
  cases tls with
  | false => exact iff_of_true (by rintro _ ⟨⟩) (by rintro ⟨⟩)
  | true =>
    rw [if_pos rfl, forall_prop_of_true rfl]
    exact forall_congr' fun f => imp_congr_left Option.mem_toList

/-- The end of the line: nothing is changed any more. -/
theorem parseEnd_ok {tls : Bool} {readable : CString → Bool} {a b : Arguments} :
    parseEnd tls readable a = .ok b ↔
      (a.bookmarkFiles ≠ [] ∧ (a.user.isSome → a.pass.isSome) ∧
        (∀ f ∈ a.bookmarkFiles, readable f = true) ∧
        (tls = true → ∀ p, p ∈ a.tlsCert ∨ p ∈ a.tlsKey → readable p = true)) ∧ b = a := by
  unfold parseEnd
  by_cases hfiles : a.bookmarkFiles = []
  · rw [if_pos hfiles]
    exact iff_of_false (by rintro ⟨⟩) fun h => h.1.1 hfiles
  · rw [if_neg hfiles]
    by_cases huser : a.user.isSome ∧ a.pass.isNone
    · rw [if_pos huser]
      refine iff_of_false (by rintro ⟨⟩) fun h => ?_
      have hpass := h.1.2.1 huser.1
      rw [← Option.not_isSome, hpass] at huser
      exact Bool.false_ne_true huser.2
    · rw [if_neg huser]
      have hpass : a.user.isSome → a.pass.isSome := by
        intro h
        by_contra hpass
        exact huser ⟨h, Option.not_isSome_iff_eq_none.mp hpass ▸ rfl⟩
      refine checked_ok.trans ((and_congr_right' checked_ok).trans
        ((and_congr_right' (and_congr_right' checked_ok)).trans ?_))
      rw [tlsFile_readable, tlsFile_readable, Except.ok.injEq, eq_comm]
      constructor
      · rintro ⟨hread, hcert, hkey, rfl⟩
        exact ⟨⟨hfiles, hpass, hread, fun htls p hp => hp.elim (hcert htls p) (hkey htls p)⟩, rfl⟩
      · rintro ⟨⟨-, -, hread, htls⟩, rfl⟩
        exact ⟨hread, fun h p hp => htls h p (Or.inl hp), fun h p hp => htls h p (Or.inr hp), rfl⟩

theorem lastTexts_mem {opts : List (Opt × CString)} {key : Opt} {arg : CString}
    (h : arg ∈ lastTexts opts key) : (key, arg) ∈ opts := by
  unfold lastTexts at h
  induction opts using List.reverseRecOn with
  | nil => cases h
  | append_singleton rest o ih =>
    rw [List.foldl_append, List.foldl_cons, List.foldl_nil] at h
    by_cases hkey : key = o.1
    · subst hkey
      rw [Function.update_self, Option.mem_some_iff] at h
      exact List.mem_append_right rest (List.mem_singleton.mpr (Prod.ext rfl h.symm))
    · rw [Function.update_of_ne hkey] at h
      exact List.mem_append_left [o] (ih h)

theorem tls_of_text {tls : Bool} {opts : List (Opt × CString)}
    (hopts : ∀ o ∈ opts, OptionOk tls o.1 o.2) {p : CString}
    (h : p ∈ lastTexts opts .tlsCert ∨ p ∈ lastTexts opts .tlsKey) : tls = true := by
  rcases h with h | h
  · exact hopts _ (lastTexts_mem h)
  · exact hopts _ (lastTexts_mem h)

/-- The program goes on with a command line exactly if every option is good by itself, the paths
are between one and ten readable files, a user has a password and the certificate a key. Then each
setting is the last text given for it or its default, and the order of anything else is of no
account. -/
theorem command_line (tls : Bool) (readable : CString → Bool) (opts : List (Opt × CString))
    (paths : List CString) (a : Arguments) :
    argpParse tls readable opts paths = .ok a ↔
      Accepted tls readable opts paths ∧ a = settle (lastTexts opts) paths := by
  have hdefaults : defaults = settle (fun _ => none) [] := by decide
  unfold argpParse
  rw [hdefaults, bind_ok]
  constructor
  · rintro ⟨b, hb, h⟩
    obtain ⟨hopts, rfl⟩ := (parseOptions_settle _ _ _ _ _).mp hb
    obtain ⟨c, hc, hend⟩ := bind_ok.mp h
    obtain ⟨hpair, hlen, rfl⟩ := (parseArgs_settle _ _ _ _ (Nat.zero_le _) _).mp hc
    obtain ⟨⟨hpaths, hpass, hread, htls⟩, rfl⟩ := parseEnd_ok.mp hend
    rw [List.nil_append] at hlen hpaths hread
    have hpair' : TlsPair (lastTexts opts) := by
      cases hcert : tls with
      | true => exact hpair hpaths hcert
      | false =>
        have hnone : ∀ p, ¬ (p ∈ lastTexts opts .tlsCert ∨ p ∈ lastTexts opts .tlsKey) :=
          fun p hp => Bool.false_ne_true (hcert ▸ tls_of_text hopts hp)
        have hnocert := Option.eq_none_iff_forall_not_mem.mpr fun p hp => hnone p (Or.inl hp)
        have hnokey := Option.eq_none_iff_forall_not_mem.mpr fun p hp => hnone p (Or.inr hp)
        unfold TlsPair
        rw [hnocert, hnokey]
    refine ⟨⟨hopts, hpaths, hlen, hread, hpass, hpair', fun p hp => ?_⟩, rfl⟩
    exact htls (tls_of_text hopts hp) p hp
  · rintro ⟨h, rfl⟩
    refine ⟨_, (parseOptions_settle _ _ _ _ _).mpr ⟨h.options, rfl⟩, bind_ok.mpr ⟨_,
      (parseArgs_settle _ _ _ _ (Nat.zero_le _) _).mpr ⟨fun _ _ => h.tls_pair, h.few_paths, rfl⟩,
      parseEnd_ok.mpr ⟨⟨h.some_path, h.password, h.paths_readable, fun _ => h.tls_readable⟩, rfl⟩⟩⟩

end LocalMarks.Main

import LocalMarks.Marks2json.Update

/-!
# find-dead

The links of a database are checked concurrently, and `--healthy` writes the bookmarks whose link
is not dead to a database of their own, counted anew.
-/

namespace LocalMarks.Marks2json
open LocalMarks.Lib

/-! ### Checking one URL -/

inductive Health where
  | ok
  | redirect
  | clientError
  | serverError
  | error
  deriving DecidableEq

def Health.name : Health → Str
  | .ok => "ok".toList
  | .redirect => "redirect".toList
  | .clientError => "4xx".toList
  | .serverError => "5xx".toList
  | .error => "error".toList

def categorizeStatus (statusCode : Option ℕ) (error : Option Str) : Health :=
  match error.filter (· ≠ []), statusCode with
  | some _, _ => .error
  | none, none => .error
  | none, some code =>
    if 200 ≤ code ∧ code < 300 then .ok
    else if 300 ≤ code ∧ code < 400 then .redirect
    else if 400 ≤ code ∧ code < 500 then .clientError
    else if 500 ≤ code ∧ code < 600 then .serverError
    else .error

/-- What `requests.head` does. `raised` is an exception of another kind, which is not caught. -/
inductive HeadOutcome where
  | response (statusCode : ℕ)
  | timeout
  | connectionError
  | tooManyRedirects
  | requestException (text : Str)
  | raised
  deriving DecidableEq

structure CheckResult where
  url : Str
  status : Option ℕ
  category : Health
  error : Option Str
  deriving DecidableEq

def checkFailed (url text : Str) : CheckResult := ⟨url, none, .error, some text⟩

/-- One attempt; a connection error gives way to `retry`. -/
def checkAttempt (url : Str) (retry : Option CheckResult) : HeadOutcome → Option CheckResult
  | .response code => some ⟨url, some code, categorizeStatus (some code) none, none⟩
  | .timeout => some (checkFailed url "Timeout".toList)
  | .connectionError => retry
  | .tooManyRedirects => some (checkFailed url "Too many redirects".toList)
  | .requestException text => some (checkFailed url text)
  | .raised => none

/-- Two attempts, so the line after the loop is never reached. -/
def checkUrl (head : ℕ → HeadOutcome) (url : Str) : Option CheckResult :=
  checkAttempt url
    (checkAttempt url (some (checkFailed url "Connection error".toList)) (head 1)) (head 0)

/-! ### Checking all URLs -/

/-- The order in which concurrent checks complete. -/
structure Schedule where
  order : List Str → List Str
  order_perm : ∀ urls, (order urls).Perm urls

structure FindDeadArgs where
  status : Str
  concurrency : ℤ
  head : Str → ℕ → HeadOutcome
  schedule : Schedule

/-- The pool refuses to start without a worker, and an exception of a check is raised again. -/
def checkAllUrls (args : FindDeadArgs) (urls : List Str) : Option (List CheckResult) :=
  if args.concurrency ≤ 0 then none
  else
    ((args.schedule.order urls).mapM fun url => checkUrl (args.head url) url).map fun results =>
      results.insertionSort fun a b => a.url ≤ b.url

def collectUrls (bookMarks : List Category) : List Str :=
  (allBookmarks bookMarks).foldl
    (fun urls bm => if bm.url = [] ∨ bm.url ∈ urls then urls else urls ++ [bm.url]) []

def deadStatuses (lib : PyLib) (status : Str) : List Str :=
  ((status.splitOn ',').filter fun s => strip s ≠ []).map fun s => lib.lower (strip s)

def healthyUrls (dead : List Str) (results : List CheckResult) : List Str :=
  (results.filter fun r => r.category.name ∉ dead).map (·.url)

/-- A category is kept when a bookmark of it is. -/
def healthyCategories (healthy : List Str) (bookMarks : List Category) : List Category :=
  (bookMarks.map fun cat =>
    { cat with bookmarks := cat.bookmarks.filter fun bm => bm.url ∈ healthy }).filter
      fun cat => cat.bookmarks ≠ []

def cmdFindDead (lib : PyLib) (args : FindDeadArgs) (healthy : Bool) (db : Database) : Outcome :=
  let urls := collectUrls db.bookMarks
  if urls = [] then .nothingWritten
  else
    match checkAllUrls args urls with
    | none => .raised
    | some results =>
      if healthy then
        let kept := healthyCategories (healthyUrls (deadStatuses lib args.status) results)
          db.bookMarks
        .written (.of (sortDatabase lib kept) (recalcCounters kept))
      else .nothingWritten

theorem cmdFindDead_agrees {lib : PyLib} {args : FindDeadArgs} {healthy : Bool}
    {db db' : Database} (h : cmdFindDead lib args healthy db = .written db') : db'.Agrees := by
  simp only [cmdFindDead] at h
  split at h
  · cases h
  · split at h
    · cases h
    next results _ =>
      split at h
      · obtain rfl := Outcome.written.inj h
        apply Database.agrees_of
        exact (recalcCounters_countersOf _).perm (sortDatabase_perm lib _).symm
      · cases h

end LocalMarks.Marks2json

import LocalMarks.Http.Transport
import LocalMarks.Server.HandleClient

/-!
# The responses of a connection on the socket

`handle_client` writes its responses one after the other and does not look at what the writes
return. The bytes of all of them are on the socket when the kernel takes each one whole.
-/

namespace LocalMarks.Server
open LocalMarks.Lib
open LocalMarks.Http

/-- The responses of a run and the rounds they were written in. -/
def answers (es : List Event) : List (ℕ × Response) :=
  es.filterMap fun
    | .respond k _ r => some (k, r)
    | _ => none

/-- The bytes of all responses. -/
def sentBytes (es : List Event) : Bytes := (answers es).flatMap fun a => a.2.bytes

theorem answers_append (es fs : List Event) : answers (es ++ fs) = answers es ++ answers fs :=
  List.filterMap_append ..

/-! ### The writes -/

/-- What the response of one round puts on a plain socket, `calls i` being what the kernel does
with the i-th write: `response_send` for a request that was parsed, else `http_send_status`, which
writes the header block and the body apart. -/
def writeResponse (calls : ℕ → List KernelResult) (parsed : Bool) (r : Response) (socket : Bytes) :
    Option Bytes :=
  if parsed then (sendParts (calls 0) r.lines.flatten r.body socket true).map Sent.socket
  else (transportWrite (calls 0) r.lines.flatten socket).bind fun sent =>
    if r.body = [] then some sent.socket
    else (transportWrite (calls 1) r.body sent.socket).map Sent.socket

/-- The socket after the responses of a run. A write that the kernel leaves hanging ends it. -/
def onSocket (kernel : ℕ → ℕ → List KernelResult) : List Event → Bytes → Option Bytes
  | [], socket => some socket
  | .respond k req r :: es, socket =>
    (writeResponse (kernel k) req.isSome r socket).bind (onSocket kernel es)
  | _ :: es, socket => onSocket kernel es socket

/-- The body of a response is the one that was given, or empty when none is sent. -/
theorem responseSendTo_writeResponse {date : HttpDate} {status : ℕ} {statusText : Bytes}
    {mime : Option Bytes} {extra : List Bytes} {body : Bytes} {keepAlive sendBody : Bool}
    {r : Response} (calls : ℕ → List KernelResult) (socket : Bytes)
    (hr : responseSend date status statusText mime extra body keepAlive sendBody = some r) :
    (responseSendTo date status statusText mime extra body keepAlive sendBody (calls 0)
      socket).map Sent.socket = writeResponse calls true r socket := by
  obtain ⟨hparts, hbody⟩ := responseSendTo_eq (calls 0) socket hr
  rw [hparts, writeResponse, if_pos rfl, hbody]
  cases sendBody <;> rfl

/-! ### Whole responses -/

/-- A loop of writes is never interrupted by an error and gets on often enough to end. -/
def TakenInTime (results : List KernelResult) (n : ℕ) : Prop :=
  .error ∉ results ∧ n ≤ results.countP KernelResult.isAccepts

/-- The kernel takes the response whole: one with a body that `response_send` writes in its one
call, any other in as many calls as it likes. -/
def Takes (calls : ℕ → List KernelResult) (parsed : Bool) (r : Response) : Prop :=
  if parsed then
    if r.body = [] then TakenInTime (calls 0) r.lines.flatten.length
    else TakenAtOnce (calls 0) r.bytes.length
  else TakenInTime (calls 0) r.lines.flatten.length ∧ TakenInTime (calls 1) r.body.length

/-- The kernel takes every response of a run whole. -/
def TakesAll (kernel : ℕ → ℕ → List KernelResult) (es : List Event) : Prop :=
  ∀ k req r, .respond k req r ∈ es → Takes (kernel k) req.isSome r

theorem TakenInTime.written {results : List KernelResult} {buf : Bytes}
    (h : TakenInTime results buf.length) (socket : Bytes) :
    ∃ sent, transportWrite results buf socket = some sent ∧ sent.socket = socket ++ buf := by
  obtain ⟨sent, hsent⟩ : ∃ sent, transportWrite results buf socket = some sent :=
    transportWrite_returns h.2
  exact ⟨sent, hsent, transportWrite_delivers h.1 hsent⟩

theorem TakenAtOnce.written {results : List KernelResult} {iov : List Bytes}
    (hne : iov.flatten ≠ []) (h : TakenAtOnce results iov.flatten.length) (socket : Bytes) :
    ∃ sent, transportWritev results iov socket = some sent ∧
      sent.socket = socket ++ iov.flatten := by
  obtain ⟨more, hhead, hle⟩ := h
  cases results with
  | nil => cases hhead
  | cons result results =>
    obtain rfl := Option.some.inj hhead
    have hall : TakenAtOnce (.accepts more :: results) iov.flatten.length := ⟨more, rfl, hle⟩
    exact ⟨_, rfl, (transportWritev_delivers hne rfl).mpr hall⟩

theorem Takes.written {calls : ℕ → List KernelResult} {parsed : Bool} {r : Response}
    (h : Takes calls parsed r) (socket : Bytes) :
    writeResponse calls parsed r socket = some (socket ++ r.bytes) := by
  unfold Takes at h
  rw [writeResponse, Response.bytes]
  cases parsed with
  | true =>
    rw [if_pos rfl] at h
    rw [if_pos rfl, sendParts]
    by_cases hbody : r.body = []
    · rw [if_pos hbody] at h
      obtain ⟨sent, hsent, hsocket⟩ := h.written socket
      rw [if_neg (fun hyes => hyes.2 hbody), hsent, Option.map_some, hsocket, hbody,
        List.append_nil]
    · have hflat : [r.lines.flatten, r.body].flatten = r.bytes := by simp [Response.bytes]
      have hne : [r.lines.flatten, r.body].flatten ≠ [] := by
        rw [hflat]
        exact List.append_ne_nil_of_right_ne_nil _ hbody
      rw [if_neg hbody, ← hflat] at h
      obtain ⟨sent, hsent, hsocket⟩ := TakenAtOnce.written hne h socket
      rw [if_pos ⟨rfl, hbody⟩, hsent, Option.map_some, hsocket, hflat, Response.bytes]
  | false =>
    rw [if_neg Bool.false_ne_true] at h
    obtain ⟨sent, hsent, hsocket⟩ := h.1.written socket
    rw [if_neg Bool.false_ne_true, hsent, Option.bind_some]
    by_cases hbody : r.body = []
    · rw [if_pos hbody, hsocket, hbody, List.append_nil]
    · obtain ⟨sent', hsent', hsocket'⟩ := h.2.written sent.socket
      rw [if_neg hbody, hsent', Option.map_some, hsocket', hsocket, List.append_assoc]

/-- A kernel that takes every response whole puts the bytes of all of them on the socket. -/
theorem TakesAll.onSocket {kernel : ℕ → ℕ → List KernelResult} {es : List Event}
    (h : TakesAll kernel es) (socket : Bytes) :
    onSocket kernel es socket = some (socket ++ sentBytes es) := by
  induction es generalizing socket with
  | nil => exact congrArg some (List.append_nil socket).symm
  | cons e es ih =>
    have hrest : TakesAll kernel es := fun k req r hmem => h k req r (List.mem_cons_of_mem e hmem)
    cases e with
    | respond k req r =>
      have hwritten := (h k req r (List.mem_cons_self ..)).written socket
      rw [Server.onSocket, hwritten, Option.bind_some, ih hrest, List.append_assoc]
      rfl
    | _ => exact ih hrest socket

/-- A kernel that takes up to `n` bytes in each of `n` calls. -/
def generous (n : ℕ) (_k _i : ℕ) : List KernelResult := List.replicate n (.accepts n)

theorem generous_takenInTime {n m : ℕ} (h : m ≤ n) (k i : ℕ) :
    TakenInTime (generous n k i) m := by
  refine ⟨fun hmem => ?_, ?_⟩
  · cases List.eq_of_mem_replicate hmem
  · have hcount : (generous n k i).countP KernelResult.isAccepts = n := by
      rw [generous, List.countP_replicate]
      rfl
    rwa [hcount]

theorem generous_takenAtOnce {n m : ℕ} (hpos : 0 < m) (h : m ≤ n) (k i : ℕ) :
    TakenAtOnce (generous n k i) m := by
  obtain ⟨j, rfl⟩ : ∃ j, n = j + 1 := ⟨n - 1, by omega⟩
  exact ⟨j + 1, rfl, by omega⟩

theorem generous_takesAll {es : List Event} {n : ℕ} (h : (sentBytes es).length ≤ n) :
    TakesAll (generous n) es := by
  intro k req r hmem
  have hanswer : (k, r) ∈ answers es := List.mem_filterMap.mpr ⟨_, hmem, rfl⟩
  have hle : r.bytes.length ≤ n := by
    refine Nat.le_trans ?_ h
    have hpart : r.bytes ∈ (answers es).map fun a => a.2.bytes :=
      List.mem_map.mpr ⟨_, hanswer, rfl⟩
    rw [sentBytes, List.flatMap_def]
    exact (List.sublist_flatten_of_mem hpart).length_le
  have hlen : r.bytes.length = r.lines.flatten.length + r.body.length := List.length_append
  unfold Takes
  split
  · split
    · exact generous_takenInTime (by omega) k 0
    · rename_i hbody
      have hpos := List.length_pos_iff.mpr hbody
      exact generous_takenAtOnce (by omega) hle k 0
  · exact ⟨generous_takenInTime (by omega) k 0, generous_takenInTime (by omega) k 1⟩

end LocalMarks.Server

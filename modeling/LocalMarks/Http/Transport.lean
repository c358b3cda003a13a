import LocalMarks.Http.Response

/-!
# Writing to a plain socket (transport.c, response.c)

The kernel may take only part of what a call of `write` or `writev` offers, or interrupt the
call. `transport_write` goes on until everything is taken; `transport_writev` is one call.
-/

namespace LocalMarks.Http
open LocalMarks.Lib

/-- What one system call does: it takes between one byte and all that it was offered, or it fails
with EINTR or with another error. -/
inductive KernelResult where
  | accepts (more : ℕ)
  | eintr
  | error
  deriving DecidableEq

def taken (more offered : ℕ) : ℕ := min (more + 1) offered

/-- A finished call: the bytes that are on the socket by then, the return value, and the results
that the kernel has not given yet. -/
structure Sent where
  socket : Bytes
  ret : ℤ
  left : List KernelResult
  deriving DecidableEq

/-- The loop of `transport_write`. It is still under way when the results end. -/
def writeLoop (buf : Bytes) : List KernelResult → ℕ → Bytes → Option Sent
  | results, written, socket =>
    if written < buf.length then
      match results with
      | [] => none
      | .accepts more :: results =>
        let n := taken more (buf.length - written)
        writeLoop buf results (written + n) (socket ++ (buf.drop written).take n)
      | .eintr :: results => writeLoop buf results written socket
      | .error :: results => some ⟨socket, written, results⟩
    else some ⟨socket, written, results⟩

/-- `transport_write`. -/
def transportWrite (results : List KernelResult) (buf socket : Bytes) : Option Sent :=
  writeLoop buf results 0 socket

/-- `transport_writev`: what it returns is what the one call returns. -/
def transportWritev (results : List KernelResult) (iov : List Bytes) (socket : Bytes) :
    Option Sent :=
  match results with
  | [] => none
  | .accepts more :: results =>
    let n := taken more iov.flatten.length
    some ⟨socket ++ iov.flatten.take n, n, results⟩
  | .eintr :: results | .error :: results => some ⟨socket, -1, results⟩

/-- The end of `response_send`: the header block `h`, and a body if one is sent. The return values
are not looked at. -/
def sendParts (results : List KernelResult) (h b socket : Bytes) (sendBody : Bool) :
    Option Sent :=
  if sendBody = true ∧ b ≠ [] then transportWritev results [h, b] socket
  else transportWrite results h socket

/-- `response_send` on a plain socket; without a header block it returns at once. -/
def responseSendTo (date : HttpDate) (status : ℕ) (statusText : Bytes) (mime : Option Bytes)
    (extra : List Bytes) (body : Bytes) (keepAlive sendBody : Bool)
    (results : List KernelResult) (socket : Bytes) : Option Sent :=
  match headerCacheBuild date status statusText mime body.length extra keepAlive with
  | none => some ⟨socket, 0, results⟩
  | some lines => sendParts results lines.flatten body socket sendBody

/-! ### The loop -/

theorem taken_pos (more : ℕ) {offered : ℕ} (h : 0 < offered) : 0 < taken more offered := by
  unfold taken
  omega

theorem taken_le (more offered : ℕ) : taken more offered ≤ offered := Nat.min_le_right _ _

theorem drop_take_drop (buf : Bytes) (written n : ℕ) :
    (buf.drop written).take n ++ buf.drop (written + n) = buf.drop written := by
  rw [← List.drop_drop]
  exact List.take_append_drop n _

theorem writeLoop_delivers {buf : Bytes} {results : List KernelResult} {written : ℕ}
    {socket : Bytes} {sent : Sent} (hok : .error ∉ results) (hw : written ≤ buf.length)
    (h : writeLoop buf results written socket = some sent) :
    sent.socket = socket ++ buf.drop written ∧ sent.ret = buf.length := by
  induction results generalizing written socket with
  | nil =>
    unfold writeLoop at h
    split at h
    · cases h
    · cases h
      obtain rfl : written = buf.length := by omega
      rw [List.drop_length, List.append_nil]
      exact ⟨rfl, rfl⟩
  | cons result results ih =>
    have hrest := fun hmem => hok (List.mem_cons_of_mem result hmem)
    unfold writeLoop at h
    split at h
    · cases result with
      | accepts more =>
        have hle := taken_le more (buf.length - written)
        obtain ⟨hsocket, hret⟩ := ih hrest (by omega) h
        refine ⟨?_, hret⟩
        rw [hsocket, List.append_assoc, drop_take_drop]
      | eintr => exact ih hrest hw h
      | error => exact absurd (List.mem_cons_self ..) hok
    · cases h
      obtain rfl : written = buf.length := by omega
      rw [List.drop_length, List.append_nil]
      exact ⟨rfl, rfl⟩

theorem transportWrite_delivers {results : List KernelResult} {buf socket : Bytes} {sent : Sent}
    (hok : .error ∉ results) (h : transportWrite results buf socket = some sent) :
    sent.socket = socket ++ buf := by
  have hall := (writeLoop_delivers hok (Nat.zero_le _) h).1
  rwa [List.drop_zero] at hall

def KernelResult.isAccepts : KernelResult → Bool
  | .accepts _ => true
  | _ => false

theorem writeLoop_returns {buf : Bytes} {results : List KernelResult} {written : ℕ}
    {socket : Bytes} (h : buf.length - written ≤ results.countP KernelResult.isAccepts) :
    ∃ sent, writeLoop buf results written socket = some sent := by
  induction results generalizing written socket with
  | nil =>
    rw [List.countP_nil] at h
    unfold writeLoop
    rw [if_neg (by omega)]
    exact ⟨_, rfl⟩
  | cons result results ih =>
    unfold writeLoop
    split
    · rename_i hlt
      cases result with
      | accepts more =>
        rw [List.countP_cons_of_pos rfl] at h
        have hpos := taken_pos more (Nat.sub_pos_of_lt hlt)
        exact ih (by omega)
      | eintr =>
        rw [List.countP_cons_of_neg Bool.false_ne_true] at h
        exact ih h
      | error => exact ⟨_, rfl⟩
    · exact ⟨_, rfl⟩

theorem transportWrite_returns {results : List KernelResult} {buf socket : Bytes}
    (h : buf.length ≤ results.countP KernelResult.isAccepts) :
    ∃ sent, transportWrite results buf socket = some sent := writeLoop_returns h

/-! ### The one call -/

/-- The kernel takes everything in the first call. -/
def TakenAtOnce (results : List KernelResult) (offered : ℕ) : Prop :=
  ∃ more, results.head? = some (.accepts more) ∧ offered ≤ more + 1

theorem transportWritev_delivers {results : List KernelResult} {iov : List Bytes} {socket : Bytes}
    {sent : Sent} (hne : iov.flatten ≠ []) (h : transportWritev results iov socket = some sent) :
    sent.socket = socket ++ iov.flatten ↔ TakenAtOnce results iov.flatten.length := by
  have hpos := List.length_pos_iff.mpr hne
  unfold transportWritev at h
  split at h
  · cases h
  · rename_i more results
    cases h
    constructor
    · intro hall
      have hlen := congrArg List.length (List.append_cancel_left hall)
      rw [List.length_take] at hlen
      unfold taken at hlen
      exact ⟨more, rfl, by omega⟩
    · rintro ⟨more', hhead, hle⟩
      cases hhead
      rw [taken, Nat.min_eq_right hle, List.take_length]
  all_goals
    cases h
    constructor
    · intro hall
      have hnil := List.append_cancel_left ((List.append_nil socket).trans hall)
      exact absurd hnil.symm hne
    · rintro ⟨more, hhead, _⟩
      cases hhead

/-- Without a hard error, the header block and the body that was to be sent are on the socket
exactly when the kernel took all of both in the first call, or there was no body. -/
theorem sendParts_delivers {results : List KernelResult} {h b socket : Bytes} {sendBody : Bool}
    {sent : Sent} (hok : .error ∉ results)
    (hsent : sendParts results h b socket sendBody = some sent) :
    sent.socket = socket ++ (h ++ if sendBody then b else []) ↔
      (sendBody = true ∧ b ≠ [] → TakenAtOnce results (h ++ b).length) := by
  unfold sendParts at hsent
  split at hsent
  · rename_i hbody
    have hflat : [h, b].flatten = h ++ b := by simp
    have hne : [h, b].flatten ≠ [] := by
      rw [hflat]
      exact List.append_ne_nil_of_right_ne_nil h hbody.2
    have hiff := transportWritev_delivers hne hsent
    rw [hflat] at hiff
    rw [if_pos hbody.1, hiff]
    exact ⟨fun hall _ => hall, fun hall => hall hbody⟩
  · rename_i hbody
    have hnil : (if sendBody = true then b else []) = [] := by
      split
      · by_contra hne
        exact hbody ⟨‹_›, hne⟩
      · rfl
    rw [hnil, List.append_nil]
    exact ⟨fun _ hyes => absurd hyes hbody, fun _ => transportWrite_delivers hok hsent⟩

/-! ### Responses -/

section
variable {date : HttpDate} {status : ℕ} {statusText : Bytes} {mime : Option Bytes}
  {extra : List Bytes} {body : Bytes} {keepAlive sendBody : Bool} {results : List KernelResult}
  {socket : Bytes} {r : Response}

/-- What `response_send` writes for a response, in terms of its parts. -/
theorem responseSendTo_eq (results : List KernelResult) (socket : Bytes)
    (hr : responseSend date status statusText mime extra body keepAlive sendBody = some r) :
    responseSendTo date status statusText mime extra body keepAlive sendBody results socket =
      sendParts results r.lines.flatten body socket sendBody ∧
        r.body = if sendBody = true then body else [] := by
  obtain ⟨lines, hlines, rfl⟩ := Option.map_eq_some_iff.mp hr
  rw [responseSendTo, hlines]
  exact ⟨rfl, rfl⟩

/-- On a plain socket without a hard error, all bytes of a response are delivered exactly when it
has no body to be sent or the kernel takes all of it in the first call. -/
theorem responseSend_delivers {sent : Sent}
    (hr : responseSend date status statusText mime extra body keepAlive sendBody = some r)
    (hok : .error ∉ results)
    (hsent : responseSendTo date status statusText mime extra body keepAlive sendBody results
      socket = some sent) :
    sent.socket = socket ++ r.bytes ↔
      (sendBody = true ∧ body ≠ [] → TakenAtOnce results r.bytes.length) := by
  obtain ⟨hparts, hbody⟩ := responseSendTo_eq results socket hr
  rw [hparts] at hsent
  have hiff := sendParts_delivers hok hsent
  rw [Response.bytes, hbody, hiff]
  refine imp_congr_right fun hyes => ?_
  rw [if_pos hyes.1]

theorem responseSendTo_returns
    (hr : responseSend date status statusText mime extra body keepAlive sendBody = some r)
    (h : r.bytes.length ≤ results.countP KernelResult.isAccepts) : ∃ sent,
      responseSendTo date status statusText mime extra body keepAlive sendBody results socket =
        some sent := by
  obtain ⟨hparts, hbody⟩ := responseSendTo_eq results socket hr
  rw [Response.bytes, List.length_append] at h
  rw [hparts, sendParts]
  split
  · rename_i hyes
    have hpos := List.length_pos_iff.mpr hyes.2
    rw [hbody, if_pos hyes.1] at h
    cases results with
    | nil =>
      rw [List.countP_nil] at h
      omega
    | cons result results => cases result <;> exact ⟨_, rfl⟩
  · exact transportWrite_returns (by omega)

end

/-- A page of two bytes, as `response_send` gets it. -/
def noDate : HttpDate := fieldOf 56 dateSize_pos []

def hiPage : Option Response :=
  responseSend noDate 200 (ascii "OK") none [] (ascii "hi") true true

def sendHi (results : List KernelResult) : Option Sent :=
  responseSendTo noDate 200 (ascii "OK") none [] (ascii "hi") true true results []

theorem hiPage_bytes : ∃ r, hiPage = some r ∧ r.bytes.length = 98 := by
  have hlen : hiPage.map (fun r => r.bytes.length) = some 98 := by decide +kernel
  exact Option.map_eq_some_iff.mp hlen

theorem responseSend_delivers_hi : ∃ r sent, hiPage = some r ∧
    sendHi [.accepts 4095] = some sent ∧ sent.socket = [] ++ r.bytes := by
  obtain ⟨r, hr, hlen⟩ := hiPage_bytes
  obtain ⟨sent, hsent⟩ : ∃ sent, sendHi [.accepts 4095] = some sent :=
    Option.isSome_iff_exists.mp (by decide +kernel)
  refine ⟨r, sent, hr, hsent, (responseSend_delivers hr (by decide) hsent).mpr fun _ => ?_⟩
  exact ⟨4095, rfl, by omega⟩

/-- The kernel takes the first byte only: the rest of the response is never sent. -/
theorem responseSend_short : ¬ ∀ (r : Response) (sent : Sent) (results : List KernelResult),
    hiPage = some r → .error ∉ results → sendHi results = some sent →
      sent.socket = r.bytes := by
  intro hevery
  obtain ⟨r, hr, hlen⟩ := hiPage_bytes
  have hsocket : (sendHi [.accepts 0]).map (fun sent => sent.socket.length) = some 1 := by
    decide +kernel
  obtain ⟨sent, hsent, hone⟩ := Option.map_eq_some_iff.mp hsocket
  have hall := hevery r sent [.accepts 0] hr (by decide) hsent
  rw [hall, hlen] at hone
  exact absurd hone (by decide)

end LocalMarks.Http

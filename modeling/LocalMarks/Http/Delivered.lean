import LocalMarks.Http.Request

/-!
# The requests in what a client has sent

A client marks the end of each request by a blank line. The bytes of a connection are cut behind
every blank line, from the left; the last request may not have ended yet.
-/

namespace LocalMarks.Http
open LocalMarks.Lib

def requestsIn : Bytes → List Bytes
  | [] => []
  | 13 :: 10 :: 13 :: 10 :: rest => blankLine :: requestsIn rest
  | c :: rest =>
    match requestsIn rest with
    | [] => [[c]]
    | r :: rs => (c :: r) :: rs

/-- The requests of which at least one byte has been delivered. -/
def requestsBegun (b : Bytes) : ℕ := (requestsIn b).length

/-- The requests that have been delivered with their blank line. -/
def requestsEnded : Bytes → ℕ
  | [] => 0
  | 13 :: 10 :: 13 :: 10 :: rest => requestsEnded rest + 1
  | _ :: rest => requestsEnded rest

/-- The text does not start with a blank line. -/
def NoBlank (b : Bytes) : Prop := ∀ rest, b ≠ blankLine ++ rest

theorem NoBlank.of_cons {c : Byte} {rest : Bytes} (h : NoBlank (c :: rest)) (r : Bytes) :
    c = 13 → rest = 10 :: 13 :: 10 :: r → False := by
  rintro rfl rfl
  exact h r rfl

/-- The cut goes from the left: a blank line, or a byte that does not begin one. -/
theorem requests_induct {P : Bytes → Prop} (nil : P [])
    (blank : ∀ rest, P rest → P (blankLine ++ rest))
    (cons : ∀ c rest, NoBlank (c :: rest) → P rest → P (c :: rest)) (b : Bytes) : P b := by
  induction b using requestsEnded.induct with
  | case1 => exact nil
  | case2 rest ih => exact blank rest ih
  | case3 c rest h ih =>
    apply cons c rest _ ih
    intro r hr
    obtain ⟨rfl, rfl⟩ := List.cons.inj hr
    exact h r rfl rfl

theorem requestsEnded_blank (rest : Bytes) :
    requestsEnded (blankLine ++ rest) = requestsEnded rest + 1 := rfl

theorem requestsEnded_cons {c : Byte} {rest : Bytes} (h : NoBlank (c :: rest)) :
    requestsEnded (c :: rest) = requestsEnded rest := by
  rw [requestsEnded]
  exact h.of_cons

theorem requestsBegun_blank (rest : Bytes) :
    requestsBegun (blankLine ++ rest) = requestsBegun rest + 1 := rfl

theorem requestsBegun_cons {c : Byte} {rest : Bytes} (h : NoBlank (c :: rest)) :
    requestsBegun (c :: rest) = max 1 (requestsBegun rest) := by
  unfold requestsBegun
  rw [requestsIn]
  · cases requestsIn rest with
    | nil => rfl
    | cons r rs =>
      rw [List.length_cons, List.length_cons]
      omega
  · exact h.of_cons

/-! ### More bytes -/

theorem requestsEnded_le (b : Bytes) : 4 * requestsEnded b ≤ b.length := by
  induction b using requests_induct with
  | nil => exact le_rfl
  | blank rest ih =>
    rw [requestsEnded_blank, List.length_append, show blankLine.length = 4 from rfl]
    omega
  | cons c rest h ih =>
    rw [requestsEnded_cons h, List.length_cons]
    omega

theorem requestsBegun_le (b : Bytes) : 4 * requestsBegun b ≤ b.length + 3 := by
  induction b using requests_induct with
  | nil => exact Nat.zero_le _
  | blank rest ih =>
    rw [requestsBegun_blank, List.length_append, show blankLine.length = 4 from rfl]
    omega
  | cons c rest h ih =>
    rw [requestsBegun_cons h, List.length_cons]
    omega

theorem NoBlank.completed {c : Byte} {rest y r : Bytes} (h : NoBlank (c :: rest))
    (hr : c :: rest ++ y = blankLine ++ r) : rest.length < 3 := by
  by_contra hlong
  have hpre : blankLine <+: c :: rest :=
    List.prefix_of_prefix_length_le ⟨r, hr.symm⟩ (List.prefix_append _ y) (by
      rw [List.length_cons]
      show 4 ≤ _
      omega)
  obtain ⟨s, hs⟩ := hpre
  exact h s hs.symm

theorem NoBlank.append_cases {c : Byte} {rest : Bytes} (h : NoBlank (c :: rest)) (y : Bytes) :
    (rest.length < 3 ∧ ∃ r, c :: rest ++ y = blankLine ++ r) ∨ NoBlank (c :: (rest ++ y)) := by
  by_cases hy : ∃ r, c :: rest ++ y = blankLine ++ r
  · obtain ⟨r, hr⟩ := hy
    exact Or.inl ⟨h.completed hr, r, hr⟩
  · exact Or.inr fun r hr => hy ⟨r, hr⟩

theorem requestsBegun_pos {b : Bytes} (h : b ≠ []) : 0 < requestsBegun b := by
  induction b using requests_induct with
  | nil => exact absurd rfl h
  | blank rest ih =>
    rw [requestsBegun_blank]
    omega
  | cons c rest hno ih =>
    rw [requestsBegun_cons hno]
    omega

theorem requestsEnded_pos {b : Bytes} (h : blankLine <:+: b) : 0 < requestsEnded b := by
  induction b using requests_induct with
  | nil => exact absurd h (by decide)
  | blank rest ih =>
    rw [requestsEnded_blank]
    omega
  | cons c rest hno ih =>
    rw [requestsEnded_cons hno]
    rcases List.infix_cons_iff.mp h with ⟨r, hr⟩ | h
    · exact absurd hr.symm (hno r)
    · exact ih h

theorem requestsBegun_mono (x y : Bytes) : requestsBegun x ≤ requestsBegun (x ++ y) := by
  induction x using requests_induct with
  | nil => exact Nat.zero_le _
  | blank rest ih =>
    rw [List.append_assoc, requestsBegun_blank, requestsBegun_blank]
    omega
  | cons c rest h ih =>
    rcases h.append_cases y with ⟨hshort, r, hr⟩ | hno
    · have hle := requestsBegun_le (c :: rest)
      rw [List.length_cons] at hle
      rw [hr, requestsBegun_blank]
      omega
    · rw [requestsBegun_cons h, List.cons_append, requestsBegun_cons hno]
      omega

theorem requestsBegun_append (x : Bytes) {y : Bytes} (hy : y ≠ []) :
    requestsEnded x + 1 ≤ requestsBegun (x ++ y) := by
  induction x using requests_induct with
  | nil => exact requestsBegun_pos hy
  | blank rest ih =>
    rw [List.append_assoc, requestsBegun_blank, requestsEnded_blank]
    omega
  | cons c rest h ih =>
    rw [requestsEnded_cons h]
    rcases h.append_cases y with ⟨hshort, r, hr⟩ | hno
    · have hle := requestsEnded_le rest
      rw [hr, requestsBegun_blank]
      omega
    · rw [List.cons_append, requestsBegun_cons hno]
      omega

theorem requestsEnded_append (x : Bytes) {y : Bytes} (hy : blankLine <:+: y) :
    requestsEnded x + 1 ≤ requestsEnded (x ++ y) := by
  induction x using requests_induct with
  | nil => exact requestsEnded_pos hy
  | blank rest ih =>
    rw [List.append_assoc, requestsEnded_blank, requestsEnded_blank]
    omega
  | cons c rest h ih =>
    rw [requestsEnded_cons h]
    rcases h.append_cases y with ⟨hshort, r, hr⟩ | hno
    · have hle := requestsEnded_le rest
      rw [hr, requestsEnded_blank]
      omega
    · rw [List.cons_append, requestsEnded_cons hno]
      exact ih

end LocalMarks.Http

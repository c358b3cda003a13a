import LocalMarks.FrontEnd.Text
import LocalMarks.Lib.Reach
import Mathlib.Data.List.Basic

/-!
# Keys in the list of bookmarks (keyboard.js)

The module has an array of the cards, taken from the page by `refreshCards`. panel.js and search.js
draw the list and say so with the event `cards-rendered`, unless there is nothing to show.
-/

namespace LocalMarks.FrontEnd.Keyboard
open LocalMarks.Lib

/-- An element of the page. A list that is drawn again has new ones. -/
structure Card where
  id : ℕ
  url : Str
  deriving DecidableEq

/-- `e.key.toLowerCase()`. -/
inductive Key where
  | j
  | arrowDown
  | k
  | arrowUp
  | h
  | arrowLeft
  | l
  | arrowRight
  | g
  | question
  | slash
  | o
  | p
  | n
  | y
  | enter
  | escape
  | other
  deriving DecidableEq

/-- A key acts on a card, with the list that is displayed then. -/
structure Action where
  key : Key
  card : Card
  displayed : List Card
  deriving DecidableEq

/-- The state of keyboard.js, the cards in `#bookmark-list`, and what the keys did so far. -/
structure State where
  focusedCardIndex : ℤ
  cards : List Card
  lastKey : Option Key
  helpOpen : Bool
  displayed : List Card
  nextId : ℕ
  actions : List Action
  deriving DecidableEq

def newState : State where
  focusedCardIndex := -1
  cards := []
  lastKey := none
  helpOpen := false
  displayed := []
  nextId := 0
  actions := []

def State.refreshCards (s : State) : State :=
  let length : ℤ := s.displayed.length
  let f := if length ≤ s.focusedCardIndex then length - 1 else s.focusedCardIndex
  { s with cards := s.displayed, focusedCardIndex := if f < -1 then -1 else f }

/-- renderCards of panel.js, renderSearch of search.js, and the message of a failed load: only a
list with cards is followed by `cards-rendered`. -/
def State.render (s : State) (urls : List Str) : State :=
  let s := { s with
    displayed := urls.zipIdx.map fun p => ⟨s.nextId + p.2, p.1⟩
    nextId := s.nextId + urls.length }
  if urls = [] then s else s.refreshCards

def State.focusFirstCard (s : State) : State :=
  let s := s.refreshCards
  if s.cards = [] then s else { s with focusedCardIndex := 0 }

def State.focusLastCard (s : State) : State :=
  let s := s.refreshCards
  if s.cards = [] then s else { s with focusedCardIndex := (s.cards.length : ℤ) - 1 }

def State.focusNextCard (s : State) : State :=
  let s := s.refreshCards
  if s.cards = [] then s
  else if s.focusedCardIndex < (s.cards.length : ℤ) - 1 then
    { s with focusedCardIndex := s.focusedCardIndex + 1 }
  else s

def State.blurCards (s : State) : State := { s with focusedCardIndex := -1 }

def State.focusPrevCard (s : State) : State :=
  let s := s.refreshCards
  if s.cards = [] then s
  else if 0 < s.focusedCardIndex then { s with focusedCardIndex := s.focusedCardIndex - 1 }
  else if s.focusedCardIndex = 0 then s.blurCards
  else s

def State.focusedCard (s : State) : Option Card :=
  if 0 ≤ s.focusedCardIndex then s.cards[s.focusedCardIndex.toNat]? else none

def State.act (s : State) (key : Key) : State :=
  s.focusedCard.elim s fun card => { s with actions := s.actions ++ [⟨key, card, s.displayed⟩] }

def State.closeKeyboardHelp (s : State) : State :=
  let s := { s with helpOpen := false }
  if s.focusedCard.isSome then s else s.blurCards

/-- A key that is pressed: where, and what the handlers of the events draw that its own handler
dispatches. -/
structure Press where
  key : Key
  shiftKey : Bool
  /-- `e.key` is a capital letter. -/
  capital : Bool
  /-- On an input or text area. -/
  inField : Bool
  /-- On the list, but not on a star, a tag or a note. -/
  inList : Bool
  browse : Bool
  drawn : Option (List Str)

def State.draw (s : State) (drawn : Option (List Str)) : State := drawn.elim s s.render

def State.handleKey (s : State) (e : Press) : State :=
  match e.key with
  | .j | .arrowDown => s.focusNextCard
  | .k | .arrowUp => s.focusPrevCard
  | .h | .arrowLeft => s.blurCards
  | .l | .arrowRight => if s.focusedCardIndex = -1 then s.focusFirstCard else s
  | .g =>
    if e.shiftKey then s.focusLastCard
    else if s.lastKey = some .g then s.focusFirstCard
    else s
  | .question => { s with helpOpen := true }
  | .o | .n | .enter => s.act e.key
  | .p => if s.focusedCard.isSome then (s.act .p).draw e.drawn else s
  | .y => if s.lastKey = some .y then s.act .y else s
  | .escape => (s.draw e.drawn).blurCards
  | .slash | .other => s

def State.handleGlobalKeys (s : State) (e : Press) : State :=
  if s.helpOpen then
    if e.key = .escape ∨ e.key = .question then s.closeKeyboardHelp else s
  else if e.key = .slash ∧ e.inField = false then s
  else if e.browse = false ∨ e.inField then s
  else { s.handleKey e with lastKey := some e.key }

/-- `handleListKeys`; none when the key goes on to the document. -/
def State.handleListKeys (s : State) (e : Press) : Option State :=
  match e.key with
  | .j => if e.capital then none else some s.focusNextCard
  | .arrowDown => some s.focusNextCard
  | .k => if e.capital then none else some s.focusPrevCard
  | .arrowUp => some s.focusPrevCard
  | .n => if e.capital ∨ s.focusedCard = none then none else some (s.act .n)
  | .enter => if s.focusedCard = none then none else some (s.act .enter)
  | .escape => some s.blurCards
  | _ => none

def State.press (s : State) (e : Press) : State :=
  if e.inList then (s.handleListKeys e).getD (s.handleGlobalKeys e) else s.handleGlobalKeys e

inductive Event where
  | render (urls : List Str)
  | press (e : Press)
  /-- The timer that Enter in the search box sets. -/
  | focusFirstCard
  /-- A click on the help window. -/
  | closeHelp

def exec (s : State) : Event → Option State
  | .render urls => some (s.render urls)
  | .press e => some (s.press e)
  | .focusFirstCard => some s.focusFirstCard
  | .closeHelp => if s.helpOpen then some s.closeKeyboardHelp else none

/-- The key `p` toggles the star of the focused card. -/
def State.Pins (s : State) (e : Press) : Prop :=
  e.key = .p ∧ s.helpOpen = false ∧ e.browse = true ∧ e.inField = false ∧ s.focusedCard.isSome

/-- While a card is focused, no list without cards is drawn; Escape, which takes the focus away
afterwards, may draw one. -/
def KeepsCards (s : State) : Event → Prop
  | .render urls => urls = [] → s.focusedCardIndex = -1
  | .press e => s.Pins e → e.drawn ≠ some []
  | _ => True

instance (s : State) (e : Event) : Decidable (KeepsCards s e) :=
  match e with
  | .render urls => inferInstanceAs (Decidable (urls = [] → s.focusedCardIndex = -1))
  | .press e => inferInstanceAs (Decidable (e.key = .p ∧ s.helpOpen = false ∧ e.browse = true ∧
      e.inField = false ∧ s.focusedCard.isSome = true → e.drawn ≠ some []))
  | .focusFirstCard | .closeHelp => inferInstanceAs (Decidable True)

/-- The focused card is one of the list that is displayed. -/
structure State.InRange (s : State) : Prop where
  lower : -1 ≤ s.focusedCardIndex
  upper : s.focusedCardIndex ≤ (s.displayed.length : ℤ) - 1

/-- Every key that acted on a card did so on a card of the list displayed at that moment. -/
def State.ActedOnDisplayed (s : State) : Prop := ∀ a ∈ s.actions, a.card ∈ a.displayed

/-! ### The array of cards -/

/-- As long as a card is focused, the array is that of the page. -/
structure State.Synced (s : State) : Prop where
  inRange : s.InRange
  cards : 0 ≤ s.focusedCardIndex → s.cards = s.displayed
  acted : s.ActedOnDisplayed

variable {s : State}

def State.kept (s : State) : ℤ × List Card × List Card × List Action :=
  (s.focusedCardIndex, s.cards, s.displayed, s.actions)

theorem State.Synced.keep {t : State} (h : s.Synced) (hsame : t.kept = s.kept) : t.Synced := by
  simp only [State.kept, Prod.mk.injEq] at hsame
  obtain ⟨hindex, hcards, hdisplayed, hactions⟩ := hsame
  constructor
  · constructor
    · rw [hindex]
      exact h.inRange.lower
    · rw [hindex, hdisplayed]
      exact h.inRange.upper
  · rw [hindex, hcards, hdisplayed]
    exact h.cards
  · rw [State.ActedOnDisplayed, hactions]
    exact h.acted

theorem refreshCards_inRange (s : State) : s.refreshCards.InRange := by
  constructor
  all_goals
    dsimp only [State.refreshCards]
    split <;> split at * <;> omega

theorem refreshCards_synced (h : s.ActedOnDisplayed) : s.refreshCards.Synced where
  inRange := refreshCards_inRange s
  cards := fun _ => rfl
  acted := h

theorem blurCards_synced (h : s.ActedOnDisplayed) : s.blurCards.Synced where
  inRange := by
    constructor
    · exact Int.le_refl (-1)
    · show (-1 : ℤ) ≤ (s.displayed.length : ℤ) - 1
      omega
  cards := by
    intro (hf : 0 ≤ (-1 : ℤ))
    omega
  acted := h

theorem render_synced (h : s.Synced) {urls : List Str}
    (hok : urls = [] → s.focusedCardIndex = -1) : (s.render urls).Synced := by
  unfold State.render
  dsimp only
  split
  · rename_i hnil
    have hf := hok hnil
    subst hnil
    refine ⟨⟨h.inRange.lower, ?_⟩, ?_, h.acted⟩
    · show s.focusedCardIndex ≤ ((0 : ℕ) : ℤ) - 1
      omega
    · intro (hfocus : 0 ≤ s.focusedCardIndex)
      omega
  · exact refreshCards_synced h.acted

/-! ### The focus -/

theorem focus_synced (h : s.ActedOnDisplayed) {i : ℤ} (hlower : -1 ≤ i)
    (hupper : i ≤ (s.displayed.length : ℤ) - 1) :
    { s.refreshCards with focusedCardIndex := i }.Synced where
  inRange := ⟨hlower, hupper⟩
  cards := fun _ => rfl
  acted := h

theorem focusFirstCard_synced (h : s.ActedOnDisplayed) : s.focusFirstCard.Synced := by
  unfold State.focusFirstCard
  dsimp only
  split
  · exact refreshCards_synced h
  · rename_i hcards
    have hlen : 0 < s.displayed.length := List.length_pos_of_ne_nil hcards
    exact focus_synced h (by omega) (by omega)

theorem focusLastCard_synced (h : s.ActedOnDisplayed) : s.focusLastCard.Synced := by
  unfold State.focusLastCard
  dsimp only
  split
  · exact refreshCards_synced h
  · rename_i hcards
    have hlen : 0 < s.displayed.length := List.length_pos_of_ne_nil hcards
    exact focus_synced h (i := (s.displayed.length : ℤ) - 1) (by omega) (by omega)

theorem focusNextCard_synced (h : s.ActedOnDisplayed) : s.focusNextCard.Synced := by
  have hrange := refreshCards_inRange s
  unfold State.focusNextCard
  dsimp only
  split
  · exact refreshCards_synced h
  · split
    · rename_i hlast
      have hlower := hrange.lower
      have hupper : s.refreshCards.focusedCardIndex < (s.displayed.length : ℤ) - 1 := hlast
      exact focus_synced h (by omega) (by omega)
    · exact refreshCards_synced h

theorem focusPrevCard_synced (h : s.ActedOnDisplayed) : s.focusPrevCard.Synced := by
  have hrange := refreshCards_inRange s
  unfold State.focusPrevCard
  dsimp only
  split
  · exact refreshCards_synced h
  · split
    · rename_i hpos
      have hupper : s.refreshCards.focusedCardIndex ≤ (s.displayed.length : ℤ) - 1 := hrange.upper
      exact focus_synced h (by omega) (by omega)
    · split
      · exact blurCards_synced h
      · exact refreshCards_synced h

/-! ### Keys -/

theorem focusedCard_mem (h : s.Synced) {card : Card} (hc : s.focusedCard = some card) :
    card ∈ s.displayed := by
  unfold State.focusedCard at hc
  split at hc
  · rename_i hf
    rw [← h.cards hf]
    exact List.mem_of_getElem? hc
  · cases hc

theorem act_synced (h : s.Synced) (key : Key) : (s.act key).Synced := by
  unfold State.act
  cases hc : s.focusedCard with
  | none => exact h
  | some card =>
    refine ⟨⟨h.inRange.lower, h.inRange.upper⟩, h.cards, ?_⟩
    intro a ha
    rcases List.mem_append.mp ha with ha | ha
    · exact h.acted a ha
    · rw [List.mem_singleton.mp ha]
      exact focusedCard_mem h hc

theorem closeKeyboardHelp_synced (h : s.Synced) : s.closeKeyboardHelp.Synced := by
  unfold State.closeKeyboardHelp
  dsimp only
  split
  · exact h.keep rfl
  · exact blurCards_synced h.acted

theorem render_acted (h : s.ActedOnDisplayed) (urls : List Str) :
    (s.render urls).ActedOnDisplayed := by
  unfold State.render
  dsimp only
  split <;> exact h

theorem draw_acted (h : s.ActedOnDisplayed) (drawn : Option (List Str)) :
    (s.draw drawn).ActedOnDisplayed := by
  cases drawn with
  | none => exact h
  | some urls => exact render_acted h urls

theorem handleKey_synced (h : s.Synced) {e : Press}
    (hok : e.key = .p → s.focusedCard.isSome → e.drawn ≠ some []) : (s.handleKey e).Synced := by
  unfold State.handleKey
  cases hkey : e.key with
  | j | arrowDown => exact focusNextCard_synced h.acted
  | k | arrowUp => exact focusPrevCard_synced h.acted
  | h | arrowLeft => exact blurCards_synced h.acted
  | l | arrowRight =>
    dsimp only
    split
    · exact focusFirstCard_synced h.acted
    · exact h
  | g =>
    dsimp only
    split
    · exact focusLastCard_synced h.acted
    · split
      · exact focusFirstCard_synced h.acted
      · exact h
  | question => exact h.keep rfl
  | o | n | enter => exact act_synced h _
  | p =>
    dsimp only
    split
    · rename_i hfocus
      cases hdrawn : e.drawn with
      | none => exact act_synced h .p
      | some urls =>
        refine render_synced (act_synced h .p) fun hnil => ?_
        exact absurd (hdrawn.trans (congrArg some hnil)) (hok hkey hfocus)
    · exact h
  | y =>
    dsimp only
    split
    · exact act_synced h .y
    · exact h
  | escape => exact blurCards_synced (draw_acted h.acted e.drawn)
  | slash | other => exact h

theorem handleGlobalKeys_synced (h : s.Synced) {e : Press} (hok : s.Pins e → e.drawn ≠ some []) :
    (s.handleGlobalKeys e).Synced := by
  unfold State.handleGlobalKeys
  split
  · split
    · exact closeKeyboardHelp_synced h
    · exact h
  · rename_i hhelp
    split
    · exact h
    · split
      · exact h
      · rename_i hplace
        have hkey := handleKey_synced h (e := e) fun hp hfocus => hok
          ⟨hp, by simpa using hhelp, by simpa using fun hb => hplace (Or.inl hb),
            by simpa using fun hf => hplace (Or.inr hf), hfocus⟩
        exact hkey.keep rfl

theorem handleListKeys_synced (h : s.Synced) {e : Press} {s' : State}
    (hs : s.handleListKeys e = some s') : s'.Synced := by
  unfold State.handleListKeys at hs
  cases hkey : e.key with
  | j =>
    rw [hkey] at hs
    obtain ⟨-, hs⟩ := Option.ite_none_left_eq_some.mp hs
    obtain rfl := Option.some.inj hs
    exact focusNextCard_synced h.acted
  | k =>
    rw [hkey] at hs
    obtain ⟨-, hs⟩ := Option.ite_none_left_eq_some.mp hs
    obtain rfl := Option.some.inj hs
    exact focusPrevCard_synced h.acted
  | arrowDown =>
    rw [hkey] at hs
    obtain rfl := Option.some.inj hs
    exact focusNextCard_synced h.acted
  | arrowUp =>
    rw [hkey] at hs
    obtain rfl := Option.some.inj hs
    exact focusPrevCard_synced h.acted
  | n | enter =>
    rw [hkey] at hs
    obtain ⟨-, hs⟩ := Option.ite_none_left_eq_some.mp hs
    obtain rfl := Option.some.inj hs
    exact act_synced h _
  | escape =>
    rw [hkey] at hs
    obtain rfl := Option.some.inj hs
    exact blurCards_synced h.acted
  | h | arrowLeft | l | arrowRight | g | question | slash | o | p | y | other =>
    rw [hkey] at hs
    cases hs

theorem press_synced (h : s.Synced) {e : Press} (hok : s.Pins e → e.drawn ≠ some []) :
    (s.press e).Synced := by
  unfold State.press
  split
  · cases hs : s.handleListKeys e with
    | none => exact handleGlobalKeys_synced h hok
    | some s' => exact handleListKeys_synced h hs
  · exact handleGlobalKeys_synced h hok

theorem exec_synced {s' : State} {e : Event} (h : s.Synced) (hok : KeepsCards s e)
    (hst : exec s e = some s') : s'.Synced := by
  cases e with
  | render urls =>
    obtain rfl := Option.some.inj hst
    exact render_synced h hok
  | press e =>
    obtain rfl := Option.some.inj hst
    exact press_synced h hok
  | focusFirstCard =>
    obtain rfl := Option.some.inj hst
    exact focusFirstCard_synced h.acted
  | closeHelp =>
    obtain ⟨-, hst⟩ := Option.ite_none_right_eq_some.mp hst
    obtain rfl := Option.some.inj hst
    exact closeKeyboardHelp_synced h

theorem newState_synced : newState.Synced where
  inRange := by constructor <;> decide
  cards := by
    intro (hf : 0 ≤ (-1 : ℤ))
    omega
  acted := by rintro a ⟨⟩

theorem run_synced
    (h : Reach (fun s => s = newState) (Guarded (StepOf exec) KeepsCards) s) : s.Synced := by
  induction h with
  | start hstart =>
    obtain rfl := hstart
    exact newState_synced
  | next e _ hstep ih => exact exec_synced ih hstep.1 hstep.2

/-- As long as no list without cards is drawn while a card is focused, the index is in the list
that is displayed, and the keys act on its cards. -/
theorem acted_when_kept
    (h : Reach (fun s => s = newState) (Guarded (StepOf exec) KeepsCards) s) :
    s.InRange ∧ s.ActedOnDisplayed :=
  ⟨(run_synced h).inRange, (run_synced h).acted⟩

theorem press_pins {e : Press} (hp : s.Pins e) : s.press e = { (s.act .p).draw e.drawn with
    lastKey := some .p } := by
  obtain ⟨hkey, hhelp, hbrowse, hfield, hfocus⟩ := hp
  have hlist : s.handleListKeys e = none := by rw [State.handleListKeys, hkey]
  have hglobal : s.handleGlobalKeys e = { s.handleKey e with lastKey := some e.key } := by
    simp [State.handleGlobalKeys, hhelp, hkey, hbrowse, hfield]
  have hhandled : s.handleKey e = (s.act .p).draw e.drawn := by
    rw [State.handleKey, hkey]
    exact if_pos hfocus
  rw [State.press, hlist, Option.getD_none, ite_self, hglobal, hhandled, hkey]

theorem act_focusedCardIndex (key : Key) :
    (s.act key).focusedCardIndex = s.focusedCardIndex := by
  unfold State.act
  cases s.focusedCard <;> rfl

theorem focusedCard_index (h : s.focusedCard.isSome) : 0 ≤ s.focusedCardIndex := by
  by_contra hf
  rw [State.focusedCard, if_neg hf] at h
  cases h

theorem drawn_outOfRange {s' : State} {e : Event} (h : s.Synced) (hst : exec s e = some s')
    (hno : ¬ KeepsCards s e) : ¬ s'.InRange := by
  cases e with
  | render urls =>
    obtain rfl := Option.some.inj hst
    obtain ⟨rfl, hf⟩ := Classical.not_imp.mp hno
    have hlower := h.inRange.lower
    intro hrange
    have hupper : s.focusedCardIndex ≤ ((0 : ℕ) : ℤ) - 1 := hrange.upper
    omega
  | press e =>
    obtain rfl := Option.some.inj hst
    obtain ⟨hp, hdrawn⟩ := Classical.not_imp.mp hno
    have hf := focusedCard_index hp.2.2.2.2
    intro hrange
    rw [press_pins hp, Classical.not_not.mp hdrawn] at hrange
    have hupper : (s.act .p).focusedCardIndex ≤ ((0 : ℕ) : ℤ) - 1 := hrange.upper
    rw [act_focusedCardIndex] at hupper
    omega
  | focusFirstCard => exact absurd trivial hno
  | closeHelp => exact absurd trivial hno

def onPage (key : Key) : Event := .press
  { key, shiftKey := false, capital := false, inField := false, inList := false, browse := true,
    drawn := none }

def rustUrl : Str := "https://rust.org".toList

theorem acted_opened : ∃ s : State, s.actions = [⟨.o, ⟨0, rustUrl⟩, [⟨0, rustUrl⟩]⟩] ∧
    s.InRange ∧ s.ActedOnDisplayed := by
  let es := [.render [rustUrl], onPage .j, onPage .o, onPage .escape, .render [], .render [rustUrl]]
  let last : State := ⟨-1, [⟨1, rustUrl⟩], some .escape, false, [⟨1, rustUrl⟩], 2,
    [⟨.o, ⟨0, rustUrl⟩, [⟨0, rustUrl⟩]⟩]⟩
  have hrun : Reach (fun s => s = newState) (Guarded (StepOf exec) KeepsCards) last :=
    Reach.of_runGuarded es (.start rfl) (by decide +kernel)
  exact ⟨last, rfl, acted_when_kept hrun⟩

theorem opened_detached : ¬ ∀ s, Reach (fun s => s = newState) (StepOf exec) s →
    s.InRange ∧ s.ActedOnDisplayed := by
  intro h
  let es := [.render [rustUrl], onPage .j, .render [], onPage .o]
  let last : State := ⟨0, [⟨0, rustUrl⟩], some .o, false, [], 1, [⟨.o, ⟨0, rustUrl⟩, []⟩]⟩
  have hrun : Reach (fun s => s = newState) (StepOf exec) last :=
    Reach.of_runList es (.start rfl) (by decide +kernel)
  have hacted := (h last hrun).2 _ (List.mem_singleton_self _)
  cases hacted

end LocalMarks.FrontEnd.Keyboard

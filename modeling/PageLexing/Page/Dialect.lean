import PageLexing.Page.Search
import PageLexing.Page.Vocabulary

/-!
# Lexing a page

A page is lexed by its active language, whose tokens are only *candidates*: the bytes of
each are searched for delimiters of that language before it counts.

* If there is none, the candidate is the token.
* A delimiter inside the candidate ends the token before it. The language goes on from a
  settled state, and the delimiter is met again at the start of the next token.
* A delimiter at the start of the candidate changes the language. Script delimiters are
  tokens; a fragment starts at its `<` and is read by the tag language at once, which is
  why reading one token may take a second attempt.
* A delimiter that the window leaves undecided holds the token back.

Tag comments are not searched, so nothing inside them changes the language. A fragment
ends with its closing symbol, which only the tag language can tell.

What was searched is not searched again in the next window: every verdict reached inside
a window is final.

## Main results

* `Dialect.headroom_of_opened` — an attempt that opens a fragment leaves room for fewer
  openings, so attempts come to an end.
-/

namespace PageLexing.Page

/-! ## Completing tokens -/

/-- Whether what the active language found is a tag comment, complete or not. -/
def isTagComment (view : View) : Step Frame → Except Fault Bool
  | .token found (.tag _) => .ok (found.id == Tag.Kind.comment.id)
  | .hold (.tag scan) => do
      let kind ← Scan.pendingKind view scan
      .ok (kind == some Tag.Kind.comment)
  | _ => .ok false

/-- A candidate remembered from the window before has to be found again. -/
def checkCandidate (state : State) (found : Step Frame) : Except Fault Unit :=
  match state.lookahead.bind Lookahead.candidate, found.token? with
  | some remembered, some token =>
      if remembered = token then .ok () else .error (.candidateDiffers remembered token)
  | _, _ => .ok ()

/-- The token of the active language is the token of the page. If it closes a fragment,
the fragment is left. -/
def commit (state : State) (found : Token) (frame : Frame) : Except Fault (Step State) := do
  let token : Token := ⟨globalId frame.language found.id, found.len⟩
  let after := (state.put frame).fresh
  match frame with
  | .tag ⟨.fragmentEnd, _⟩ =>
      let outer ← state.nesting.leave
      .ok (.token token { after with nesting := outer, tag := none })
  | _ => .ok (.token token after)

/-- Ends the token `len` bytes after its start, where a delimiter was found. If the active
language ends a token earlier, that is the token. -/
def cut (view : View) (state : State) (frame : Frame) (len : Nat) :
    Except Fault (Step State) := do
  match ← frame.step { view with room := len, last := false } with
  | .token found after => commit state found after
  | .hold pending =>
      match ← pending.pendingId view with
      | none => .error (.nothingToCut len)
      | some id =>
          .ok (.token ⟨globalId pending.language id, len⟩ (state.put pending.settled).fresh)

/-- What one reading of the pending token leads to. -/
inductive Attempt where
  | step (step : Step State)
  /-- A fragment opens at the start of the token, which is now to be read as a tag. -/
  | opened (state : State)
deriving DecidableEq

/-- Changes the language at the start of the pending token. -/
def change (state : State) : Switch → Except Fault Attempt
  | .enterTag => do
      let inner ← state.nesting.enter .tag
      .ok (.opened { state.fresh with
        nesting := inner, tag := some (Scan.atBoundary Automaton.initial) })
  | .enterScript len => do
      let inner ← state.nesting.enter .script
      .ok (.step (.token ⟨delimiterId, len⟩ { state.fresh with
        nesting := inner, script := some (Scan.atBoundary Automaton.initial) }))
  | .leaveScript len => do
      let outer ← state.nesting.leave
      .ok (.step (.token ⟨delimiterId, len⟩ { state.fresh with
        nesting := outer, script := none }))

end Page

open Page

/-! ## Dialects -/

/-- Which languages a page may hold. -/
inductive Variant where
  /-- Markup with tags and scripts. -/
  | page
  /-- Markup alone: no delimiter is ever recognised. -/
  | markup
deriving DecidableEq

/-- Everything that a lexer of pages has to know in advance. -/
structure Dialect where
  delimiters : Delimiters
  /-- Whether delimiters are recognised. -/
  switching : Bool
deriving DecidableEq

namespace Dialect

/-- The dialect of a variant with given delimiters. -/
def ofVariant (variant : Variant) (delimiters : Delimiters) : Dialect :=
  ⟨delimiters, variant == .page⟩

/-- Pages with the default delimiters. -/
def default : Dialect := ofVariant .page Delimiters.default

variable (dialect : Dialect)

/-- Reads the pending token once, in the language that is active. -/
def attempt (view : View) (state : State) : Except Fault Attempt := do
  let frame ← state.active
  let found ← frame.step view
  checkCandidate state found
  let stop := match found with
    | .token found _ => found.len
    | .hold _ => view.room
  let finding ←
    if dialect.switching then do
      if ← isTagComment view found then .ok .clear
      else find dialect.delimiters frame.language view state stop
    else .ok .clear
  match finding with
  | .clear =>
      match found with
      | .token found after => do
          let step ← commit state found after
          .ok (.step step)
      | .hold pending =>
          .ok (.step (.hold { state.put pending with
            lookahead := none, prescan := view.room, probed := view.room }))
  | .suspend offset probe =>
      .ok (.step (.hold { state with
        lookahead := some ⟨found.token?, offset, probe⟩, prescan := view.room,
        probed := offset }))
  | .switch 0 switch => change state switch
  | .switch (offset + 1) _ => do
      let step ← cut view state frame (offset + 1)
      .ok (.step step)

theorem enter_of_change {state inner : State} {switch : Switch}
    (h : change state switch = .ok (.opened inner)) :
    state.nesting.enter .tag = .ok inner.nesting := by
  cases switch with
  | enterTag =>
      cases he : state.nesting.enter .tag with
      | error fault => simp [change, he, bind, Except.bind] at h
      | ok nesting =>
          simp only [change, he, bind, Except.bind, Except.ok.injEq, Attempt.opened.injEq] at h
          rw [← h]
  | enterScript len =>
      cases he : state.nesting.enter .script <;> simp [change, he, bind, Except.bind] at h
  | leaveScript len =>
      cases he : state.nesting.leave <;> simp [change, he, bind, Except.bind] at h

/-- Only the opening of a fragment asks for another attempt. -/
theorem enter_of_opened {view : View} {state inner : State}
    (h : dialect.attempt view state = .ok (.opened inner)) :
    state.nesting.enter .tag = .ok inner.nesting := by
  unfold attempt at h
  simp only [bind, Except.bind] at h
  repeat' split at h
  all_goals first | exact enter_of_change h | simp at h

/-- The other attempt is nested deeper. -/
theorem headroom_of_opened {view : View} {state inner : State}
    (h : dialect.attempt view state = .ok (.opened inner)) :
    inner.nesting.headroom < state.nesting.headroom :=
  Nesting.headroom_enter (dialect.enter_of_opened h)

/-- Reads the pending token of a page. -/
def step (view : View) (state : State) : Except Fault (Step State) :=
  match _h : dialect.attempt view state with
  | .error fault => .error fault
  | .ok (.step step) => .ok step
  | .ok (.opened inner) => step view inner
termination_by state.nesting.headroom
decreasing_by exact dialect.headroom_of_opened _h

/-- The grammar of the pages of a dialect. -/
def grammar : Grammar State where
  initial := State.initial
  prescan := State.prescan
  step := dialect.step
  name? := vocabulary.name?

end Dialect

end PageLexing

import PageLexing.Delimiter
import PageLexing.Markup
import PageLexing.Scan
import PageLexing.Script
import PageLexing.Tag

/-!
# States of a page

Where the lexing of a page stands: how its languages are nested, where each live language
was left, and what is known of the pending token. The innermost language is the active
one; those around it wait between two of their tokens.

A pending token may be held back for two reasons. Its language needs more bytes, which
that language's own state records. Or the token is complete but a delimiter that starts
inside it is still undecided; then the active language stands where it stood before the
token, and the `Lookahead` records the probe.
-/

namespace PageLexing.Page

/-- A probe that a window left undecided. -/
structure Lookahead where
  /-- The first token of the active language, if the window completed it. -/
  candidate : Option Token
  /-- How far from the start of the pending token the probe starts. -/
  probeAt : Nat
  probe : Probe
deriving DecidableEq

/-- Where the lexing of a page stands. -/
structure State where
  nesting : Nesting
  host : Scan Markup.State
  /-- Present while a fragment is open. -/
  tag : Option (Scan Tag.State)
  /-- Present while a script is open. -/
  script : Option (Scan Script.State)
  /-- Present while a probe is undecided. -/
  lookahead : Option Lookahead
  /-- Bytes of the pending token that were read. -/
  prescan : Nat
  /-- Bytes of the pending token in which delimiters were sought. -/
  probed : Nat
deriving DecidableEq

/-- The scanning state of one of the languages. -/
inductive Frame where
  | host (scan : Scan Markup.State)
  | tag (scan : Scan Tag.State)
  | script (scan : Scan Script.State)
deriving DecidableEq

namespace Frame

/-- The language of a frame. -/
def language : Frame → Language
  | host _ => .host
  | tag _ => .tag
  | script _ => .script

/-- Reads the pending token in the frame's language. -/
def step (view : View) : Frame → Except Fault (Step Frame)
  | host scan => (Scan.step view scan).map (Step.map host)
  | tag scan => (Scan.step view scan).map (Step.map tag)
  | script scan => (Scan.step view scan).map (Step.map script)

/-- The class that the pending token would have if it ended here. -/
def pendingId (view : View) : Frame → Except Fault (Option TokenId)
  | host scan => (Scan.pendingKind view scan).map (Option.map TokenKind.id)
  | tag scan => (Scan.pendingKind view scan).map (Option.map TokenKind.id)
  | script scan => (Scan.pendingKind view scan).map (Option.map TokenKind.id)

/-- Where the next token is read from if the pending one ends here. -/
def settled : Frame → Frame
  | host scan => .host scan.settled
  | tag scan => .tag scan.settled
  | script scan => .script scan.settled

@[simp] theorem language_settled (frame : Frame) : frame.settled.language = frame.language := by
  cases frame <;> rfl

end Frame

namespace State

/-- The state at the start of a page. -/
def initial : State where
  nesting := .host
  host := Scan.atBoundary Automaton.initial
  tag := none
  script := none
  lookahead := none
  prescan := 0
  probed := 0

/-- The frame of the active language. -/
def active (state : State) : Except Fault Frame :=
  match state.nesting.active with
  | .host => .ok (.host state.host)
  | .tag =>
      match state.tag with
      | some scan => .ok (.tag scan)
      | none => .error (.notLive .tag)
  | .script =>
      match state.script with
      | some scan => .ok (.script scan)
      | none => .error (.notLive .script)

/-- Replaces the frame of one language. -/
def put (state : State) : Frame → State
  | .host scan => { state with host := scan }
  | .tag scan => { state with tag := some scan }
  | .script scan => { state with script := some scan }

/-- The state before a new token: nothing of it was read or searched. -/
def fresh (state : State) : State :=
  { state with lookahead := none, prescan := 0, probed := 0 }

theorem language_active {state : State} {frame : Frame} (h : state.active = .ok frame) :
    frame.language = state.nesting.active := by
  unfold active at h
  split at h
  · rename_i hactive
    cases h
    exact hactive.symm
  · rename_i hactive
    split at h <;> cases h
    exact hactive.symm
  · rename_i hactive
    split at h <;> cases h
    exact hactive.symm

end State

end PageLexing.Page

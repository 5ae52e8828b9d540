import PageLexing.Byte
import PageLexing.Fault

/-!
# Resumable grammars

A text is lexed in windows, each a stretch of a buffer that its owner holds. What a lexer
sees is a `View`: the bytes from the start of the pending token on, how many of them lie
inside the window, and whether the text ends where the window does. One step over a view
either completes the pending token or holds it back until the next window.

A `Grammar` is such a step together with its states. A state says how many bytes of the
pending token were read before, its *prescan*; the owner of the buffer has to keep those
bytes for the next window. Nothing in a step knows where in the buffer the view starts.
-/

namespace PageLexing

/-- What a lexer sees of a text. -/
structure View where
  /-- The bytes from the pending token's first on, to the end of the buffer. -/
  text : Bytes
  /-- How many of them the window holds. -/
  room : Nat
  /-- Whether the text ends with the window. -/
  last : Bool

namespace View

/-- The first `n` bytes of the pending token. -/
def word (view : View) (n : Nat) : Except Fault Bytes :=
  let bytes := view.text.take n
  if bytes.length < n then .error (.pastBuffer n view.text.length) else .ok bytes

/-- Bytes that are there can be taken. -/
theorem word_of_le {view : View} {n : Nat} (h : n ≤ view.text.length) :
    view.word n = .ok (view.text.take n) := by
  simp [word, List.length_take, Nat.min_eq_left h]

end View

/-- The answer of one step of a grammar with states `σ`. -/
inductive Step (σ : Type) where
  /-- The pending token is complete; the next one is read from `state`. -/
  | token (found : Token) (state : σ)
  /-- The window does not complete the pending token. -/
  | hold (state : σ)
deriving DecidableEq

namespace Step

variable {σ τ : Type}

/-- The state after the step. -/
def state : Step σ → σ
  | .token _ s => s
  | .hold s => s

/-- The completed token, if there is one. -/
def token? : Step σ → Option Token
  | .token found _ => some found
  | .hold _ => none

/-- The same step with its state seen as a part of a larger one. -/
def map (f : σ → τ) : Step σ → Step τ
  | .token found s => .token found (f s)
  | .hold s => .hold (f s)

end Step

/-- A language, or a mixture of languages, that can be lexed window by window. -/
structure Grammar (σ : Type) where
  /-- The state at the start of a text. -/
  initial : σ
  /-- How many bytes of the pending token were read. -/
  prescan : σ → Nat
  /-- Reads the pending token. -/
  step : View → σ → Except Fault (Step σ)
  /-- Display name of a token class. -/
  name? : TokenId → Option String

end PageLexing

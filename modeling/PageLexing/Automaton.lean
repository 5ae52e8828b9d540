import PageLexing.Byte
import PageLexing.Token

/-!
# Automata that read one language

A language is read byte by byte. A transition says what the byte does to the state and
to the token under construction: the byte may join the token, end it, or stand before
its end and start the next one. A transition may also pass the byte on to another state
unread; an automaton promises that it does so at most once per byte, so that `consume`,
which carries such a byte on, always has an answer and is total.

Automata never see a newline. A newline ends the token before it, is a token of its own,
and leaves the automaton in the `settle`d state.

## Main results

* `consume_of_transition` — unless the byte is passed on, `consume` is `transition`.
* `consume_of_reprocess` — a byte passed on is consumed as the next state does.
-/

namespace PageLexing

/-- What a transition does with its byte, for token kinds `κ`. -/
inductive Action (κ : Type) where
  /-- The byte joins the token, which goes on. -/
  | «continue»
  /-- The byte joins the token and ends it. -/
  | emit (kind : κ)
  /-- The token ends before the byte, which starts the next token. -/
  | emitBefore (kind : κ)
  /-- The byte is shown to the new state instead. -/
  | reprocess
deriving DecidableEq

/-- What finally becomes of a byte. -/
inductive Effect (κ : Type) where
  /-- The byte joins the token, which goes on. -/
  | grow
  /-- The byte joins the token and ends it. -/
  | close (kind : κ)
  /-- The token ends before the byte. -/
  | closeBefore (kind : κ)
deriving DecidableEq

/-- A language as an automaton with states `σ` and token kinds `κ`. -/
class Automaton (σ : Type) (κ : outParam Type) where
  /-- The state at the start of a text. -/
  initial : σ
  transition : σ → UInt8 → σ × Action κ
  /-- The kind of an unfinished token. -/
  inProgress : σ → κ
  /-- The kind of a token that a newline ends. -/
  atLineEnd : σ → κ
  /-- The kind of a token that the end of the text ends. -/
  atEndOfInput : σ → κ
  /-- The state from which the next token is read when one is ended from outside. -/
  settle : σ → σ
  /-- The final kind, once the bytes of the token are known. -/
  refine : κ → Bytes → κ
  /-- A byte is passed on at most once. -/
  reprocess_once : ∀ (s t : σ) (b : UInt8), transition s b = (t, .reprocess) →
    (transition t b).2 ≠ .reprocess

/-- The action of a transition that has the effect at once. -/
def Effect.toAction {κ : Type} : Effect κ → Action κ
  | .grow => .continue
  | .close kind => .emit kind
  | .closeBefore kind => .emitBefore kind

namespace Automaton

variable {σ κ : Type} [Automaton σ κ]

/-- The effect of an action, if it reads its byte. -/
def effect? : Action κ → Option (Effect κ)
  | .continue => some .grow
  | .emit kind => some (.close kind)
  | .emitBefore kind => some (.closeBefore kind)
  | .reprocess => none

theorem effect?_toAction (effect : Effect κ) : effect? effect.toAction = some effect := by
  cases effect <;> rfl

theorem effect?_isSome {action : Action κ} (h : action ≠ .reprocess) :
    (effect? action).isSome = true := by
  cases action <;> simp_all [effect?]

/-- Reads one byte: the state after it and what became of the byte. -/
def consume (s : σ) (b : UInt8) : σ × Effect κ :=
  match h : transition s b with
  | (t, .continue) => (t, .grow)
  | (t, .emit kind) => (t, .close kind)
  | (t, .emitBefore kind) => (t, .closeBefore kind)
  | (t, .reprocess) =>
      ((transition t b).1,
        (effect? (transition t b).2).get (effect?_isSome (reprocess_once s t b h)))

theorem consume_of_transition {s t : σ} {b : UInt8} {effect : Effect κ}
    (h : transition s b = (t, effect.toAction)) : consume s b = (t, effect) := by
  unfold consume
  cases effect <;> split <;> simp_all [Effect.toAction]

theorem consume_of_reprocess {s t u : σ} {b : UInt8} {effect : Effect κ}
    (h : transition s b = (t, .reprocess)) (h' : transition t b = (u, effect.toAction)) :
    consume s b = (u, effect) := by
  unfold consume
  split <;> simp_all [effect?_toAction]

end Automaton

end PageLexing

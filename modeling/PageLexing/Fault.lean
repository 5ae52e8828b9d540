import PageLexing.Language
import PageLexing.Token

/-!
# Broken promises

A lexer is promised a window that continues the one before it and a state that a lexer
of the same dialect stored. No text, however malformed, breaks these promises: bad text
becomes error tokens. A `Fault` is the answer to a caller that breaks them, by handing in
a state that no run produces, a window that does not hold the bytes the state relies on,
or a number outside the range a table was built for.
-/

namespace PageLexing

/-- Why an operation could not be carried out. -/
inductive Fault where
  /-- No nesting puts `inner` inside `nesting`. -/
  | noNesting (inner : Language) (nesting : Nesting)
  /-- The outermost language was to be closed. -/
  | hostLeft
  /-- The nesting names a language for which there is no state. -/
  | notLive (language : Language)
  /-- A delimiter was found, but no bytes before it are left to end a token. -/
  | nothingToCut (offset : Nat)
  /-- A language ended a token before its first byte. -/
  | emptyToken
  /-- The token remembered across a window boundary is not the one found again. -/
  | candidateDiffers (remembered found : Token)
  /-- A probe claims to have matched more bytes of a tag prefix than it has. -/
  | outsidePrefix (length index : Nat)
  /-- An unfinished token reaches past the end of the buffer. -/
  | pastBuffer (stop size : Nat)
  /-- The unfinished token would start before the buffer. -/
  | beforeBuffer
  /-- The unfinished token of a restored state is longer than what was read. -/
  | underflow
  /-- More tag prefixes than a probe can keep apart. -/
  | tooManyPrefixes
  /-- Windows of no bytes never reach the end of a text. -/
  | zeroChunk
  /-- A handle that the vocabulary did not issue. -/
  | unregistered (index shift : Nat)
  /-- A token number that the vocabulary of `language` does not have. -/
  | outsideVocabulary (id : TokenId) (language : String)
deriving DecidableEq

/-- Outcomes can be compared. -/
instance decidableEqExcept {ε α : Type} [DecidableEq ε] [DecidableEq α] :
    DecidableEq (Except ε α)
  | .ok a, .ok b =>
      if h : a = b then .isTrue (congrArg Except.ok h)
      else .isFalse (fun heq => h (by cases heq; rfl))
  | .error a, .error b =>
      if h : a = b then .isTrue (congrArg Except.error h)
      else .isFalse (fun heq => h (by cases heq; rfl))
  | .ok _, .error _ | .error _, .ok _ => .isFalse nofun

/-- What was computed in two steps. -/
theorem exists_of_bind {ε α β : Type} {first : Except ε α} {next : α → Except ε β} {result : β}
    (h : first >>= next = .ok result) : ∃ value, first = .ok value ∧ next value = .ok result := by
  cases first with
  | error fault => cases h
  | ok value => exact ⟨value, rfl, h⟩

namespace Fault

private def tokenText (token : Token) : String :=
  "Token \x7b id: TokenId(" ++ toString token.id ++ "), len: " ++ toString token.len ++ " \x7d"

private def unreachable (text : String) : String :=
  "internal error: entered unreachable code: " ++ text

/-- The text under which a fault is reported. -/
def message : Fault → String
  | noNesting inner nesting =>
      unreachable ("no nest mode for " ++ inner.name ++ " inside " ++ nesting.name)
  | hostLeft => unreachable "the host language cannot be left"
  | notLive language => unreachable (language.name ++ " lexer is active but not live")
  | nothingToCut offset =>
      unreachable ("cut at " ++ toString offset ++ " left no pending token")
  | emptyToken => "automaton emitted an empty token"
  | candidateDiffers remembered found =>
      "assertion `left == right` failed: resumed candidate differs\n  left: "
        ++ tokenText remembered ++ "\n right: " ++ tokenText found
  | outsidePrefix length index =>
      "index out of bounds: the len is " ++ toString length ++ " but the index is "
        ++ toString index
  | pastBuffer stop size =>
      "range end index " ++ toString stop ++ " out of range for slice of length "
        ++ toString size
  | beforeBuffer => "prescan reaches before the buffer"
  | underflow => "attempt to subtract with overflow"
  | tooManyPrefixes => "at most 32 tag prefixes are supported"
  | zeroChunk => "chunk size must be positive"
  | unregistered index shift =>
      "syntax handle SyntaxInfo \x7b index: " ++ toString index ++ ", shift: "
        ++ toString shift ++ " \x7d is not registered"
  | outsideVocabulary id language =>
      "token TokenId(" ++ toString id ++ ") is outside the range of syntax `" ++ language
        ++ "`"

/-- Turns the offsets of a fault found in the text from `start` on into offsets in the
whole buffer, which has `size` bytes. -/
def relocate (start size : Nat) : Fault → Fault
  | nothingToCut offset => nothingToCut (start + offset)
  | pastBuffer stop _ => pastBuffer (start + stop) size
  | fault => fault

end Fault

end PageLexing

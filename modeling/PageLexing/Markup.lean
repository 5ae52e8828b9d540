import PageLexing.Automaton

/-!
# Markup

The host language: text with elements, attributes, comments, declarations and character
references. Text keeps its spaces; blanks inside an element are tokens of their own.
Nothing is said about which elements may stand where, and none has to be closed.

Malformed markup is never refused. A `<` that opens nothing, a `/` that does not close
its element and anything unexpected inside an element become error tokens, which end
before the next blank or `>`.

## Main results

* `transition_reads` — every byte is read where it is met.
-/

namespace PageLexing.Markup

/-! ## Token kinds -/

/-- The token kinds of markup. -/
inductive Kind where
  | text
  | whitespace
  | symbol
  | tagName
  | attr
  | value
  | comment
  | declaration
  | charRef
  | error
deriving DecidableEq

namespace Kind

def all : List Kind :=
  [text, whitespace, symbol, tagName, attr, value, comment, declaration, charRef,
    error]

def id : Kind → TokenId
  | text => 2
  | whitespace => 3
  | symbol => 4
  | tagName => 5
  | attr => 6
  | value => 7
  | comment => 8
  | declaration => 9
  | charRef => 10
  | error => 11

def name : Kind → String
  | text => "text"
  | whitespace => "whitespace"
  | symbol => "symbol"
  | tagName => "tag-name"
  | attr => "attribute"
  | value => "value"
  | comment => "comment"
  | declaration => "declaration"
  | charRef => "char-ref"
  | error => "error"

theorem id_injective {a b : Kind} (h : a.id = b.id) : a = b := by
  cases a <;> cases b <;> first | rfl | simp [id] at h

end Kind

instance : TokenKind Kind where
  languageName := "markup"
  all := Kind.all
  id := Kind.id
  name := Kind.name

/-! ## States -/

/-- What a run of blanks inside an element stands after. -/
inductive Gap where
  | tag
  | attr
  | equals
deriving DecidableEq

/-- Where the reading of markup stands. -/
inductive State where
  /-- Between two tokens of content. -/
  | content
  | text
  | afterLess
  | afterBang
  | afterBangDash
  | comment
  | commentDash
  | commentDashes
  | declaration
  | charRef
  | tagNameStart
  | tagName
  /-- Inside an element, between two tokens. -/
  | inTag
  | blank (gap : Gap)
  | attributeName
  | afterAttribute
  | afterEquals
  | quoted (quote : UInt8)
  | unquoted
  | afterSlash
  | errorInTag
deriving DecidableEq

/-- The state after a run of blanks. -/
def Gap.resume : Gap → State
  | tag => .inTag
  | attr => .afterAttribute
  | equals => .afterEquals

/-! ## The automaton -/

open Byte

/-- What a byte does in each state. -/
def transition : State → UInt8 → State × Action Kind
  | .content, b =>
      if b = less then (.afterLess, .continue)
      else if b = ampersand then (.charRef, .continue)
      else (.text, .continue)
  | .text, b =>
      if b = less ∨ b = ampersand then (.content, .emitBefore .text)
      else (.text, .continue)
  | .afterLess, b =>
      if b = slash then (.tagNameStart, .emit .symbol)
      else if b = bang then (.afterBang, .continue)
      else if isNameStart b then (.tagNameStart, .emitBefore .symbol)
      else (.content, .emitBefore .error)
  | .afterBang, b =>
      if b = dash then (.afterBangDash, .continue)
      else if isLetter b then (.declaration, .continue)
      else (.content, .emitBefore .error)
  | .afterBangDash, b =>
      if b = dash then (.comment, .continue)
      else (.content, .emitBefore .error)
  | .comment, b =>
      if b = dash then (.commentDash, .continue)
      else (.comment, .continue)
  | .commentDash, b =>
      if b = dash then (.commentDashes, .continue)
      else (.comment, .continue)
  | .commentDashes, b =>
      if b = greater then (.content, .emit .comment)
      else if b = dash then (.commentDashes, .continue)
      else (.comment, .continue)
  | .declaration, b =>
      if b = greater then (.content, .emit .declaration)
      else (.declaration, .continue)
  | .charRef, b =>
      if b = semicolon then (.content, .emit .charRef)
      else if b = hash ∨ isLetter b ∨ isDigit b then (.charRef, .continue)
      else (.content, .emitBefore .text)
  | .tagNameStart, b =>
      if isNameByte b then (.tagName, .continue)
      else if b = greater then (.content, .emit .symbol)
      else (.errorInTag, .continue)
  | .tagName, b =>
      if isNameByte b then (.tagName, .continue)
      else (.inTag, .emitBefore .tagName)
  | .inTag, b =>
      if isBlank b then (.blank .tag, .continue)
      else if isNameStart b then (.attributeName, .continue)
      else if b = greater then (.content, .emit .symbol)
      else if b = slash then (.afterSlash, .continue)
      else (.errorInTag, .continue)
  | .blank gap, b =>
      if isBlank b then (.blank gap, .continue)
      else (gap.resume, .emitBefore .whitespace)
  | .attributeName, b =>
      if isNameByte b then (.attributeName, .continue)
      else (.afterAttribute, .emitBefore .attr)
  | .afterAttribute, b =>
      if isBlank b then (.blank .attr, .continue)
      else if b = equals then (.afterEquals, .emit .symbol)
      else if b = greater then (.content, .emit .symbol)
      else if b = slash then (.afterSlash, .continue)
      else if isNameStart b then (.attributeName, .continue)
      else (.errorInTag, .continue)
  | .afterEquals, b =>
      if isBlank b then (.blank .equals, .continue)
      else if b = quote ∨ b = apostrophe then (.quoted b, .continue)
      else if b = greater then (.content, .emit .symbol)
      else (.unquoted, .continue)
  | .quoted q, b =>
      if b = q then (.inTag, .emit .value)
      else (.quoted q, .continue)
  | .unquoted, b =>
      if b = greater ∨ isBlank b then (.inTag, .emitBefore .value)
      else (.unquoted, .continue)
  | .afterSlash, b =>
      if b = greater then (.content, .emit .symbol)
      else (.inTag, .emitBefore .error)
  | .errorInTag, b =>
      if b = greater ∨ isBlank b then (.inTag, .emitBefore .error)
      else (.errorInTag, .continue)

/-- The kind of an unfinished token. -/
def inProgress : State → Kind
  | .content | .text | .charRef => .text
  | .afterLess | .afterSlash | .tagNameStart => .symbol
  | .afterBang | .afterBangDash | .errorInTag => .error
  | .comment | .commentDash | .commentDashes => .comment
  | .declaration => .declaration
  | .tagName => .tagName
  | .inTag | .blank _ => .whitespace
  | .attributeName | .afterAttribute => .attr
  | .afterEquals | .quoted _ | .unquoted => .value

/-- The kind of a token that the end of the text cuts short: symbols and quoted values
that were still incomplete are errors. -/
def atEndOfInput : State → Kind
  | .afterLess | .afterSlash | .quoted _ => .error
  | state => inProgress state

/-- The state for the next token when one is ended from outside: comments, declarations
and quoted values go on, all else falls back to the surrounding content or element. -/
def settle : State → State
  | .text | .charRef | .afterLess | .afterBang | .afterBangDash => .content
  | .commentDash | .commentDashes => .comment
  | .tagName | .tagNameStart | .unquoted | .afterSlash | .errorInTag => .inTag
  | .attributeName => .afterAttribute
  | .blank gap => gap.resume
  | state => state

/-- No byte is ever passed on. -/
theorem transition_reads (s : State) (b : UInt8) : (transition s b).2 ≠ .reprocess := by
  fun_cases transition s b <;> simp

instance : Automaton State Kind where
  initial := .content
  transition := transition
  inProgress := inProgress
  atLineEnd := inProgress
  atEndOfInput := atEndOfInput
  settle := settle
  refine kind _ := kind
  reprocess_once s _ b h := absurd (congrArg Prod.snd h) (transition_reads s b)

end PageLexing.Markup

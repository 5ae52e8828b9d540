import PageLexing.Automaton

/-!
# Script

The embedded language of expressions and statements. Only lexical classes matter here:
words, numbers, string and character literals, comments, operators and separators. A
word is told apart from a keyword once it is complete.

A literal ends at its first unescaped quote and never crosses the end of a line; a block
comment does.

## Main results

* `isKeyword_iff` — keywords are exactly the words of the table.
* `transition_reads` — every byte is read where it is met.
-/

namespace PageLexing.Script

/-! ## Token kinds -/

/-- The token kinds of script. -/
inductive Kind where
  | whitespace
  | identifier
  | keyword
  | number
  | string
  | char
  | comment
  | operator
  | separator
  | error
deriving DecidableEq

namespace Kind

def all : List Kind :=
  [whitespace, identifier, keyword, number, string, char, comment, operator, separator,
    error]

def id : Kind → TokenId
  | whitespace => 2
  | identifier => 3
  | keyword => 4
  | number => 5
  | string => 6
  | char => 7
  | comment => 8
  | operator => 9
  | separator => 10
  | error => 11

def name : Kind → String
  | whitespace => "whitespace"
  | identifier => "identifier"
  | keyword => "keyword"
  | number => "number"
  | string => "string"
  | char => "char"
  | comment => "comment"
  | operator => "operator"
  | separator => "separator"
  | error => "error"

theorem id_injective {a b : Kind} (h : a.id = b.id) : a = b := by
  cases a <;> cases b <;> first | rfl | simp [id] at h

end Kind

instance : TokenKind Kind where
  languageName := "script"
  all := Kind.all
  id := Kind.id
  name := Kind.name

/-! ## Keywords -/

/-- The reserved words. -/
def keywords : List String :=
  ["if", "else", "for", "while", "do", "return", "break", "continue", "new", "null",
    "true", "false", "int", "boolean", "String", "var", "final", "this", "instanceof",
    "try", "catch", "throw"]

/-- The reserved words as they stand in a text. -/
def keywordBytes : List Bytes := keywords.map Bytes.ofString

/-- Whether `word` is reserved. -/
def isKeyword (word : Bytes) : Bool := keywordBytes.contains word

theorem isKeyword_iff (word : Bytes) :
    isKeyword word = true ↔ ∃ keyword ∈ keywords, Bytes.ofString keyword = word := by
  simp [isKeyword, keywordBytes]

/-! ## States -/

/-- Where the reading of a script stands. -/
inductive State where
  /-- Between two tokens. -/
  | start
  | blank
  | word
  | number
  | quoted (quote : UInt8)
  | escaped (quote : UInt8)
  | afterSlash
  | lineComment
  | blockComment
  | blockCommentStar
  | operator (first : UInt8)
deriving DecidableEq

/-! ## The automaton -/

open Byte

/-- What may open a word. -/
def isWordStart (b : UInt8) : Bool := isLetter b || b == underscore || b == dollar || isWide b

/-- What may continue a word. -/
def isWordByte (b : UInt8) : Bool := isWordStart b || isDigit b

/-- Bytes that open an operator. The slash, which may open a comment, is read apart. -/
def operatorBytes : Bytes :=
  [plus, dash, star, percent, equals, less, greater, bang, ampersand, bar, caret, tilde,
    question, colon]

/-- Bytes that form an operator when they stand twice. -/
def doubledOperators : Bytes := [plus, dash, ampersand, bar, less, greater, equals, colon]

/-- Bytes that are a token each: brackets, `;`, `,`, `.` and `@`. -/
def separatorBytes : Bytes :=
  [0x28, 0x29, 0x7b, 0x7d, 0x5b, 0x5d, semicolon, 0x2c, dot, commercialAt]

/-- The kind of a literal, by its quote. -/
def quotedKind (q : UInt8) : Kind := if q = apostrophe then .char else .string

/-- What a byte does in each state. -/
def transition : State → UInt8 → State × Action Kind
  | .start, b =>
      if isBlank b then (.blank, .continue)
      else if isWordStart b then (.word, .continue)
      else if isDigit b then (.number, .continue)
      else if b = quote ∨ b = apostrophe then (.quoted b, .continue)
      else if b = slash then (.afterSlash, .continue)
      else if operatorBytes.contains b then (.operator b, .continue)
      else if separatorBytes.contains b then (.start, .emit .separator)
      else (.start, .emit .error)
  | .blank, b =>
      if isBlank b then (.blank, .continue)
      else (.start, .emitBefore .whitespace)
  | .word, b =>
      if isWordByte b then (.word, .continue)
      else (.start, .emitBefore .identifier)
  | .number, b =>
      if isLetter b ∨ isDigit b ∨ b = dot ∨ b = underscore then (.number, .continue)
      else (.start, .emitBefore .number)
  | .quoted q, b =>
      if b = backslash then (.escaped q, .continue)
      else if b = q then (.start, .emit (quotedKind q))
      else (.quoted q, .continue)
  | .escaped q, _ => (.quoted q, .continue)
  | .afterSlash, b =>
      if b = slash then (.lineComment, .continue)
      else if b = star then (.blockComment, .continue)
      else if b = equals then (.start, .emit .operator)
      else (.start, .emitBefore .operator)
  | .lineComment, _ => (.lineComment, .continue)
  | .blockComment, b =>
      if b = star then (.blockCommentStar, .continue)
      else (.blockComment, .continue)
  | .blockCommentStar, b =>
      if b = slash then (.start, .emit .comment)
      else if b = star then (.blockCommentStar, .continue)
      else (.blockComment, .continue)
  | .operator first, b =>
      if b = equals then (.start, .emit .operator)
      else if b = greater ∧ first = dash then (.start, .emit .operator)
      else if b = first ∧ doubledOperators.contains b then (.start, .emit .operator)
      else (.start, .emitBefore .operator)

/-- The kind of an unfinished token. -/
def inProgress : State → Kind
  | .start => .error
  | .blank => .whitespace
  | .word => .identifier
  | .number => .number
  | .quoted q | .escaped q => quotedKind q
  | .afterSlash | .operator _ => .operator
  | .lineComment | .blockComment | .blockCommentStar => .comment

/-- The kind of a token cut short by the end of its line or of the text: an unclosed
literal is an error. -/
def atLineEnd : State → Kind
  | .quoted _ | .escaped _ => .error
  | state => inProgress state

/-- The state for the next token when one is ended from outside: only block comments go
on. -/
def settle : State → State
  | .blockComment | .blockCommentStar => .blockComment
  | _ => .start

/-- A complete word is a keyword if the table has it. -/
def refine (kind : Kind) (text : Bytes) : Kind :=
  if kind = .identifier ∧ isKeyword text then .keyword else kind

/-- No byte is ever passed on. -/
theorem transition_reads (s : State) (b : UInt8) : (transition s b).2 ≠ .reprocess := by
  fun_cases transition s b <;> simp

instance : Automaton State Kind where
  initial := .start
  transition := transition
  inProgress := inProgress
  atLineEnd := atLineEnd
  atEndOfInput := atLineEnd
  settle := settle
  refine := refine
  reprocess_once s _ b h := absurd (congrArg Prod.snd h) (transition_reads s b)

end PageLexing.Script

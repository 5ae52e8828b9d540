import PageLexing.Automaton

/-!
# Tags

The language of directives, tag comments and prefixed elements: `<%@ page a="b" %>`,
`<%-- note --%>`, `<tpl:include file="x"/>`, `</tpl:each>`.

A *fragment* starts at its `<` and ends with its closing symbol, which leaves the
automaton in `fragmentEnd`; whoever opened the fragment then takes over again. Script
openers are not recognised here: after `<%` only `@` and `--` are meaningful.

Inside a quoted value a backslash escapes the quote or another backslash. Before any
other byte it stands for itself, so that byte is passed on to the unescaped state.

## Main results

* `eq_of_transition_reprocess` — only a byte behind a backslash is passed on, and only into the
  value.
-/

namespace PageLexing.Tag

/-! ## Token kinds -/

/-- The token kinds of tags. Script delimiters are counted among them, although no state
of the automaton ever ends one. -/
inductive Kind where
  | symbol
  | scriptDelimiter
  | tagName
  | attr
  | value
  | whitespace
  | comment
  | error
deriving DecidableEq

namespace Kind

def all : List Kind :=
  [symbol, scriptDelimiter, tagName, attr, value, whitespace, comment, error]

def id : Kind → TokenId
  | symbol => 2
  | scriptDelimiter => 3
  | tagName => 4
  | attr => 5
  | value => 6
  | whitespace => 7
  | comment => 8
  | error => 9

def name : Kind → String
  | symbol => "symbol"
  | scriptDelimiter => "script-delimiter"
  | tagName => "tag-name"
  | attr => "attribute"
  | value => "value"
  | whitespace => "whitespace"
  | comment => "comment"
  | error => "error"

theorem id_injective {a b : Kind} (h : a.id = b.id) : a = b := by
  cases a <;> cases b <;> first | rfl | simp [id] at h

end Kind

instance : TokenKind Kind where
  languageName := "tag"
  all := Kind.all
  id := Kind.id
  name := Kind.name

/-! ## States -/

/-- What a run of blanks stands after. -/
inductive Gap where
  | outside
  | directive
  | tag
  | attr
  | equals
deriving DecidableEq

/-- Where the reading of a fragment stands. -/
inductive State where
  /-- Before the fragment. -/
  | outside
  | afterLess
  | afterPercent
  | afterPercentDash
  | directiveStart
  | tagNameStart
  | tagName
  /-- Where an attribute or the end of the fragment is expected. -/
  | afterTagName
  | attributeName
  | afterAttribute
  | afterEquals
  | quoted (quote : UInt8)
  | escaped (quote : UInt8)
  | blank (gap : Gap)
  | closingSlash
  | closingPercent
  | comment
  | commentDash
  | commentDashes
  | commentPercent
  /-- The fragment is closed. -/
  | fragmentEnd
  | errorOutside
  | errorInTag
deriving DecidableEq

/-- The state after a run of blanks. -/
def Gap.resume : Gap → State
  | outside => .outside
  | directive => .directiveStart
  | tag => .afterTagName
  | attr => .afterAttribute
  | equals => .afterEquals

/-! ## The automaton -/

open Byte

/-- What a byte does before a fragment. -/
def beforeFragment (b : UInt8) : State × Action Kind :=
  if b = less then (.afterLess, .continue)
  else if isBlank b then (.blank .outside, .continue)
  else (.errorOutside, .continue)

/-- What a byte does where an attribute or the end of the fragment is expected; blanks
found there belong to `gap`. -/
def awaitAttribute (gap : Gap) (b : UInt8) : State × Action Kind :=
  if isBlank b then (.blank gap, .continue)
  else if b = slash then (.closingSlash, .continue)
  else if b = percent then (.closingPercent, .continue)
  else if b = greater then (.fragmentEnd, .emit .symbol)
  else if isNameByte b then (.attributeName, .continue)
  else (.errorInTag, .continue)

/-- What a byte does after the `/` or `%` of a closing symbol. -/
def awaitGreater (b : UInt8) : State × Action Kind :=
  if b = greater then (.fragmentEnd, .emit .symbol)
  else (.afterTagName, .emitBefore .error)

/-- What a byte does in an error: it runs on to the first byte of a closing symbol. -/
def skipError (here : State) (b : UInt8) : State × Action Kind :=
  if b = greater ∨ b = slash ∨ b = percent then (.afterTagName, .emitBefore .error)
  else (here, .continue)

/-- What a byte does in each state. -/
def transition : State → UInt8 → State × Action Kind
  | .outside, b => beforeFragment b
  | .fragmentEnd, b => beforeFragment b
  | .afterLess, b =>
      if b = percent then (.afterPercent, .continue)
      else if b = slash then (.tagNameStart, .emit .symbol)
      else if isNameByte b then (.tagNameStart, .emitBefore .symbol)
      else (.outside, .emitBefore .error)
  | .afterPercent, b =>
      if b = commercialAt then (.directiveStart, .emit .symbol)
      else if b = dash then (.afterPercentDash, .continue)
      else (.outside, .emitBefore .error)
  | .afterPercentDash, b =>
      if b = dash then (.comment, .continue)
      else (.outside, .emitBefore .error)
  | .directiveStart, b =>
      if isBlank b then (.blank .directive, .continue)
      else if b = percent then (.closingPercent, .continue)
      else if isNameByte b then (.tagName, .continue)
      else (.errorInTag, .continue)
  | .tagNameStart, b =>
      if isNameByte b then (.tagName, .continue)
      else (.errorInTag, .continue)
  | .tagName, b =>
      if isNameByte b then (.tagName, .continue)
      else (.afterTagName, .emitBefore .tagName)
  | .afterTagName, b => awaitAttribute .tag b
  | .attributeName, b =>
      if isNameByte b then (.attributeName, .continue)
      else (.afterAttribute, .emitBefore .attr)
  | .afterAttribute, b =>
      if b = equals then (.afterEquals, .emit .symbol)
      else awaitAttribute .attr b
  | .afterEquals, b =>
      if isBlank b then (.blank .equals, .continue)
      else if b = quote ∨ b = apostrophe then (.quoted b, .continue)
      else (.errorInTag, .continue)
  | .quoted q, b =>
      if b = backslash then (.escaped q, .continue)
      else if b = q then (.afterTagName, .emit .value)
      else (.quoted q, .continue)
  | .escaped q, b =>
      if b = q ∨ b = backslash then (.quoted q, .continue)
      else (.quoted q, .reprocess)
  | .blank gap, b =>
      if isBlank b then (.blank gap, .continue)
      else (gap.resume, .emitBefore .whitespace)
  | .closingSlash, b => awaitGreater b
  | .closingPercent, b => awaitGreater b
  | .comment, b =>
      if b = dash then (.commentDash, .continue)
      else (.comment, .continue)
  | .commentDash, b =>
      if b = dash then (.commentDashes, .continue)
      else (.comment, .continue)
  | .commentDashes, b =>
      if b = percent then (.commentPercent, .continue)
      else if b = dash then (.commentDashes, .continue)
      else (.comment, .continue)
  | .commentPercent, b =>
      if b = greater then (.fragmentEnd, .emit .comment)
      else if b = dash then (.commentDash, .continue)
      else (.comment, .continue)
  | .errorOutside, b => skipError .errorOutside b
  | .errorInTag, b => skipError .errorInTag b

/-- The kind of an unfinished token. -/
def inProgress : State → Kind
  | .afterLess | .afterPercent | .afterPercentDash => .symbol
  | .closingSlash | .closingPercent => .symbol
  | .directiveStart | .tagNameStart | .tagName => .tagName
  | .afterTagName | .attributeName | .afterAttribute => .attr
  | .afterEquals | .quoted _ | .escaped _ => .value
  | .blank _ => .whitespace
  | .comment | .commentDash | .commentDashes | .commentPercent => .comment
  | .outside | .fragmentEnd | .errorOutside | .errorInTag => .error

/-- The kind of a token that the end of the text cuts short: comments, names and blanks
are complete as they stand, all else is an error. -/
def atEndOfInput : State → Kind
  | .comment | .commentDash | .commentDashes | .commentPercent => .comment
  | .tagName => .tagName
  | .attributeName => .attr
  | .blank _ => .whitespace
  | _ => .error

/-- The state for the next token when one is ended from outside: comments and quoted
values go on, all else falls back to where an attribute is expected, or before the
fragment if its opening symbol was not complete. -/
def settle : State → State
  | .afterLess | .afterPercent | .afterPercentDash | .errorOutside => .outside
  | .tagNameStart | .tagName | .closingSlash | .closingPercent | .errorInTag =>
      .afterTagName
  | .attributeName => .afterAttribute
  | .escaped q => .quoted q
  | .commentDash | .commentDashes | .commentPercent => .comment
  | .blank gap => gap.resume
  | state => state

/-- Only a byte after a backslash is passed on, and only to the state of an unescaped
value. -/
theorem eq_of_transition_reprocess {s t : State} {b : UInt8}
    (h : transition s b = (t, .reprocess)) : ∃ q, s = .escaped q ∧ t = .quoted q := by
  revert h
  fun_cases transition s b <;>
    simp +contextual [beforeFragment, awaitAttribute, awaitGreater, skipError] <;>
    (try (repeat' split)) <;> simp

/-- An unescaped value reads every byte. -/
theorem transition_quoted_reads (q b : UInt8) :
    (transition (.quoted q) b).2 ≠ .reprocess := by
  rw [transition]
  repeat' split
  all_goals simp

instance : Automaton State Kind where
  initial := .outside
  transition := transition
  inProgress := inProgress
  atLineEnd := inProgress
  atEndOfInput := atEndOfInput
  settle := settle
  refine kind _ := kind
  reprocess_once s t b h := by
    obtain ⟨q, -, rfl⟩ := eq_of_transition_reprocess h
    exact transition_quoted_reads q b

end PageLexing.Tag

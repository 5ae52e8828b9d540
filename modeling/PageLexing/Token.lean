/-!
# Tokens

A token is a class and a length. Where it stands is implied: it starts where the token
before it ended. The class is a number in one shared space whose first two numbers are
structural, the same for every language; each language counts its own kinds from
`firstKind` on.
-/

namespace PageLexing

/-- The number of a token class. -/
abbrev TokenId := Nat

namespace TokenId

/-- Answered when a window holds no further complete token. -/
abbrev endOfChunk : TokenId := 0

/-- The class of a single newline. -/
abbrev endOfLine : TokenId := 1

/-- The first number a language may give to a kind of its own. -/
abbrev firstKind : TokenId := 2

/-- Whether `id` means the same in every language. -/
def isStructural (id : TokenId) : Bool := id < firstKind

theorem isStructural_eq_false_iff {id : TokenId} : isStructural id = false ↔ firstKind ≤ id := by
  rw [isStructural, decide_eq_false_iff_not, Nat.not_lt]

/-- The name of a structural class. -/
def structuralName? : TokenId → Option String
  | 0 => some "end-of-chunk"
  | 1 => some "end-of-line"
  | _ => none

end TokenId

/-- A class and the number of bytes it covers. -/
structure Token where
  id : TokenId
  len : Nat
deriving DecidableEq

namespace Token

/-- The answer that no further token fits the window. -/
def endOfChunk : Token := ⟨TokenId.endOfChunk, 0⟩

/-- The token of one newline. -/
def endOfLine : Token := ⟨TokenId.endOfLine, 1⟩

end Token

/-! ## Vocabularies of single languages -/

/-- The token kinds of one language, with their numbers and display names. -/
class TokenKind (κ : Type) where
  /-- Short name of the language, used to tell equal kind names apart. -/
  languageName : String
  /-- Every kind, by increasing number. -/
  all : List κ
  id : κ → TokenId
  name : κ → String

namespace TokenKind

variable (κ : Type) [TokenKind κ]

/-- The highest number in use. -/
def maxId : TokenId := ((all : List κ).map id).foldl max TokenId.endOfLine

/-- The kind numbered `n`. -/
def ofId? (n : TokenId) : Option κ := (all : List κ).find? (fun kind => id kind == n)

/-- The name of class `n` as this language alone knows it. -/
def localName? (n : TokenId) : Option String :=
  (TokenId.structuralName? n).or ((ofId? κ n).map name)

end TokenKind

end PageLexing

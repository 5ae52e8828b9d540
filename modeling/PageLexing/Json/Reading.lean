import PageLexing.Json
import PageLexing.Text.Hex

/-!
# Reading JSON

Reads a text that holds exactly one JSON value, with blanks around it and between its
parts. Every value takes at least one character, so the length of the text bounds the
depth of the recursion.

## Main results

* `skipBlanks_of_notBlank` — blanks are skipped, and nothing else.
-/

namespace PageLexing.Json

/-! ## Blanks and numbers -/

/-- The four blank characters of JSON. -/
def isBlank (c : Char) : Bool := c == ' ' || c == '\n' || c == '\t' || c == '\r'

/-- Drops the blanks in front. -/
def skipBlanks (text : List Char) : List Char := text.dropWhile isBlank

theorem skipBlanks_of_notBlank {c : Char} {rest : List Char} (h : isBlank c = false) :
    skipBlanks (c :: rest) = c :: rest := by
  simp [skipBlanks, h]

/-- One or more digits in front. -/
def readDigits (text : List Char) : Option (List Char × List Char) :=
  match text.span Char.isDigit with
  | ([], _) => none
  | (digits, rest) => some (digits, rest)

/-- The fraction of a number, if there is one. -/
def readFraction : List Char → Option (List Char × List Char)
  | '.' :: rest => (readDigits rest).map (fun found => ('.' :: found.1, found.2))
  | text => some ([], text)

/-- The exponent of a number, if there is one. -/
def readExponent : List Char → Option (List Char × List Char)
  | c :: rest =>
      if c = 'e' ∨ c = 'E' then
        match rest with
        | sign :: digits =>
            if sign = '+' ∨ sign = '-' then
              (readDigits digits).map (fun found => (c :: sign :: found.1, found.2))
            else (readDigits rest).map (fun found => (c :: found.1, found.2))
        | [] => none
      else some ([], c :: rest)
  | [] => some ([], [])

/-- A number without its sign. A zero in front is the whole integer part. -/
def readUnsigned (text : List Char) : Option (List Char × List Char) := do
  let (whole, rest) ← readDigits text
  if whole.length ≠ 1 ∧ whole.head? = some '0' then none
  else
    let (fraction, rest) ← readFraction rest
    let (exponent, rest) ← readExponent rest
    some (whole ++ fraction ++ exponent, rest)

/-- A number. -/
def readNumber : List Char → Option (List Char × List Char)
  | '-' :: rest => (readUnsigned rest).map (fun found => ('-' :: found.1, found.2))
  | text => readUnsigned text

/-! ## Strings -/

/-- A part of a string: a character, or a 16-bit unit given by its number. -/
inductive Piece where
  | char (c : Char)
  | unit (n : Nat)

/-- The character that a backslash gives to the character after it. -/
def escapedChar? (c : Char) : Option Char :=
  if c = '"' ∨ c = '\\' ∨ c = '/' then some c
  else if c = 'b' then some '\x08'
  else if c = 'f' then some '\x0c'
  else if c = 'n' then some '\n'
  else if c = 'r' then some '\r'
  else if c = 't' then some '\t'
  else none

/-- The parts of a string up to its closing quote, and the text after it. -/
def readPieces : List Char → Option (List Piece × List Char)
  | [] => none
  | '"' :: rest => some ([], rest)
  | '\\' :: 'u' :: a :: b :: c :: d :: rest => do
      let n ← Hex.value? [a, b, c, d]
      let (pieces, rest) ← readPieces rest
      some (.unit n :: pieces, rest)
  | '\\' :: c :: rest => do
      let c ← escapedChar? c
      let (pieces, rest) ← readPieces rest
      some (.char c :: pieces, rest)
  | c :: rest =>
      if c.toNat < 0x20 ∨ c = '\\' then none
      else do
        let (pieces, rest) ← readPieces rest
        some (.char c :: pieces, rest)

/-- The text of the parts of a string, unless half of a surrogate pair stands alone. -/
def joinPieces : List Piece → Option (List Char)
  | [] => some []
  | .char c :: rest => (joinPieces rest).map (c :: ·)
  | .unit n :: rest =>
      if n < 0xd800 ∨ 0xe000 ≤ n then (joinPieces rest).map (Char.ofNat n :: ·)
      else
        match rest with
        | .unit low :: rest =>
            if n < 0xdc00 ∧ 0xdc00 ≤ low ∧ low < 0xe000 then
              (joinPieces rest).map
                (Char.ofNat (0x10000 + (n - 0xd800) * 0x400 + (low - 0xdc00)) :: ·)
            else none
        | _ => none

/-- A string after its opening quote. -/
def readString (text : List Char) : Option (Option String × List Char) := do
  let (pieces, rest) ← readPieces text
  some ((joinPieces pieces).map String.ofList, rest)

/-! ## Values -/

mutual

/-- The value in front of a text. -/
def readValue : (fuel : Nat) → List Char → Option (Json × List Char)
  | 0, _ => none
  | fuel + 1, text =>
      match text with
      | 'n' :: 'u' :: 'l' :: 'l' :: rest => some (.null, rest)
      | 't' :: 'r' :: 'u' :: 'e' :: rest => some (.bool true, rest)
      | 'f' :: 'a' :: 'l' :: 's' :: 'e' :: rest => some (.bool false, rest)
      | '"' :: rest => (readString rest).map (fun found => (.string found.1, found.2))
      | '[' :: rest =>
          match skipBlanks rest with
          | ']' :: rest => some (.array [], rest)
          | text => do
              let (head, rest) ← readValue fuel text
              let (elements, rest) ← readElements fuel (skipBlanks rest)
              some (.array (head :: elements), rest)
      | '\x7b' :: rest =>
          match skipBlanks rest with
          | '\x7d' :: rest => some (.object [], rest)
          | text => do
              let (head, rest) ← readMember fuel text
              let (members, rest) ← readMembers fuel (skipBlanks rest)
              some (.object (head :: members), rest)
      | text => (readNumber text).map (fun found => (.number found.1, found.2))

/-- The elements of an array after the first, and its end. -/
def readElements : (fuel : Nat) → List Char → Option (List Json × List Char)
  | 0, _ => none
  | fuel + 1, text =>
      match text with
      | ']' :: rest => some ([], rest)
      | ',' :: rest => do
          let (head, rest) ← readValue fuel (skipBlanks rest)
          let (elements, rest) ← readElements fuel (skipBlanks rest)
          some (head :: elements, rest)
      | _ => none

/-- A member of an object. -/
def readMember : (fuel : Nat) → List Char → Option ((Option String × Json) × List Char)
  | 0, _ => none
  | fuel + 1, text =>
      match text with
      | '"' :: rest => do
          let (name, rest) ← readString rest
          match skipBlanks rest with
          | ':' :: rest =>
              let (value, rest) ← readValue fuel (skipBlanks rest)
              some ((name, value), rest)
          | _ => none
      | _ => none

/-- The members of an object after the first, and its end. -/
def readMembers : (fuel : Nat) → List Char → Option (List (Option String × Json) × List Char)
  | 0, _ => none
  | fuel + 1, text =>
      match text with
      | '\x7d' :: rest => some ([], rest)
      | ',' :: rest => do
          let (head, rest) ← readMember fuel (skipBlanks rest)
          let (members, rest) ← readMembers fuel (skipBlanks rest)
          some (head :: members, rest)
      | _ => none

end

/-- The value that a text holds. -/
def ofText? (text : String) : Option Json := do
  let chars := text.toList
  let (value, rest) ← readValue (chars.length + 1) (skipBlanks chars)
  if skipBlanks rest = [] then some value else none

end PageLexing.Json

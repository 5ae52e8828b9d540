import PageLexing.Settings.Value
import PageLexing.Text.Hex

/-!
# TOML strings and numbers

The values of a TOML file that hold no other values. Strings come in four forms: basic
ones with escapes and literal ones without, each on one line or, between tripled quotes,
on several. Integers are decimal, hexadecimal, octal or binary and have to fit 64 bits
with sign; floating-point numbers have a fraction, an exponent, or both. Underscores may
stand between digits.
-/

namespace PageLexing.Settings.Toml

/-! ## Characters -/

/-- Blanks inside a line. -/
def isBlank (c : Char) : Bool := c == ' ' || c == '\t'

/-- Controls that may not stand in a file, newlines apart. -/
def isControl (c : Char) : Bool := (c.toNat < 0x20 && c != '\t') || c.toNat == 0x7f

/-- Drops the blanks in front. -/
def skipBlanks (text : List Char) : List Char := text.dropWhile isBlank

/-- The text behind a newline, if one is in front. -/
def newline? : List Char → Option (List Char)
  | '\n' :: rest => some rest
  | '\r' :: '\n' :: rest => some rest
  | _ => none

/-! ## Strings -/

/-- The character with a number given by `count` hexadecimal digits. -/
def readCodePoint (count : Nat) (text : List Char) : Option (Char × List Char) :=
  if text.length < count then none
  else do
    let n ← Hex.value? (text.take count)
    if Nat.isValidChar n then some (Char.ofNat n, text.drop count) else none

/-- An escape after its backslash. -/
def readEscape : List Char → Option (Char × List Char)
  | 'b' :: rest => some ('\x08', rest)
  | 't' :: rest => some ('\t', rest)
  | 'n' :: rest => some ('\n', rest)
  | 'f' :: rest => some ('\x0c', rest)
  | 'r' :: rest => some ('\r', rest)
  | '"' :: rest => some ('"', rest)
  | '\\' :: rest => some ('\\', rest)
  | 'u' :: rest => readCodePoint 4 rest
  | 'U' :: rest => readCodePoint 8 rest
  | _ => none

/-- A basic string on one line, after its opening quote. -/
def readBasic : (fuel : Nat) → List Char → Option (List Char × List Char)
  | _ + 1, '"' :: rest => some ([], rest)
  | fuel + 1, '\\' :: rest => do
      let (c, rest) ← readEscape rest
      let (chars, rest) ← readBasic fuel rest
      some (c :: chars, rest)
  | fuel + 1, c :: rest =>
      if isControl c then none
      else do
        let (chars, rest) ← readBasic fuel rest
        some (c :: chars, rest)
  | _, _ => none

/-- A literal string on one line, after its opening quote. -/
def readLiteral : List Char → Option (List Char × List Char)
  | '\'' :: rest => some ([], rest)
  | c :: rest =>
      if isControl c then none
      else do
        let (chars, rest) ← readLiteral rest
        some (c :: chars, rest)
  | [] => none

/-- Drops a newline directly behind the opening quotes. -/
def skipFirstNewline (text : List Char) : List Char := (newline? text).getD text

/-- Drops the blanks and newlines in front. -/
def skipSpace : List Char → List Char
  | '\r' :: '\n' :: rest => skipSpace rest
  | c :: rest => if isBlank c || c == '\n' then skipSpace rest else c :: rest
  | [] => []

/-- A string on several lines, after its opening quotes. Up to two quotes may stand before
the closing three. In a basic string a backslash at the end of a line joins it to the next
character that is neither a blank nor a newline. -/
def readLines (quote : Char) : (fuel : Nat) → List Char → Option (List Char × List Char)
  | 0, _ => none
  | fuel + 1, text =>
      match newline? text with
      | some rest => do
          let (chars, rest) ← readLines quote fuel rest
          some ('\n' :: chars, rest)
      | none =>
          match text with
          | [] => none
          | c :: rest =>
              if c = quote then
                let run := min 5 (text.takeWhile (· == quote)).length
                if 3 ≤ run then some (List.replicate (run - 3) quote, text.drop run)
                else do
                  let (chars, rest) ← readLines quote fuel rest
                  some (c :: chars, rest)
              else if c = '\\' ∧ quote = '"' then
                if (newline? (skipBlanks rest)).isSome then
                  readLines quote fuel (skipSpace rest)
                else do
                  let (c, rest) ← readEscape rest
                  let (chars, rest) ← readLines quote fuel rest
                  some (c :: chars, rest)
              else if isControl c then none
              else do
                let (chars, rest) ← readLines quote fuel rest
                some (c :: chars, rest)

/-- A string of any form, with its opening quote; none if the text starts otherwise. -/
def readString (text : List Char) : Option (Option (List Char × List Char)) :=
  match text with
  | '"' :: '"' :: '"' :: rest => some (readLines '"' (text.length + 1) (skipFirstNewline rest))
  | '"' :: rest => some (readBasic (text.length + 1) rest)
  | '\'' :: '\'' :: '\'' :: rest =>
      some (readLines '\'' (text.length + 1) (skipFirstNewline rest))
  | '\'' :: rest => some (readLiteral rest)
  | _ => none

/-! ## Numbers -/

/-- Digits without the underscores between them. -/
def underscored? (isDigit : Char → Bool) : List Char → Option (List Char)
  | [] => none
  | [c] => if isDigit c then some [c] else none
  | c :: '_' :: rest =>
      if isDigit c then (underscored? isDigit rest).map (c :: ·) else none
  | c :: rest => if isDigit c then (underscored? isDigit rest).map (c :: ·) else none

/-- A decimal number without sign. It has no zero in front of other digits. -/
def whole? (text : List Char) : Option (List Char) := do
  let digits ← underscored? Char.isDigit text
  if 1 < digits.length ∧ digits.head? = some '0' then none else some digits

/-- The sign in front of a number, and the number. -/
def unsigned : List Char → Bool × List Char
  | '-' :: rest => (true, rest)
  | '+' :: rest => (false, rest)
  | text => (false, text)

/-- The value of digits in a base of up to 16. -/
def valueIn (base : Nat) (digits : List Char) : Nat :=
  digits.foldl (fun value c => value * base + (Hex.digit? c).getD 0) 0

/-- An integer that fits 64 bits with sign. -/
def fitting (n : Int) : Option Int :=
  if Int64.minValue.toInt ≤ n ∧ n ≤ Int64.maxValue.toInt then some n else none

/-- An integer. -/
def integer? (text : List Char) : Option Int :=
  match text with
  | '0' :: 'x' :: rest => do
      let digits ← underscored? (fun c => (Hex.digit? c).isSome) rest
      fitting (valueIn 16 digits)
  | '0' :: 'o' :: rest => do
      let digits ← underscored? (fun c => '0' ≤ c ∧ c ≤ '7') rest
      fitting (valueIn 8 digits)
  | '0' :: 'b' :: rest => do
      let digits ← underscored? (fun c => c == '0' || c == '1') rest
      fitting (valueIn 2 digits)
  | _ => do
      let (negative, rest) := unsigned text
      let digits ← whole? rest
      fitting (if negative then -(valueIn 10 digits : Int) else valueIn 10 digits)

/-- The exponent of a floating-point number, after its letter. -/
def exponent? (text : List Char) : Option Int := do
  let (negative, rest) := unsigned text
  let digits ← underscored? Char.isDigit rest
  some (if negative then -(valueIn 10 digits : Int) else valueIn 10 digits)

/-- A floating-point number. One too large for the format is refused unless negative. -/
def float? (text : List Char) : Option Binary64 := do
  let (negative, rest) := unsigned text
  if rest = "inf".toList then some (.infinity negative)
  else if rest = "nan".toList then some .nan
  else
    let (mantissa, tail) := rest.span (fun c => c != 'e' && c != 'E')
    let exponent ← match tail with
      | [] => some 0
      | _ :: digits => exponent? digits
    let (front, back) := mantissa.span (· != '.')
    let frontDigits ← whole? front
    let backDigits ← match back with
      | [] => some []
      | _ :: digits => underscored? Char.isDigit digits
    if tail = [] ∧ back = [] then none
    else
      let value := Binary64.ofDecimal negative (valueIn 10 (frontDigits ++ backDigits))
        (exponent - backDigits.length)
      if value = .infinity false then none else some value

/-- A value written as one word: a truth value or a number. -/
def word? (text : List Char) : Option Value :=
  if text = "true".toList then some (.bool true)
  else if text = "false".toList then some (.bool false)
  else ((integer? text).map Value.integer).or ((float? text).map Value.float)

end PageLexing.Settings.Toml

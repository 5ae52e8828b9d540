/-!
# JSON values

A JSON text as a tree. Numbers keep their literals, because only plain natural numbers
have a meaning here and whether one fits is for the reader to say. Objects keep their
members as written, repetitions included, so that a reader may refuse them.

A string may hold an escape that is only half of a surrogate pair. Such a string is well
formed but names no text; it is kept as `none` and is harmless where nobody reads it.

## Main results

* `nat?_ofNat` — a natural number is read back if it is below the bound.
-/

namespace PageLexing

/-- A JSON value. -/
inductive Json where
  | null
  | bool (value : Bool)
  | number (literal : List Char)
  | string (text : Option String)
  | array (elements : List Json)
  | object (members : List (Option String × Json))

namespace Json

/-- The value of a natural number. -/
def ofNat (n : Nat) : Json := .number (Nat.toDigits 10 n)

/-- The value of a text. -/
def ofString (text : String) : Json := .string (some text)

/-- The object with the given members. -/
def ofFields (fields : List (String × Json)) : Json :=
  .object (fields.map (fun field => (some field.1, field.2)))

/-- A natural number below `bound`, written with digits alone. -/
def nat? (bound : Nat) : Json → Option Nat
  | .number literal =>
      if literal.all Char.isDigit ∧ Nat.ofDigitChars 10 literal 0 < bound then
        some (Nat.ofDigitChars 10 literal 0)
      else none
  | _ => none

/-- A truth value. -/
def bool? : Json → Option Bool
  | .bool value => some value
  | _ => none

theorem nat?_ofNat {bound n : Nat} (h : n < bound) : (ofNat n).nat? bound = some n := by
  have hdigits : (Nat.toDigits 10 n).all Char.isDigit = true := by
    rw [List.all_eq_true]
    exact fun c hc => Nat.isDigit_of_mem_toDigits (by decide) (by decide) hc
  have hvalue := Nat.ofDigitChars_toDigits (b := 10) (n := n) (by decide) (by decide)
  simp [nat?, ofNat, hdigits, hvalue, h]

/-! ## Printing -/

private def hexDigit (n : Nat) : Char := Nat.digitChar n

/-- A character inside a string. -/
def escape (c : Char) : List Char :=
  if c = '"' then ['\\', '"']
  else if c = '\\' then ['\\', '\\']
  else if c = '\x08' then ['\\', 'b']
  else if c = '\x0c' then ['\\', 'f']
  else if c = '\n' then ['\\', 'n']
  else if c = '\r' then ['\\', 'r']
  else if c = '\t' then ['\\', 't']
  else if c.toNat < 0x20 then
    ['\\', 'u', '0', '0', hexDigit (c.toNat / 16), hexDigit (c.toNat % 16)]
  else [c]

/-- Control characters without an escape of their own are written by their numbers. -/
theorem escape_of_lt {c : Char} (h : c.toNat < 0x20)
    (hown : c ≠ '\x08' ∧ c ≠ '\x0c' ∧ c ≠ '\n' ∧ c ≠ '\r' ∧ c ≠ '\t') :
    escape c =
      ['\\', 'u', '0', '0', Nat.digitChar (c.toNat / 16), Nat.digitChar (c.toNat % 16)] := by
  have hquote : c ≠ '"' := by rintro rfl; exact absurd h (by decide)
  have hbackslash : c ≠ '\\' := by rintro rfl; exact absurd h (by decide)
  simp only [escape, if_neg hquote, if_neg hbackslash, hown, h, if_true, if_false, hexDigit]

/-- A string between quotes. What names no text is printed as a lone half of a pair. -/
def renderString : Option String → List Char
  | some text => '"' :: (text.toList.flatMap escape ++ ['"'])
  | none => "\"\\ud800\"".toList

theorem renderString_some (text : String) :
    renderString (some text) = '"' :: (text.toList.flatMap escape ++ ['"']) := rfl

mutual

/-- The value as a text without blanks. -/
def render : Json → List Char
  | .null => "null".toList
  | .bool true => "true".toList
  | .bool false => "false".toList
  | .number literal => literal
  | .string text => renderString text
  | .array [] => ['[', ']']
  | .array (head :: rest) => '[' :: (render head ++ renderElements rest)
  | .object [] => ['\x7b', '\x7d']
  | .object ((name, value) :: rest) =>
      '\x7b' :: (renderString name ++ ':' :: (render value ++ renderMembers rest))

/-- The elements of an array after the first. -/
def renderElements : List Json → List Char
  | [] => [']']
  | head :: rest => ',' :: (render head ++ renderElements rest)

/-- The members of an object after the first. -/
def renderMembers : List (Option String × Json) → List Char
  | [] => ['\x7d']
  | (name, value) :: rest =>
      ',' :: (renderString name ++ ':' :: (render value ++ renderMembers rest))

end

/-- The value as a string. -/
def toText (json : Json) : String := String.ofList json.render

end Json

end PageLexing

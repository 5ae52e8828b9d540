/-!
# Bytes and byte classes

Pages are lexed as bytes, never as decoded characters: every delimiter and every rule
of the three languages is about ASCII bytes, and a byte of `0x80` or above only ever
counts as part of a name. This module names the bytes that the rules mention and the
classes that several languages share.

## Main results

* `isNameByte_newline` — no name has a newline.
* `isNameByte_of_isNameStart` — what may open a name may also continue it.
-/

namespace PageLexing

/-- A text to be lexed, or a part of one. -/
abbrev Bytes := List UInt8

/-- The bytes of a string in UTF-8. -/
def Bytes.ofString (text : String) : Bytes := text.toUTF8.data.toList

namespace Byte

abbrev tab : UInt8 := 0x09
abbrev newline : UInt8 := 0x0a
abbrev formFeed : UInt8 := 0x0c
abbrev carriageReturn : UInt8 := 0x0d
abbrev space : UInt8 := 0x20
abbrev bang : UInt8 := 0x21
abbrev quote : UInt8 := 0x22
abbrev hash : UInt8 := 0x23
abbrev dollar : UInt8 := 0x24
abbrev percent : UInt8 := 0x25
abbrev ampersand : UInt8 := 0x26
abbrev apostrophe : UInt8 := 0x27
abbrev star : UInt8 := 0x2a
abbrev plus : UInt8 := 0x2b
abbrev dash : UInt8 := 0x2d
abbrev dot : UInt8 := 0x2e
abbrev slash : UInt8 := 0x2f
abbrev colon : UInt8 := 0x3a
abbrev semicolon : UInt8 := 0x3b
abbrev less : UInt8 := 0x3c
abbrev equals : UInt8 := 0x3d
abbrev greater : UInt8 := 0x3e
abbrev question : UInt8 := 0x3f
abbrev commercialAt : UInt8 := 0x40
abbrev backslash : UInt8 := 0x5c
abbrev caret : UInt8 := 0x5e
abbrev underscore : UInt8 := 0x5f
abbrev bar : UInt8 := 0x7c
abbrev tilde : UInt8 := 0x7e

/-! ## Classes -/

/-- An ASCII letter of either case. -/
def isLetter (b : UInt8) : Bool :=
  (0x41 ≤ b && b ≤ 0x5a) || (0x61 ≤ b && b ≤ 0x7a)

/-- An ASCII decimal digit. -/
def isDigit (b : UInt8) : Bool := 0x30 ≤ b && b ≤ 0x39

/-- A byte of a character outside ASCII. -/
def isWide (b : UInt8) : Bool := 0x80 ≤ b

/-- Blank space inside a line. The newline is not among it: it always ends a token. -/
def isBlank (b : UInt8) : Bool :=
  b == space || b == tab || b == carriageReturn || b == formFeed

/-- What may open a name in markup. -/
def isNameStart (b : UInt8) : Bool := isLetter b || b == underscore || isWide b

/-- What may continue a name in markup and in tags. -/
def isNameByte (b : UInt8) : Bool :=
  isLetter b || isDigit b || b == underscore || b == dash || b == colon || b == dot
    || isWide b

theorem isNameByte_newline : isNameByte newline = false := by decide

theorem isNameByte_of_isNameStart {b : UInt8} (h : isNameStart b = true) :
    isNameByte b = true := by
  simp only [isNameStart, isNameByte, Bool.or_eq_true] at *
  grind

end Byte

end PageLexing

/-!
# Hexadecimal digits

Characters are given by their numbers, written in base sixteen, wherever a text cannot
hold them as they are.

## Main results

* `digit?_digitChar` — a digit that is written is read back.
-/

namespace PageLexing.Hex

/-- The value of a hexadecimal digit, in either case. -/
def digit? (c : Char) : Option Nat :=
  if c.isDigit then some (c.toNat - 48)
  else if 'a' ≤ c ∧ c ≤ 'f' then some (c.toNat - 87)
  else if 'A' ≤ c ∧ c ≤ 'F' then some (c.toNat - 55)
  else none

/-- The value of a row of hexadecimal digits. -/
def value? (digits : List Char) : Option Nat :=
  digits.foldlM (fun value c => (digit? c).map (value * 16 + ·)) 0

/-- A digit that is written is read back. -/
theorem digit?_digitChar {n : Nat} (h : n < 16) : digit? (Nat.digitChar n) = some n := by
  revert n
  decide

end PageLexing.Hex

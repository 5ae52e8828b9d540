import PageLexing.Text.Unmarked

/-!
# Quoted text

A text is shown between double quotes on one line. What would end the quotes, break the
line or leave no mark is escaped; all else stands for itself.

## Main results

* `newline_notMem_quote` — quoted text stays on one line.
-/

namespace PageLexing.Quoted

/-- A character between quotes. -/
def escape (c : Char) : List Char :=
  if c = '"' then ['\\', '"']
  else if c = '\\' then ['\\', '\\']
  else if c = '\t' then ['\\', 't']
  else if c = '\n' then ['\\', 'n']
  else if c = '\r' then ['\\', 'r']
  else if c = '\x00' then ['\\', '0']
  else if Unmarked.isUnmarked c then
    ['\\', 'u', '\x7b'] ++ Nat.toDigits 16 c.toNat ++ ['\x7d']
  else [c]

/-- A text between quotes. -/
def quote (text : List Char) : List Char := '"' :: (text.flatMap escape ++ ['"'])

private theorem digitChar_ne_newline (n : Nat) : '\n' ≠ Nat.digitChar n := by
  grind [Nat.digitChar]

private theorem newline_notMem_toDigits (n : Nat) : '\n' ∉ Nat.toDigits 16 n := by
  induction n using Nat.strongRecOn with
  | ind n ih =>
      rw [Nat.toDigits_eq_if (by decide)]
      split
      · simp [digitChar_ne_newline]
      · have := ih (n / 16) (by omega)
        simp [digitChar_ne_newline, this]

theorem newline_notMem_escape (c : Char) : '\n' ∉ escape c := by
  unfold escape
  split
  · decide
  split
  · decide
  split
  · decide
  split
  · decide
  split
  · decide
  split
  · decide
  split
  · simp [newline_notMem_toDigits]
  · rename_i hnewline _ _ _
    simpa [eq_comm] using hnewline

theorem newline_notMem_quote (text : List Char) : '\n' ∉ quote text := by
  simp [quote, newline_notMem_escape]

end PageLexing.Quoted

/-!
# Dates and times

A moment is a date, a time of day, or both. One with both may also tell how far its clock is
ahead of the universal one. Seconds have up to nine decimal places, and a minute may end
with a leap second.

A file may set date and time apart by a letter or by a space, write letters in either case,
and give more decimal places than count. The text of a moment has one form.

## Main results

* `readDigits_padded` — a number written in a fixed number of places is read back.
* `readDate_toText` — a date is read back from its text.
-/

namespace PageLexing.Settings.Toml

/-- A day of the calendar. -/
structure Date where
  year : Nat
  month : Nat
  day : Nat
deriving DecidableEq

/-- A time of day. -/
structure Time where
  hour : Nat
  minute : Nat
  second : Nat
  nanosecond : Nat
deriving DecidableEq

/-- How far a clock is ahead of the universal one. -/
inductive Offset where
  | universal
  | ahead (minutes : Int)
deriving DecidableEq

/-- A date, a time of day, or both. -/
inductive Moment where
  | date (day : Date)
  | time (clock : Time)
  | dateTime (day : Date) (clock : Time) (offset : Option Offset)
deriving DecidableEq

/-! ## The calendar -/

/-- Whether a year has a 29 February. -/
def isLeap (year : Nat) : Bool := year % 4 == 0 && (year % 100 != 0 || year % 400 == 0)

/-- The number of days of a month. -/
def daysIn (year month : Nat) : Nat :=
  if month = 2 then (if isLeap year then 29 else 28)
  else if month ∈ [4, 6, 9, 11] then 30
  else 31

/-- A date that the calendar has, with a year of four digits. -/
def Date.Valid (date : Date) : Prop :=
  date.year < 10000 ∧ (1 ≤ date.month ∧ date.month ≤ 12) ∧
    1 ≤ date.day ∧ date.day ≤ daysIn date.year date.month

instance (date : Date) : Decidable date.Valid :=
  inferInstanceAs (Decidable (_ ∧ _ ∧ _))

/-! ## Writing -/

/-- The last `width` digits of a number. -/
def padded : (width : Nat) → (n : Nat) → List Char
  | 0, _ => []
  | width + 1, n => padded width (n / 10) ++ [Nat.digitChar (n % 10)]

/-- The text of a date. -/
def Date.toText (date : Date) : List Char :=
  padded 4 date.year ++ '-' :: padded 2 date.month ++ '-' :: padded 2 date.day

/-- The decimal places of a second, without zeros at the end; nothing for a whole one. -/
def fractionText (nanosecond : Nat) : List Char :=
  if nanosecond = 0 then []
  else '.' :: ((padded 9 nanosecond).reverse.dropWhile (· == '0')).reverse

/-- The text of a time of day. -/
def Time.toText (time : Time) : List Char :=
  padded 2 time.hour ++ ':' :: padded 2 time.minute ++ ':' :: padded 2 time.second ++
    fractionText time.nanosecond

/-- The text of an offset. -/
def Offset.toText : Offset → List Char
  | universal => ['Z']
  | ahead minutes =>
      (if minutes < 0 then '-' else '+') ::
        (padded 2 (minutes.natAbs / 60) ++ ':' :: padded 2 (minutes.natAbs % 60))

/-- The text of a moment. -/
def Moment.toText : Moment → List Char
  | .date day => day.toText
  | .time clock => clock.toText
  | .dateTime day clock offset =>
      day.toText ++ 'T' :: clock.toText ++ (offset.map Offset.toText).getD []

/-! ## Reading -/

/-- The text behind a sign that has to be in front. -/
def behind (sign : Char) : List Char → Option (List Char)
  | c :: rest => if c = sign then some rest else none
  | [] => none

/-- A number of exactly `count` digits in front of a text. -/
def readDigits (count : Nat) (text : List Char) : Option (Nat × List Char) :=
  let digits := text.take count
  if digits.length = count ∧ digits.all Char.isDigit then
    some (Nat.ofDigitChars 10 digits 0, text.drop count)
  else none

/-- A number of two digits between `low` and `high`. -/
def readWithin (low high : Nat) (text : List Char) : Option (Nat × List Char) :=
  (readDigits 2 text).filter (fun found => low ≤ found.1 && found.1 ≤ high)

/-- A date. -/
def readDate (text : List Char) : Option (Date × List Char) := do
  let (year, rest) ← readDigits 4 text
  let (month, rest) ← readWithin 1 12 (← behind '-' rest)
  let (day, rest) ← readWithin 1 (daysIn year month) (← behind '-' rest)
  some (⟨year, month, day⟩, rest)

/-- The decimal places of a second, if there are any. Those after the ninth do not count. -/
def readFraction (text : List Char) : Nat × List Char :=
  match text with
  | '.' :: rest =>
      match rest.span Char.isDigit with
      | ([], _) => (0, text)
      | (digits, rest) => (Nat.ofDigitChars 10 ((digits ++ List.replicate 9 '0').take 9) 0, rest)
  | _ => (0, text)

/-- A time of day. -/
def readTime (text : List Char) : Option (Time × List Char) := do
  let (hour, rest) ← readWithin 0 23 text
  let (minute, rest) ← readWithin 0 59 (← behind ':' rest)
  let (second, rest) ← readWithin 0 60 (← behind ':' rest)
  let (nanosecond, rest) := readFraction rest
  some (⟨hour, minute, second, nanosecond⟩, rest)

/-- An offset. -/
def readOffset (text : List Char) : Option (Offset × List Char) :=
  match text with
  | [] => none
  | sign :: rest =>
      if sign = 'Z' ∨ sign = 'z' then some (.universal, rest)
      else if sign = '+' ∨ sign = '-' then do
        let (hours, rest) ← readWithin 0 23 rest
        let (minutes, rest) ← readWithin 0 59 (← behind ':' rest)
        let ahead : Int := hours * 60 + minutes
        some (.ahead (if sign = '-' then -ahead else ahead), rest)
      else none

/-- The time of day that follows a date, after the letter or space that sets them apart. -/
def readTimeBehindDate : List Char → Option (Time × List Char)
  | c :: rest => if c = 'T' ∨ c = 't' ∨ c = ' ' then readTime rest else none
  | [] => none

/-- A moment. -/
def readMoment (text : List Char) : Option (Moment × List Char) :=
  match readDate text with
  | some (day, rest) =>
      match readTimeBehindDate rest with
      | some (clock, rest) =>
          match readOffset rest with
          | some (offset, rest) => some (.dateTime day clock (some offset), rest)
          | none => some (.dateTime day clock none, rest)
      | none => some (.date day, rest)
  | none => (readTime text).map (fun found => (.time found.1, found.2))

/-! ## Reading back -/

@[simp] theorem length_padded (width n : Nat) : (padded width n).length = width := by
  induction width generalizing n with
  | zero => rfl
  | succ width ih => simp [padded, ih]

private theorem digit_facts :
    ∀ n < 10, (Nat.digitChar n).isDigit = true ∧ (Nat.digitChar n).toNat - '0'.toNat = n := by
  decide

theorem all_isDigit_padded (width n : Nat) : (padded width n).all Char.isDigit = true := by
  induction width generalizing n with
  | zero => rfl
  | succ width ih => simp [padded, ih, (digit_facts _ (Nat.mod_lt n (by decide))).1]

theorem ofDigitChars_padded {width n : Nat} (h : n < Nat.pow 10 width) :
    Nat.ofDigitChars 10 (padded width n) 0 = n := by
  induction width generalizing n with
  | zero => simp_all [padded, Nat.ofDigitChars]
  | succ width ih =>
      have hdigit := (digit_facts _ (Nat.mod_lt n (by decide))).2
      have hfront : Nat.ofDigitChars 10 (padded width (n / 10)) 0 = n / 10 :=
        ih (by rw [show Nat.pow 10 (width + 1) = Nat.pow 10 width * 10 from rfl] at h; omega)
      simp only [padded, Nat.ofDigitChars, List.foldl_append, List.foldl_cons, List.foldl_nil]
        at hfront ⊢
      omega

/-- A number written in a fixed number of places is read back. -/
theorem readDigits_padded {width n : Nat} (h : n < Nat.pow 10 width) (rest : List Char) :
    readDigits width (padded width n ++ rest) = some (n, rest) := by
  simp [readDigits, ofDigitChars_padded h, all_isDigit_padded]

theorem readWithin_padded {low high n : Nat} (hlow : low ≤ n) (hhigh : n ≤ high) (h : n < 100)
    (rest : List Char) : readWithin low high (padded 2 n ++ rest) = some (n, rest) := by
  simp [readWithin, readDigits_padded (show n < Nat.pow 10 2 from h), Option.filter, hlow, hhigh]

theorem daysIn_le (year month : Nat) : daysIn year month ≤ 31 := by
  unfold daysIn
  split
  · split <;> decide
  · split <;> decide

/-- A date is read back from its text. -/
theorem readDate_toText {date : Date} (h : date.Valid) (rest : List Char) :
    readDate (date.toText ++ rest) = some (date, rest) := by
  obtain ⟨hyear, ⟨hmonthLow, hmonthHigh⟩, hdayLow, hdayHigh⟩ := h
  have hyear' : date.year < Nat.pow 10 4 := hyear
  have hdays := daysIn_le date.year date.month
  simp [readDate, Date.toText, behind, readDigits_padded hyear',
    readWithin_padded hmonthLow hmonthHigh (by omega),
    readWithin_padded hdayLow hdayHigh (by omega)]

end PageLexing.Settings.Toml

/-!
# Binary floating-point numbers, exactly

Settings may be given as floating-point numbers in the usual 64-bit format. They are kept
as sign, significand and exponent, so that reading a decimal literal, rounding to a whole
number and printing are exact arithmetic.

A number is printed with the fewest digits that read back as the same number, always in
positional notation, and whole numbers without a fraction.

## Main results

* `roundQuotient_bounds` — a rounded quotient is within half a unit of the quotient.
-/

namespace PageLexing

/-- A 64-bit floating-point number. A finite one is `significand * 2 ^ exponent`, with a
significand below `2 ^ 53` and an exponent from `-1074` to `971`. -/
inductive Binary64 where
  | nan
  | infinity (negative : Bool)
  | finite (negative : Bool) (significand : Nat) (exponent : Int)
deriving DecidableEq

namespace Binary64

/-! ## Rounding -/

/-- `n / d` rounded to a whole number, a half to the even neighbour. -/
def roundQuotient (n d : Nat) : Nat :=
  if 2 * (n % d) < d then n / d
  else if d < 2 * (n % d) then n / d + 1
  else n / d + n / d % 2

theorem roundQuotient_bounds {n d : Nat} (h : 0 < d) :
    2 * n ≤ 2 * (d * roundQuotient n d) + d ∧ 2 * (d * roundQuotient n d) ≤ 2 * n + d := by
  have hdiv := Nat.div_add_mod n d
  have hmod := Nat.mod_lt n h
  unfold roundQuotient
  split
  · omega
  · split
    · rw [Nat.mul_add, Nat.mul_one]
      omega
    · rcases Nat.mod_two_eq_zero_or_one (n / d) with heven | hodd
      · rw [heven, Nat.add_zero]
        omega
      · rw [hodd, Nat.mul_add, Nat.mul_one]
        omega

/-- The number nearest to `n / d`, a half to the even neighbour. -/
def ofQuotient (negative : Bool) (n d : Nat) : Binary64 :=
  let high : Int := (Nat.log2 n : Int) - Nat.log2 d
  let significandAt (exponent : Int) : Nat :=
    roundQuotient (n <<< (-exponent).toNat) (d <<< exponent.toNat)
  let lead := if n <<< (-high).toNat < d <<< high.toNat then high - 1 else high
  let exponent := max (lead - 52) (-1074)
  let significand := significandAt exponent
  let (significand, exponent) :=
    if significand = 1 <<< 53 then (1 <<< 52, exponent + 1) else (significand, exponent)
  if n = 0 then .finite negative 0 (-1074)
  else if 971 < exponent then .infinity negative
  else .finite negative significand exponent

/-- The number nearest to `digits * 10 ^ exponent`. Exponents far outside the range of the
format need no arithmetic. -/
def ofDecimal (negative : Bool) (digits : Nat) (exponent : Int) : Binary64 :=
  let magnitude : Int := (Nat.toDigits 10 digits).length + exponent
  if digits = 0 ∨ magnitude < -400 then .finite negative 0 (-1074)
  else if 400 < magnitude then .infinity negative
  else ofQuotient negative (digits * Nat.pow 10 exponent.toNat) (Nat.pow 10 (-exponent).toNat)

/-- The whole number nearest to the number, a half away from zero, or the nearest of
`0, …, bound` to that. -/
def toNatWithin (bound : Nat) : Binary64 → Nat
  | nan => 0
  | infinity negative => if negative then 0 else bound
  | finite negative significand exponent =>
      if negative then 0
      else
        let unit := 1 <<< (-exponent).toNat
        min bound ((2 * significand <<< exponent.toNat + unit) / (2 * unit))

theorem toNatWithin_le (bound : Nat) (value : Binary64) : value.toNatWithin bound ≤ bound := by
  cases value with
  | nan => exact Nat.zero_le _
  | infinity negative => cases negative <;> simp [toNatWithin]
  | finite negative significand exponent =>
      cases negative with
      | true => exact Nat.zero_le _
      | false => exact Nat.min_le_left _ _

/-! ## Shortest digits -/

/-- The numbers that read back as `significand * 2 ^ exponent` lie between the two bounds,
the bounds included if the significand is even. Bounds and value are given in units of
`2 ^ (exponent - 2)`. -/
def neighbourhood (significand : Nat) (exponent : Int) : Nat × Nat × Nat :=
  let below := if significand = 1 <<< 52 ∧ -1074 < exponent then 1 else 2
  (4 * significand - below, 4 * significand, 4 * significand + 2)

/-- `digits * 10 ^ place` read back as the number, for the better of the two multiples of
`10 ^ place` around it. -/
def shortestAt (significand : Nat) (exponent place : Int) : Option Nat :=
  let (low, value, high) := neighbourhood significand exponent
  -- Everything in units of `1 / scale`, so that only whole numbers are compared.
  let up := Nat.pow 10 (-place).toNat <<< (exponent - 2).toNat
  let grid := Nat.pow 10 place.toNat <<< (2 - exponent).toNat
  let inside (digits : Nat) : Bool :=
    if significand % 2 = 0 then low * up ≤ digits * grid && digits * grid ≤ high * up
    else low * up < digits * grid && digits * grid < high * up
  let floor := value * up / grid
  let floorDistance := value * up - floor * grid
  let ceilDistance := (floor + 1) * grid - value * up
  match inside floor, inside (floor + 1) with
  | true, true =>
      if floorDistance < ceilDistance ∨ (floorDistance = ceilDistance ∧ floor % 2 = 0) then
        some floor
      else some (floor + 1)
  | true, false => some floor
  | false, true => some (floor + 1)
  | false, false => none

/-- The decimal place of the first digit of a number that is not zero. -/
def leadingPlace (significand : Nat) (exponent : Int) : Int :=
  let scaled :=
    (significand <<< exponent.toNat * Nat.pow 10 350) >>> (-exponent).toNat
  ((Nat.toDigits 10 scaled).length : Int) - 351

/-- The fewest digits that read back, with the place of the last. Seventeen always do. -/
def shortest (significand : Nat) (exponent : Int) : Nat × Int :=
  let lead := leadingPlace significand exponent
  let places := (List.range 17).map (fun (count : Nat) => lead - count)
  let found := places.findSome? (fun place =>
    (shortestAt significand exponent place).map (fun digits => (digits, place)))
  found.getD (significand <<< exponent.toNat, 0)

/-! ## Printing -/

/-- `digits * 10 ^ place` in positional notation. -/
def positional (digits : List Char) (place : Int) : List Char :=
  if 0 ≤ place then digits ++ List.replicate place.toNat '0'
  else
    let fraction := (-place).toNat
    if fraction < digits.length then
      digits.take (digits.length - fraction) ++ '.' :: digits.drop (digits.length - fraction)
    else '0' :: '.' :: (List.replicate (fraction - digits.length) '0' ++ digits)

/-- The text of a number. -/
def toText : Binary64 → String
  | nan => "NaN"
  | infinity negative => if negative then "-inf" else "inf"
  | finite negative significand exponent =>
      let sign := if negative then ['-'] else []
      if significand = 0 then String.ofList (sign ++ ['0'])
      else
        let (digits, place) := shortest significand exponent
        String.ofList (sign ++ positional (Nat.toDigits 10 digits) place)

end Binary64

end PageLexing

namespace XiFront

/-- The number `significand * 10 ^ exponent`. -/
structure Decimal where
  significand : Nat
  exponent : Int
  deriving DecidableEq, Repr

namespace Decimal

def digitCount (n : Nat) : Nat :=
  (Nat.toDigits 10 n).length

def trim : Nat → Decimal → Decimal
  | 0, d => d
  | steps + 1, d =>
      if d.significand % 10 = 0 then trim steps ⟨d.significand / 10, d.exponent + 1⟩ else d

/-- The number that the digits write after those of `value`. -/
def ofDigits (value : Nat) (digits : List Char) : Nat :=
  digits.foldl (fun value c => 10 * value + (c.toNat - '0'.toNat)) value

@[simp] theorem ofDigits_nil (value : Nat) : ofDigits value [] = value := by
  rw [ofDigits, List.foldl_nil]

theorem ofDigits_cons (value : Nat) (c : Char) (cs : List Char) :
    ofDigits value (c :: cs) = ofDigits (10 * value + (c.toNat - '0'.toNat)) cs := by
  rw [ofDigits, ofDigits, List.foldl_cons]

/-- The exponent after a letter `e`, which a sign may precede. -/
def exponentOf : List Char → Int
  | '-' :: cs => -(ofDigits 0 cs : Int)
  | '+' :: cs => ofDigits 0 cs
  | cs => ofDigits 0 cs

def ofLiteral (text : List Char) : Decimal :=
  let whole := text.takeWhile Char.isDigit
  let afterPoint := (text.dropWhile Char.isDigit).drop 1
  let fraction := afterPoint.takeWhile Char.isDigit
  let exponent := exponentOf ((afterPoint.dropWhile Char.isDigit).drop 1)
  ⟨ofDigits 0 (whole ++ fraction), exponent - fraction.length⟩

end Decimal

/-- The quotient rounded to the nearest integer, a half to the even one. -/
def roundDiv (num den : Nat) : Nat :=
  let q := num / den
  let r := num % den
  if 2 * r < den then q
  else if den < 2 * r then q + 1
  else if q % 2 = 0 then q
  else q + 1

/-- A number of 64 bits that is not negative: `significand * 2 ^ exponent` units of `2 ^ -1074`,
where the significand has 53 bits unless the exponent is zero, or infinity. -/
inductive Binary64 where
  | finite (significand exponent : Nat)
  | infinite
  deriving DecidableEq, Repr

namespace Binary64

def zero : Binary64 :=
  finite 0 0

def exponentLimit : Nat :=
  2045

/-- The number nearest to a fraction, a half to the one with the even significand. -/
def ofFraction (num den : Nat) : Binary64 :=
  let scaled := num * Nat.pow 2 1074
  let e := (scaled / den).log2 - 52
  let m := roundDiv scaled (den * Nat.pow 2 e)
  match (if m = Nat.pow 2 53 then (Nat.pow 2 52, e + 1) else (m, e)) with
  | (m, e) => if exponentLimit < e then infinite else finite m e

/-- The number nearest to a decimal.  Magnitudes far out of range are not computed. -/
def ofDecimal (d : Decimal) : Binary64 :=
  if d.significand = 0 then zero
  else
    let magnitude := d.exponent + Decimal.digitCount d.significand
    if 310 < magnitude then infinite
    else if magnitude < -330 then zero
    else if 0 ≤ d.exponent then ofFraction (d.significand * Nat.pow 10 d.exponent.toNat) 1
    else ofFraction d.significand (Nat.pow 10 (-d.exponent).toNat)

/-- The number in the layout of sign, exponent and fraction bits. -/
def bits : Binary64 → Nat
  | finite m e => if m < Nat.pow 2 52 then m else (e + 1) * Nat.pow 2 52 + (m - Nat.pow 2 52)
  | infinite => 2047 * Nat.pow 2 52

end Binary64

end XiFront

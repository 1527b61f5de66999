import XiFront.Number.Binary64

namespace XiFront.Binary64

/-! A finite number lies in an interval of reals that round to it.  All three are counted in
units of `2 ^ -1076`; the ends belong to the interval if the significand is even. -/

def middle (m e : Nat) : Nat :=
  4 * m * Nat.pow 2 e

def upper (m e : Nat) : Nat :=
  (4 * m + 2) * Nat.pow 2 e

/-- The number below a power of two is only half as far away. -/
def lower (m e : Nat) : Nat :=
  if m = Nat.pow 2 52 ∧ e ≠ 0 then (4 * m - 1) * Nat.pow 2 e else (4 * m - 2) * Nat.pow 2 e

def units : Nat :=
  Nat.pow 2 1076

/-- Whether `low * b`, `c * a` and `high * b` follow each other. -/
def within (m e a b c : Nat) : Bool :=
  if m % 2 = 0 then lower m e * b ≤ c * a && c * a ≤ upper m e * b
  else lower m e * b < c * a && c * a < upper m e * b

/-- The multiple of `10 ^ p` in the interval, the nearer of the two around the number if both are,
and the upper one if they are equally near. -/
def onGrid? (m e : Nat) (p : Int) : Option Nat :=
  let a := units * Nat.pow 10 p.toNat
  let b := Nat.pow 10 (-p).toNat
  let v := middle m e * b
  let c := v / a
  match within m e a b c, within m e a b (c + 1) with
  | true, true => if v - c * a < (c + 1) * a - v then some c else some (c + 1)
  | true, false => some c
  | false, true => some (c + 1)
  | false, false => none

/-- The number of digits before the point; zero or less if the number is below one tenth. -/
def pointAfter (m e : Nat) : Int :=
  let num := m * Nat.pow 2 e
  let den := Nat.pow 2 1074
  if den ≤ num then Decimal.digitCount (num / den)
  else
    let d := Decimal.digitCount (den / num)
    if den ≤ num * Nat.pow 10 (d - 1) then 2 - (d : Int) else 1 - (d : Int)

/-- Tries ever finer grids. -/
def search (m e : Nat) : Nat → Int → Decimal
  | 0, p => ⟨middle m e, p⟩
  | steps + 1, p =>
      match onGrid? m e p with
      | some c => ⟨c, p⟩
      | none => search m e steps (p - 1)

/-- The shortest decimal of a finite number other than zero; seventeen digits always suffice. -/
def shortest (m e : Nat) : Decimal :=
  (search m e 17 (pointAfter m e - 1)).trim 17

end XiFront.Binary64

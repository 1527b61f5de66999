import XiFront.Number.Shortest

namespace XiFront

/-- Numbers whose point comes after `lowest` to `highest` digits are written out; a negative count
stands for zeros after the point.  Others have an exponent. -/
structure Layout where
  lowest : Int
  highest : Int

/-- Written out from `0.0001` up to, but not including, `10 ^ 16`. -/
def Layout.standard : Layout :=
  ⟨-3, 16⟩

namespace Decimal

def zeros (n : Nat) : List Char :=
  List.replicate n '0'

def positional (digits : List Char) (point : Int) : List Char :=
  if point ≤ 0 then ['0', '.'] ++ zeros (-point).toNat ++ digits
  else if digits.length ≤ point.toNat then
    digits ++ zeros (point.toNat - digits.length) ++ ['.', '0']
  else digits.take point.toNat ++ '.' :: digits.drop point.toNat

/-- One digit before the point, and the power of ten after a letter. -/
def scientific (digits : List Char) (point : Int) : List Char :=
  let fraction := digits.drop 1
  digits.take 1 ++ (if fraction.isEmpty then [] else '.' :: fraction) ++
    'e' :: (toString (point - 1)).toList

def render (layout : Layout) (d : Decimal) : List Char :=
  let digits := Nat.toDigits 10 d.significand
  let point := digits.length + d.exponent
  if layout.lowest ≤ point ∧ point ≤ layout.highest then positional digits point
  else scientific digits point

end Decimal

namespace Binary64

def render : Binary64 → List Char
  | finite 0 _ => ['0', '.', '0']
  | finite m e => (shortest m e).render .standard
  | infinite => ['i', 'n', 'f']

end Binary64

end XiFront

namespace XiFront

abbrev Ranges := List (Nat × Nat)

def Ranges.contains : Ranges → Nat → Bool
  | [], _ => false
  | (first, last) :: others, n =>
      if n < first then false
      else if n ≤ last then true
      else contains others n

end XiFront

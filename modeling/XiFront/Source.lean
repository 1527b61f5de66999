namespace XiFront

abbrev Source := List Char

namespace Source

def byteLength : Source → Nat
  | [] => 0
  | c :: cs => c.utf8Size + byteLength cs

def takeBytes : Nat → Source → Source
  | _, [] => []
  | n, c :: cs => if n = 0 then [] else c :: takeBytes (n - c.utf8Size) cs

/-- The characters that start at the offset `n` or later. -/
def dropBytes : Nat → Source → Source
  | _, [] => []
  | n, c :: cs => if n = 0 then c :: cs else dropBytes (n - c.utf8Size) cs

def slice (source : Source) (start stop : Nat) : Source :=
  takeBytes (stop - start) (dropBytes start source)

@[simp] theorem byteLength_nil : byteLength [] = 0 := rfl

@[simp] theorem byteLength_cons (c : Char) (cs : Source) :
    byteLength (c :: cs) = c.utf8Size + byteLength cs := rfl

@[simp] theorem byteLength_append (s t : Source) :
    byteLength (s ++ t) = byteLength s + byteLength t := by
  induction s with
  | nil => simp
  | cons c cs ih => simp [ih, Nat.add_assoc]

theorem takeBytes_append_dropBytes (n : Nat) (s : Source) :
    takeBytes n s ++ dropBytes n s = s := by
  induction s generalizing n with
  | nil => rfl
  | cons c cs ih =>
      by_cases h : n = 0
      · simp [takeBytes, dropBytes, h]
      · simp [takeBytes, dropBytes, h, ih]

@[simp] theorem takeBytes_byteLength (s t : Source) :
    takeBytes (byteLength s) (s ++ t) = s := by
  induction s with
  | nil => cases t <;> simp [takeBytes]
  | cons c cs ih =>
      have h : c.utf8Size ≠ 0 := Nat.ne_of_gt c.utf8Size_pos
      simp [takeBytes, h, ih]

@[simp] theorem dropBytes_byteLength (s t : Source) :
    dropBytes (byteLength s) (s ++ t) = t := by
  induction s with
  | nil => cases t <;> simp [dropBytes]
  | cons c cs ih =>
      have h : c.utf8Size ≠ 0 := Nat.ne_of_gt c.utf8Size_pos
      simp [dropBytes, h, ih]

end Source

end XiFront

/-!
Names of files.  A name is a list of pieces with slashes between them; an empty piece and a single
dot lead nowhere, except for a dot at the very start of a name.
-/

namespace XiFront.PathName

def split : List Char → List (List Char)
  | [] => [[]]
  | c :: cs =>
      if c = '/' then [] :: split cs
      else
        match split cs with
        | [] => [[c]]
        | p :: ps => (c :: p) :: ps

def join : List (List Char) → List Char
  | [] => []
  | [p] => p
  | p :: ps => p ++ '/' :: join ps

def isIdle (piece : List Char) : Bool :=
  piece = [] || piece = ['.']

def trimEnd (pieces : List (List Char)) : List (List Char) :=
  (pieces.reverse.dropWhile isIdle).reverse

/-- What a name starts with: the root, or a dot that counts. -/
def front : List Char → List Char
  | '/' :: _ => ['/']
  | ['.'] => ['.']
  | '.' :: '/' :: _ => ['.']
  | _ => []

/-- The pieces after the front, up to the last that leads somewhere. -/
def pieces (name : List Char) : List (List Char) :=
  trimEnd (split (name.drop (front name).length))

def parent? (name : List Char) : Option (List Char) :=
  match pieces name with
  | [] => if front name = ['.'] then some [] else none
  | ps => some (front name ++ join (trimEnd ps.dropLast))

/-- The last piece, if it is a name of its own. -/
def last? (name : List Char) : Option (List Char) :=
  match (pieces name).getLast? with
  | some p => if p = ['.', '.'] then none else some p
  | none => none

/-- A piece without what follows its last dot.  A dot that starts the piece does not count. -/
def withoutExtension (piece : List Char) : List Char :=
  match piece.reverse.dropWhile (· ≠ '.') with
  | [] => piece
  | [_] => piece
  | _ :: before => before.reverse

def stem? (name : List Char) : Option (List Char) :=
  (last? name).map withoutExtension

def child (directory piece : List Char) : List Char :=
  match directory.getLast? with
  | none => piece
  | some '/' => directory ++ piece
  | some _ => directory ++ '/' :: piece

theorem split_ne_nil (name : List Char) : split name ≠ [] := by
  cases name with
  | nil => simp [split]
  | cons c cs =>
      unfold split
      split
      · simp
      · split <;> simp

@[simp] theorem join_split (name : List Char) : join (split name) = name := by
  induction name with
  | nil => rfl
  | cons c cs ih =>
      unfold split
      split
      · next h =>
          cases hs : split cs with
          | nil => exact absurd hs (split_ne_nil cs)
          | cons p ps => rw [hs] at ih; simp [join, ih, h]
      · cases hs : split cs with
        | nil => exact absurd hs (split_ne_nil cs)
        | cons p ps =>
            rw [hs] at ih
            cases ps <;> simp_all [join]

end XiFront.PathName

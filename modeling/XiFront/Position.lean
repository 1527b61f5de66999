import XiFront.Source

/-!
Lines and columns, counted from one.  A column is a character; a line ends with a line feed, which a
carriage return may precede.  A carriage return alone is an ordinary character.
-/

namespace XiFront

structure Position where
  line : Nat
  column : Nat
  deriving DecidableEq, Repr

namespace Position

/-- The largest line and the largest column that a position can hold. -/
def limit : Nat :=
  4294967295

/-- The position of the given counts, each cut off at the limit. -/
def ofCounts (line column : Nat) : Position :=
  ⟨min line limit, min column limit⟩

def first : Position :=
  ⟨1, 1⟩

/-- Counts on from a line and a column over a text. -/
def count : Source → Nat → Nat → Nat × Nat
  | [], line, column => (line, column)
  | '\r' :: '\n' :: cs, line, _ => count cs (line + 1) 1
  | '\n' :: cs, line, _ => count cs (line + 1) 1
  | _ :: cs, line, column => count cs line (column + 1)

def after (text : Source) : Position :=
  match count text 1 1 with
  | (line, column) => ofCounts line column

def ofOffset (source : Source) (offset : Nat) : Position :=
  after (source.takeBytes offset)

instance : LT Position where
  lt p q := p.line < q.line ∨ p.line = q.line ∧ p.column < q.column

instance : LE Position where
  le p q := p.line < q.line ∨ p.line = q.line ∧ p.column ≤ q.column

theorem lt_def (p q : Position) :
    p < q ↔ p.line < q.line ∨ p.line = q.line ∧ p.column < q.column := Iff.rfl

theorem le_def (p q : Position) :
    p ≤ q ↔ p.line < q.line ∨ p.line = q.line ∧ p.column ≤ q.column := Iff.rfl

instance (p q : Position) : Decidable (p < q) :=
  decidable_of_iff _ (lt_def p q).symm

instance (p q : Position) : Decidable (p ≤ q) :=
  decidable_of_iff _ (le_def p q).symm

def sort (positions : List Position) : List Position :=
  positions.mergeSort fun p q => decide (p ≤ q)

def render (p : Position) : String :=
  toString p.line ++ ":" ++ toString p.column

end Position

end XiFront

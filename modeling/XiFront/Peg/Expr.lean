namespace XiFront.Peg

inductive Charset where
  | any
  | digit
  | letter
  | alphanumeric
  | hexDigit
  deriving DecidableEq, Repr

namespace Charset

def contains : Charset → Char → Bool
  | any, _ => true
  | digit, c => c.isDigit
  | letter, c => c.isAlpha
  | alphanumeric, c => c.isAlphanum
  | hexDigit, c => c.isDigit || ('a' ≤ c && c ≤ 'f') || ('A' ≤ c && c ≤ 'F')

@[simp] theorem contains_any (c : Char) : any.contains c = true := rfl

@[simp] theorem contains_digit (c : Char) : digit.contains c = c.isDigit := rfl

@[simp] theorem contains_letter (c : Char) : letter.contains c = c.isAlpha := rfl

@[simp] theorem contains_alphanumeric (c : Char) :
    alphanumeric.contains c = c.isAlphanum := rfl

end Charset

/-! `more e` stands for what `star e` repeats after its first `e`: any number of further `e`, each
with the filler in front of it. -/

inductive Expr (ρ : Type) where
  | text (chars : List Char)
  | char (set : Charset)
  | start
  | finish
  | rule (r : ρ)
  | seq (first second : Expr ρ)
  | alt (first second : Expr ρ)
  | opt (body : Expr ρ)
  | star (body : Expr ρ)
  | more (body : Expr ρ)
  | neg (body : Expr ρ)
  deriving DecidableEq, Repr

namespace Expr

def plus (body : Expr ρ) : Expr ρ :=
  seq body (star body)

def oneOf (first : Expr ρ) : List (Expr ρ) → Expr ρ
  | [] => first
  | next :: others => alt first (oneOf next others)

def inOrder (first : Expr ρ) : List (Expr ρ) → Expr ρ
  | [] => first
  | next :: others => seq first (inOrder next others)

@[simp] theorem oneOf_nil (e : Expr ρ) : oneOf e [] = e := rfl

@[simp] theorem oneOf_cons (e d : Expr ρ) (es : List (Expr ρ)) :
    oneOf e (d :: es) = alt e (oneOf d es) := rfl

@[simp] theorem inOrder_nil (e : Expr ρ) : inOrder e [] = e := rfl

@[simp] theorem inOrder_cons (e d : Expr ρ) (es : List (Expr ρ)) :
    inOrder e (d :: es) = seq e (inOrder d es) := rfl

end Expr

/-- The definition of one rule: whether a match leaves a pair, whether its body is tight (no filler
and no pairs inside), and the body. -/
structure Production (ρ : Type) where
  leavesPair : Bool
  tight : Bool
  body : Expr ρ

namespace Production

/-- A match leaves a pair, with the filler allowed between the parts. -/
def plain (body : Expr ρ) : Production ρ :=
  ⟨true, false, body⟩

def silent (body : Expr ρ) : Production ρ :=
  ⟨false, false, body⟩

/-- A match leaves one pair, and its parts stand next to each other. -/
def token (body : Expr ρ) : Production ρ :=
  ⟨true, true, body⟩

/-- A match leaves nothing, and its parts stand next to each other. -/
def blank (body : Expr ρ) : Production ρ :=
  ⟨false, true, body⟩

end Production

/-- A grammar gives each rule its production, says what the filler between two parts is, and bounds
how many expressions can be entered inside each other before a character is consumed. -/
structure Grammar (ρ : Type) where
  production : ρ → Production ρ
  filler : Expr ρ
  depth : Nat

end XiFront.Peg

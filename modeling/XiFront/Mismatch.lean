import XiFront.Error
import XiFront.Grammar
import XiFront.Peg.Attempts

namespace XiFront

open Peg

structure Mismatch where
  offset : Nat
  expected : List Rule
  unexpected : List Rule
  deriving DecidableEq, Repr

namespace Mismatch

/-- Each rule is named once, in the order of definition. -/
def ofAttempts (a : Attempts Rule) : Mismatch where
  offset := a.offset
  expected := Rule.all.filter (· ∈ a.expected)
  unexpected := Rule.all.filter (· ∈ a.unexpected)

def enumerate : List String → String
  | [] => ""
  | [a] => a
  | [a, b] => a ++ " or " ++ b
  | names => ", ".intercalate names.dropLast ++ ", or " ++ names.getLastD ""

def names (rules : List Rule) : String :=
  enumerate (rules.map Rule.name)

def message (m : Mismatch) : String :=
  match m.expected, m.unexpected with
  | [], [] => "unknown parsing error"
  | expected, [] => "expected " ++ names expected
  | [], unexpected => "unexpected " ++ names unexpected
  | expected, unexpected => "unexpected " ++ names unexpected ++ "; expected " ++ names expected

/-- Why a rule does not match at the start of a source. -/
def of (r : Rule) (source : Source) : Mismatch :=
  ofAttempts (grammar.attempts r source)

def error (m : Mismatch) (source : Source) : Error :=
  .malformed (.ofOffset source m.offset) m.message

end Mismatch

/-- The pairs of a rule at the start of a source. -/
def Rule.match? (r : Rule) (source : Source) : Except Error (List (Pair Rule)) :=
  match grammar.reply r source with
  | .ok pairs _ => .ok pairs
  | _ => .error ((Mismatch.of r source).error source)

end XiFront

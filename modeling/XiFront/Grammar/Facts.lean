import XiFront.Grammar
import XiFront.Peg.Analysis

namespace XiFront

open Peg

def startRule : Rule :=
  .file

def grammarProblems : List (Problem Rule) :=
  grammar.problems Rule.all startRule

/-- The length of the grammar's own text. -/
def grammarBytes : Nat :=
  9213

end XiFront

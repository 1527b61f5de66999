import XiFront.Peg.Match
import XiFront.Rule

namespace XiFront

open Peg

inductive Selection where
  /-- The pair goes, with all that is inside it. -/
  | discard
  /-- The pair gives way to its child if it has exactly one. -/
  | fold
  /-- The pair stays. -/
  | store
  deriving DecidableEq, Repr

/-- Keywords that only steer the match are discarded; those that are a type or a value stay. -/
def Keyword.selection : Keyword → Selection
  | .as_ | .break_ | .const | .else_ | .enum | .fn | .if_ | .interface | .let_ | .new
  | .return_ | .struct | .use | .while_ => .discard
  | _ => .store

def Rule.selection : Rule → Selection
  | .endOfInput => .discard
  | .kw k => k.selection
  | .basicType | .nonArrayType | .expr | .exprWithoutBlock | .exprWithBlock | .assignExpr
  | .chain _ | .castExpr | .unaryExpr | .callExpr | .primaryExpr | .groupedExpr
  | .literalExpr => .fold
  | _ => .store

/-- What stands for a pair whose remaining children are `kept`. -/
def Selection.apply (r : Rule) (start stop : Nat) (kept : List (Pair Rule)) :
    Selection → Option (Pair Rule)
  | .discard => none
  | .fold =>
      match kept with
      | [only] => some only
      | kept => some (.node r start stop kept)
  | .store => some (.node r start stop kept)

mutual

def prune : Pair Rule → Option (Pair Rule)
  | .node r start stop children => r.selection.apply r start stop (pruneAll children)

def pruneAll : List (Pair Rule) → List (Pair Rule)
  | [] => []
  | p :: ps =>
      match prune p with
      | some q => q :: pruneAll ps
      | none => pruneAll ps

end

@[simp] theorem pruneAll_nil : pruneAll [] = [] := rfl

theorem pruneAll_cons (p : Pair Rule) (ps : List (Pair Rule)) :
    pruneAll (p :: ps) = (prune p).toList ++ pruneAll ps := by
  rw [pruneAll]
  cases prune p <;> rfl

theorem pruneAll_eq_filterMap (ps : List (Pair Rule)) : pruneAll ps = ps.filterMap prune := by
  induction ps with
  | nil => rfl
  | cons p ps ih =>
      rw [pruneAll, List.filterMap_cons, ih]
      cases prune p <;> rfl

end XiFront

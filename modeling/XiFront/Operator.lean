namespace XiFront

inductive UnaryOp where
  | not
  | neg
  | pos
  deriving DecidableEq, Repr

namespace UnaryOp

def spelling : UnaryOp → List Char
  | not => ['!']
  | neg => ['-']
  | pos => ['+']

def symbol (o : UnaryOp) : String :=
  String.ofList o.spelling

def ruleName : UnaryOp → String
  | not => "op_not"
  | neg => "op_neg"
  | pos => "op_pos"

/-- The character that would make the operator the start of another one. -/
def notBefore : UnaryOp → Option Char
  | not => some '='
  | neg => none
  | pos => none

def all : List UnaryOp :=
  [not, neg, pos]

theorem mem_all (o : UnaryOp) : o ∈ all := by
  cases o <;> decide

end UnaryOp

inductive BinaryOp where
  | logOr
  | logAnd
  | eq
  | ne
  | le
  | ge
  | lt
  | gt
  | add
  | sub
  | mul
  | div
  | mod
  deriving DecidableEq, Repr

namespace BinaryOp

def spelling : BinaryOp → List Char
  | logOr => ['|', '|']
  | logAnd => ['&', '&']
  | eq => ['=', '=']
  | ne => ['!', '=']
  | le => ['<', '=']
  | ge => ['>', '=']
  | lt => ['<']
  | gt => ['>']
  | add => ['+']
  | sub => ['-']
  | mul => ['*']
  | div => ['/']
  | mod => ['%']

def symbol (o : BinaryOp) : String :=
  String.ofList o.spelling

def ruleName : BinaryOp → String
  | logOr => "op_log_or"
  | logAnd => "op_log_and"
  | eq => "op_eq"
  | ne => "op_ne"
  | le => "op_le"
  | ge => "op_ge"
  | lt => "op_lt"
  | gt => "op_gt"
  | add => "op_add"
  | sub => "op_sub"
  | mul => "op_mul"
  | div => "op_div"
  | mod => "op_mod"

/-- The character that would make the operator the start of another token. -/
def notBefore : BinaryOp → Option Char
  | lt => some '='
  | gt => some '='
  | sub => some '>'
  | _ => none

def all : List BinaryOp :=
  [logOr, logAnd, eq, ne, le, ge, lt, gt, add, sub, mul, div, mod]

theorem mem_all (o : BinaryOp) : o ∈ all := by
  cases o <;> decide

end BinaryOp

inductive Level where
  | logOr
  | logAnd
  | equality
  | comparison
  | additive
  | multiplicative
  deriving DecidableEq, Repr

namespace Level

def all : List Level :=
  [logOr, logAnd, equality, comparison, additive, multiplicative]

theorem mem_all (l : Level) : l ∈ all := by
  cases l <;> decide

def tighter? : Level → Option Level
  | logOr => some logAnd
  | logAnd => some equality
  | equality => some comparison
  | comparison => some additive
  | additive => some multiplicative
  | multiplicative => none

/-- The operators of a level in the order in which they are tried: the first and the others. -/
def operators : Level → BinaryOp × List BinaryOp
  | logOr => (.logOr, [])
  | logAnd => (.logAnd, [])
  | equality => (.eq, [.ne])
  | comparison => (.le, [.ge, .lt, .gt])
  | additive => (.add, [.sub])
  | multiplicative => (.mul, [.div, .mod])

def ruleName : Level → String
  | logOr => "log_or_expr"
  | logAnd => "log_and_expr"
  | equality => "eq_expr"
  | comparison => "comp_expr"
  | additive => "add_expr"
  | multiplicative => "mul_expr"

end Level

def BinaryOp.level : BinaryOp → Level
  | .logOr => .logOr
  | .logAnd => .logAnd
  | .eq | .ne => .equality
  | .le | .ge | .lt | .gt => .comparison
  | .add | .sub => .additive
  | .mul | .div | .mod => .multiplicative

theorem BinaryOp.level_eq_iff (o : BinaryOp) (l : Level) :
    o.level = l ↔ o ∈ l.operators.1 :: l.operators.2 := by
  cases o <;> cases l <;> decide

end XiFront

import XiFront.Ast.Kind
import XiFront.Number.Binary64
import XiFront.Operator
import XiFront.Path
import XiFront.Scalar

namespace XiFront

inductive TypeShape where
  | scalar (s : Scalar)
  | self
  | path (p : Path)
  | tuple (elements : List (Handle .type))
  deriving DecidableEq

structure TypeRef where
  shape : TypeShape
  isArray : Bool
  deriving DecidableEq

inductive Literal where
  | null
  | bool (b : Bool)
  | int (n : Nat)
  | float (x : Binary64)
  | char (c : Char)
  | str (s : List Char)
  deriving DecidableEq, Repr

/-- One step of a chain of calls and accesses. -/
inductive Access where
  | call (arguments : List (Handle .expr))
  | field (name : String)
  | static (name : String)
  | index (place : Handle .expr)
  deriving DecidableEq, Repr

structure FieldInit where
  name : String
  value : Option (Handle .expr)
  deriving DecidableEq, Repr

inductive NewInit where
  | struct (fields : List FieldInit)
  | array (length : Handle .expr)
  deriving DecidableEq, Repr

inductive ExprForm where
  | literal (l : Literal)
  | name (id : String)
  | self
  | type (t : Handle .type)
  | unary (operators : List UnaryOp) (operand : Handle .expr)
  | cast (operand : Handle .expr) (types : List (Handle .type))
  | binary (first : Handle .expr) (others : List (BinaryOp × Handle .expr))
  | access (base : Handle .expr) (steps : List Access)
  | new (type : Handle .type) (init : NewInit)
  | assign (left right : Handle .expr)
  | break_ (value : Option (Handle .expr))
  | return_ (value : Option (Handle .expr))
  | continue_
  | block (stmts : List (Handle .stmt)) (tail : Option (Handle .expr))
  | if_ (condition consequence : Handle .expr) (alternative : Option (Handle .expr))
  | while_ (condition body : Handle .expr)
  deriving DecidableEq, Repr

inductive Stmt where
  | let_ (name : String) (type : Option (Handle .type)) (init : Option (Handle .expr))
  | expr (e : Handle .expr)
  deriving DecidableEq, Repr

end XiFront

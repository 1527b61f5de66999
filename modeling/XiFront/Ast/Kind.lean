namespace XiFront

inductive Kind where
  | file
  | use
  | struct
  | interface
  | enum
  | enumField
  | fn
  | field
  | global
  | param
  | attrib
  | type
  | stmt
  | expr
  deriving DecidableEq, Repr

namespace Kind

def name : Kind → String
  | file => "File"
  | use => "UseStmt"
  | struct => "Struct"
  | interface => "Interface"
  | enum => "Enum"
  | enumField => "EnumField"
  | fn => "Fn"
  | field => "Field"
  | global => "Global"
  | param => "Param"
  | attrib => "Attrib"
  | type => "Type"
  | stmt => "Stmt"
  | expr => "Expr"

def all : List Kind :=
  [file, use, struct, interface, enum, enumField, fn, field, global, param, attrib, type, stmt,
    expr]

theorem mem_all (k : Kind) : k ∈ all := by
  cases k <;> decide

def ofName? (name : String) : Option Kind :=
  all.find? (·.name = name)

end Kind

/-- Refers to the node whose meaning is of kind `k`. -/
structure Handle (k : Kind) where
  id : Nat
  deriving DecidableEq, Repr

end XiFront

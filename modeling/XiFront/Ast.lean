import XiFront.Ast.Expr

namespace XiFront

structure FileDecl where
  uses : List (Handle .use)
  interfaces : List (Handle .interface)
  structs : List (Handle .struct)
  enums : List (Handle .enum)
  fns : List (Handle .fn)
  globals : List (Handle .global)
  deriving DecidableEq

structure UseDecl where
  path : Path
  localName : Option String
  deriving DecidableEq

structure StructDecl where
  id : String
  generics : List String
  impls : List Path
  attribs : List (Handle .attrib)
  fields : List (Handle .field)
  fns : List (Handle .fn)
  methods : List (Handle .fn)
  deriving DecidableEq

structure InterfaceDecl where
  id : String
  generics : List String
  impls : List Path
  attribs : List (Handle .attrib)
  fns : List (Handle .fn)
  methods : List (Handle .fn)
  deriving DecidableEq

structure EnumDecl where
  id : String
  generics : List String
  attribs : List (Handle .attrib)
  fields : List (Handle .enumField)
  fns : List (Handle .fn)
  methods : List (Handle .fn)
  deriving DecidableEq

structure EnumField where
  id : String
  type : Option (Handle .type)
  deriving DecidableEq

structure FnDecl where
  id : String
  generics : List String
  attribs : List (Handle .attrib)
  hasSelf : Bool
  params : List (Handle .param)
  result : Option (Handle .type)
  body : Option (Handle .expr)
  deriving DecidableEq

structure FieldDecl where
  id : String
  type : Handle .type
  deriving DecidableEq

structure GlobalDecl where
  id : String
  type : Handle .type
  value : Handle .expr
  deriving DecidableEq

structure ParamDecl where
  id : String
  type : Handle .type
  deriving DecidableEq

structure AttribDecl where
  id : String
  arguments : Option (List (Handle .expr))
  deriving DecidableEq

inductive Ast where
  | file (d : FileDecl)
  | use (d : UseDecl)
  | struct (d : StructDecl)
  | interface (d : InterfaceDecl)
  | enum (d : EnumDecl)
  | enumField (d : EnumField)
  | fn (d : FnDecl)
  | method (d : FnDecl)
  | field (d : FieldDecl)
  | global (d : GlobalDecl)
  | param (d : ParamDecl)
  | attrib (d : AttribDecl)
  | type (t : TypeRef)
  | stmt (s : Stmt)
  | expr (e : ExprForm)
  deriving DecidableEq

namespace Ast

/-- A method is a function. -/
def kind : Ast → Kind
  | file _ => .file
  | use _ => .use
  | struct _ => .struct
  | interface _ => .interface
  | enum _ => .enum
  | enumField _ => .enumField
  | fn _ => .fn
  | method _ => .fn
  | field _ => .field
  | global _ => .global
  | param _ => .param
  | attrib _ => .attrib
  | type _ => .type
  | stmt _ => .stmt
  | expr _ => .expr

def kindName : Ast → String
  | method _ => "Method"
  | a => a.kind.name

def ids (handles : List (Handle k)) : List Nat :=
  handles.map Handle.id

/-- The members that a declaration lists under a name: their kind and their numbers. -/
def members? (a : Ast) (name : String) : Option (Kind × List Nat) :=
  match a, name with
  | file d, "uses" => some (.use, ids d.uses)
  | file d, "interfaces" => some (.interface, ids d.interfaces)
  | file d, "structs" => some (.struct, ids d.structs)
  | file d, "enums" => some (.enum, ids d.enums)
  | file d, "fns" => some (.fn, ids d.fns)
  | file d, "globals" => some (.global, ids d.globals)
  | struct d, "attribs" => some (.attrib, ids d.attribs)
  | struct d, "fields" => some (.field, ids d.fields)
  | struct d, "fns" => some (.fn, ids d.fns)
  | struct d, "methods" => some (.fn, ids d.methods)
  | interface d, "attribs" => some (.attrib, ids d.attribs)
  | interface d, "fns" => some (.fn, ids d.fns)
  | interface d, "methods" => some (.fn, ids d.methods)
  | enum d, "attribs" => some (.attrib, ids d.attribs)
  | enum d, "fields" => some (.enumField, ids d.fields)
  | enum d, "fns" => some (.fn, ids d.fns)
  | enum d, "methods" => some (.fn, ids d.methods)
  | fn d, "attribs" => some (.attrib, ids d.attribs)
  | fn d, "params" => some (.param, ids d.params)
  | method d, "attribs" => some (.attrib, ids d.attribs)
  | method d, "params" => some (.param, ids d.params)
  | attrib d, "args" => d.arguments.map fun arguments => (.expr, ids arguments)
  | type ⟨.tuple elements, _⟩, "tuple" => some (.type, ids elements)
  | expr (.block stmts _), "stmts" => some (.stmt, ids stmts)
  | _, _ => none

end Ast

end XiFront

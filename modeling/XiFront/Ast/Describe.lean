import XiFront.Ast
import XiFront.Number.Layout
import XiFront.Text.Quoted

namespace XiFront

def describeGenerics (names : List String) : String :=
  if names.isEmpty then "" else "<" ++ ", ".intercalate names ++ ">"

namespace Literal

/-- A literal as it could be written in a source. -/
def describe : Literal → String
  | null => "null"
  | bool b => if b then "true" else "false"
  | int n => toString n
  | float x => String.ofList x.render
  | char c => String.ofList (Quoted.char c)
  | str s => String.ofList (Quoted.string s)

end Literal

namespace FnDecl

def describe (d : FnDecl) : String :=
  (if d.hasSelf then "Method " else "Fn ") ++ d.id ++ describeGenerics d.generics

end FnDecl

namespace TypeRef

def describe (t : TypeRef) : String :=
  let shape :=
    match t.shape with
    | .scalar s => s.word
    | .self => "Self"
    | .path p => p.render
    | .tuple elements => "tuple(" ++ toString elements.length ++ ")"
  "Type " ++ shape ++ if t.isArray then "[]" else ""

end TypeRef

namespace Stmt

def describe : Stmt → String
  | let_ name _ _ => "Stmt let " ++ name
  | expr _ => "Stmt expr"

end Stmt

namespace ExprForm

def describe (e : ExprForm) : String :=
  let form :=
    match e with
    | literal l => l.describe
    | name id => "id " ++ id
    | self => "self"
    | type _ => "type"
    | unary operators _ => "unary " ++ String.join (operators.map UnaryOp.symbol)
    | cast _ types => "cast(" ++ toString types.length ++ ")"
    | binary _ others =>
        "binary " ++ " ".intercalate (others.map fun (o, _) => o.symbol)
    | access _ steps => "postfix(" ++ toString steps.length ++ ")"
    | new _ (.struct fields) => "new struct(" ++ toString fields.length ++ ")"
    | new _ (.array _) => "new array"
    | assign _ _ => "assign"
    | break_ _ => "break"
    | return_ _ => "return"
    | continue_ => "continue"
    | block stmts tail =>
        "block(" ++ toString stmts.length ++ " stmts" ++ (if tail.isSome then ", tail" else "") ++
          ")"
    | if_ _ _ alternative => if alternative.isSome then "if else" else "if"
    | while_ _ _ => "while"
  "Expr " ++ form

end ExprForm

namespace Ast

def describe : Ast → String
  | file d =>
      "File (" ++ toString d.uses.length ++ " uses, " ++
        toString d.interfaces.length ++ " interfaces, " ++
        toString d.structs.length ++ " structs, " ++
        toString d.enums.length ++ " enums, " ++
        toString d.fns.length ++ " fns, " ++
        toString d.globals.length ++ " globals)"
  | use d =>
      "UseStmt " ++ d.path.render ++
        match d.localName with
        | some name => " as " ++ name
        | none => ""
  | struct d => "Struct " ++ d.id ++ describeGenerics d.generics
  | interface d => "Interface " ++ d.id ++ describeGenerics d.generics
  | enum d => "Enum " ++ d.id ++ describeGenerics d.generics
  | enumField d => "EnumField " ++ d.id
  | fn d => d.describe
  | method d => d.describe
  | field d => "Field " ++ d.id
  | global d => "Global " ++ d.id
  | param d => "Param " ++ d.id
  | attrib d =>
      "Attrib " ++ d.id ++
        match d.arguments with
        | some arguments => "(" ++ toString arguments.length ++ " args)"
        | none => ""
  | type t => t.describe
  | stmt s => s.describe
  | expr e => e.describe

end Ast

end XiFront

import XiFront.Lowering.Expr
import XiFront.Lowering.Item
import XiFront.Tree

namespace XiFront

namespace Rule

def isExpr : Rule → Bool
  | .ident | .kw .lowerSelf | .kw .null | .kw .true_ | .kw .false_ | .kw .continue_
  | .intLiteral | .floatLiteral | .charLiteral | .strLiteral | .typeExpr | .unaryExpr
  | .castExpr | .chain _ | .callExpr | .newExpr | .assignExpr | .breakExpr | .returnExpr
  | .blockExpr | .ifExpr | .whileExpr => true
  | _ => false

/-- Whether the nodes of a rule have a meaning of their own. -/
def hasMeaning : Rule → Bool
  | .file | .useStmt | .structDecl | .interfaceDecl | .enumDecl | .enumField | .fnDecl
  | .methodDecl | .field | .global | .param | .attrib | .ty | .letStmt | .exprStmt => true
  | r => r.isExpr

end Rule

namespace Lowering

variable {m : Type → Type} [Monad m] [MonadExcept Error m]

def lower (source : Source) (visit : Node → m TypeRef → m TypeRef) (n : Node) : m Ast :=
  match n.rule with
  | .file => .file <$> MonadExcept.ofExcept (fileDecl n)
  | .useStmt => .use <$> useDecl source visit n
  | .structDecl => .struct <$> structDecl source visit n
  | .interfaceDecl => .interface <$> interfaceDecl source visit n
  | .enumDecl => .enum <$> enumDecl source visit n
  | .enumField => .enumField <$> MonadExcept.ofExcept (enumField n source)
  | .fnDecl => .fn <$> MonadExcept.ofExcept (fnDecl n source)
  | .methodDecl => .method <$> MonadExcept.ofExcept (fnDecl n source)
  | .field => .field <$> MonadExcept.ofExcept (fieldDecl n source)
  | .param => .param <$> MonadExcept.ofExcept (paramDecl n source)
  | .global => .global <$> MonadExcept.ofExcept (globalDecl n source)
  | .attrib => .attrib <$> MonadExcept.ofExcept (attribDecl n source)
  | .ty => .type <$> typeOf source visit n
  | .letStmt => .stmt <$> MonadExcept.ofExcept (letStmt n source)
  | .exprStmt => .stmt <$> MonadExcept.ofExcept (exprStmt n)
  | r =>
      if r.isExpr then .expr <$> MonadExcept.ofExcept (expr n source)
      else throw (n.drift "no lowering registered for this rule")

/-- The error for a meaning of another kind than was asked for. -/
def kindError (n : Node) (k : Kind) (found : Ast) : Error :=
  n.drift ("expected " ++ k.name ++ " payload, found " ++ found.kindName)

end Lowering

namespace Tree

def meaning (t : Tree) (n : Node) : Except Error Ast :=
  Lowering.lower t.source (fun _ inner => inner) n

def path (t : Tree) (n : Node) : Except Error Path :=
  Lowering.pathOf t.source (fun _ inner => inner) n

end Tree

end XiFront

import XiFront.Ast.Expr
import XiFront.Lowering.Parts
import XiFront.Text.Escape

namespace XiFront.Lowering

def intLimit : Nat :=
  Nat.pow 2 64

def intLiteral (n : Node) (source : Source) : Except Error Literal :=
  let digits := n.text source
  let value := Decimal.ofDigits 0 digits
  if value < intLimit then pure (.int value)
  else
    throw
      (.malformed n.position
        ("invalid integer literal '" ++ String.ofList digits ++
          "': number too large to fit in target type"))

def floatLiteral (n : Node) (source : Source) : Literal :=
  .float (.ofDecimal (.ofLiteral (n.text source)))

def decoded (n : Node) (source : Source) : Except Error (List Char) :=
  match Escape.decode (Escape.stripQuotes (n.text source)) with
  | .ok text => pure text
  | .error fault => throw (.malformed n.position fault.message)

def charLiteral (n : Node) (source : Source) : Except Error Literal := do
  match ← decoded n source with
  | [c] => pure (.char c)
  | _ =>
      throw
        (.malformed n.position
          ("character literal " ++ n.name source ++ " is not one character"))

def strLiteral (n : Node) (source : Source) : Except Error Literal := do
  let text ← decoded n source
  pure (.str text)

def unaryOps (n : Node) : List Node → Except Error (List UnaryOp)
  | [] => pure []
  | c :: cs =>
      match c.rule with
      | .unary o => do
          let others ← unaryOps n cs
          pure (o :: others)
      | _ => throw (n.unexpected c)

def unary (n : Node) : Except Error ExprForm :=
  match n.children.getLast? with
  | none => throw (n.drift "empty unary expression")
  | some operand => do
      let operators ← unaryOps n n.children.dropLast
      pure (.unary operators operand.handle)

def castTypes (n : Node) : List Node → Except Error (List (Handle .type))
  | [] => pure []
  | c :: cs =>
      if c.rule = .ty then do
        let others ← castTypes n cs
        pure (c.handle :: others)
      else throw (n.unexpected c)

def cast (n : Node) : Except Error ExprForm := do
  let operand ← n.child 0
  let types ← castTypes n n.children.tail
  pure (.cast operand.handle types)

def binaryOps (n : Node) : List Node → Except Error (List (BinaryOp × Handle .expr))
  | [] => pure []
  | [_] => throw (n.drift "operator without right operand")
  | c :: operand :: cs =>
      match c.rule with
      | .binary o => do
          let others ← binaryOps n cs
          pure ((o, operand.handle) :: others)
      | _ => throw (n.unexpected c)

def binary (n : Node) : Except Error ExprForm := do
  let first ← n.child 0
  let others ← binaryOps n n.children.tail
  pure (.binary first.handle others)

def accessStep (n : Node) (source : Source) (c : Node) : Except Error Access :=
  match c.rule with
  | .args => pure (.call c.handles)
  | .fieldAccess => do
      let name ← c.identAt source 0
      pure (.field name)
  | .staticAccess => do
      let name ← c.identAt source 0
      pure (.static name)
  | .indexAccess => do
      let place ← c.child 0
      pure (.index place.handle)
  | _ => throw (n.unexpected c)

def access (n : Node) (source : Source) : Except Error ExprForm := do
  let base ← n.child 0
  let steps ← n.children.tail.mapM (accessStep n source)
  pure (.access base.handle steps)

def fieldInit (source : Source) (c : Node) : Except Error FieldInit :=
  if c.rule = .fieldInit then do
    let name ← c.identAt source 0
    pure ⟨name, c.children[1]?.map Node.handle⟩
  else throw (c.drift "expected a struct_field_init node")

def newInit (n : Node) (source : Source) (c : Node) : Except Error NewInit :=
  match c.rule with
  | .structInit => do
      let fields ← c.children.mapM (fieldInit source)
      pure (.struct fields)
  | .indexAccess => do
      let length ← c.child 0
      pure (.array length.handle)
  | _ => throw (n.unexpected c)

def new (n : Node) (source : Source) : Except Error ExprForm := do
  let type ← n.childOf 0 .ty
  let c ← n.child 1
  let init ← newInit n source c
  pure (.new type.handle init)

def assign (n : Node) : Except Error ExprForm := do
  let left ← n.child 0
  let right ← n.child 1
  pure (.assign left.handle right.handle)

def isStmt (c : Node) : Bool :=
  c.rule = .letStmt || c.rule = .exprStmt

def block (n : Node) : Except Error ExprForm :=
  let stmts := (n.children.takeWhile isStmt).map Node.handle
  match n.children.dropWhile isStmt with
  | [] => pure (.block stmts none)
  | [tail] => pure (.block stmts (some tail.handle))
  | _ :: c :: _ => throw (n.unexpected c)

def conditional (n : Node) : Except Error ExprForm := do
  let condition ← n.child 0
  let consequence ← n.childOf 1 .blockExpr
  pure (.if_ condition.handle consequence.handle (n.children[2]?.map Node.handle))

def loop (n : Node) : Except Error ExprForm := do
  let condition ← n.child 0
  let body ← n.childOf 1 .blockExpr
  pure (.while_ condition.handle body.handle)

def expr (n : Node) (source : Source) : Except Error ExprForm :=
  match n.rule with
  | .ident => pure (.name (n.name source))
  | .kw .lowerSelf => pure .self
  | .kw .null => pure (.literal .null)
  | .kw .true_ => pure (.literal (.bool true))
  | .kw .false_ => pure (.literal (.bool false))
  | .kw .continue_ => pure .continue_
  | .intLiteral => .literal <$> intLiteral n source
  | .floatLiteral => pure (.literal (floatLiteral n source))
  | .charLiteral => .literal <$> charLiteral n source
  | .strLiteral => .literal <$> strLiteral n source
  | .typeExpr => do
      let type ← n.childOf 0 .ty
      pure (.type type.handle)
  | .unaryExpr => unary n
  | .castExpr => cast n
  | .chain _ => binary n
  | .callExpr => access n source
  | .newExpr => new n source
  | .assignExpr => assign n
  | .breakExpr => pure (.break_ (n.children.head?.map Node.handle))
  | .returnExpr => pure (.return_ (n.children.head?.map Node.handle))
  | .blockExpr => block n
  | .ifExpr => conditional n
  | .whileExpr => loop n
  | _ => throw (n.drift "no expression lowering for this rule")

def patternName (n : Node) (source : Source) (c : Node) : Except Error String :=
  match c.rule with
  | .ident => pure (c.name source)
  | .tuplePattern => throw (.unsupported c.position "tuple pattern")
  | _ => throw (n.unexpected c)

def letParts (n : Node) (type : Option (Handle .type)) (init : Option (Handle .expr)) :
    List Node → Except Error (Option (Handle .type) × Option (Handle .expr))
  | [] => pure (type, init)
  | c :: cs =>
      match c.rule with
      | .ty => letParts n (some c.handle) init cs
      | .letInit => do
          let value ← c.child 0
          letParts n type (some value.handle) cs
      | _ => throw (n.unexpected c)

def letStmt (n : Node) (source : Source) : Except Error Stmt := do
  let c ← n.child 0
  let name ← patternName n source c
  let (type, init) ← letParts n none none n.children.tail
  pure (.let_ name type init)

def exprStmt (n : Node) : Except Error Stmt := do
  let c ← n.child 0
  pure (.expr c.handle)

end XiFront.Lowering

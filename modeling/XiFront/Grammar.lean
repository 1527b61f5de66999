import XiFront.Peg.Expr
import XiFront.Rule
import XiFront.Scalar

namespace XiFront

open Peg
open Peg.Expr

namespace Rule

def symbol (c : Char) : Expr Rule :=
  text [c]

def upTo (stop : Expr Rule) : Expr Rule :=
  star (seq (neg stop) (char .any))

/-- Any number of items between two brackets; a comma follows each but perhaps the last. -/
def bracketed (left : Char) (item : Expr Rule) (right : Char) : Expr Rule :=
  inOrder (symbol left) [star (seq item (symbol ',')), opt item, symbol right]

def separated (separator : Expr Rule) (item : Expr Rule) : Expr Rule :=
  seq item (star (seq separator item))

def operator (spelling : List Char) : Option Char → Expr Rule
  | none => text spelling
  | some c => seq (text spelling) (neg (symbol c))

def newline : Expr Rule :=
  oneOf (symbol '\n') [text ['\r', '\n'], symbol '\r']

/-- A word of the language must not go on as an identifier. -/
def wordBody (spelling : List Char) : Expr Rule :=
  seq (text spelling) (neg (rule identChar))

def identBody : Expr Rule :=
  inOrder (neg (rule keyword)) [alt (char .letter) (symbol '_'), star (rule identChar)]

def pathBody : Expr Rule :=
  inOrder (star (rule dot))
    [opt (text [':', ':']), rule segment, star (seq (text [':', ':']) (rule segment))]

/-- The operand of a level is the next tighter level, and below the tightest a cast. -/
def operand (l : Level) : Expr Rule :=
  match l.tighter? with
  | some next => rule (chain next)
  | none => rule castExpr

def chainBody (l : Level) : Expr Rule :=
  seq (operand l)
    (star
      (seq (oneOf (rule (binary l.operators.1)) (l.operators.2.map fun o => rule (binary o)))
        (operand l)))

/-- A function or method: the two differ in their parameters. -/
def functionBody (parameters : Expr Rule) : Expr Rule :=
  inOrder (star (rule attribList))
    [rule (kw .fn), rule ident, opt (rule genericParams), parameters,
      opt (seq (text ['-', '>']) (rule ty)), alt (rule blockExpr) (symbol ';')]

def declaration (word : Keyword) (afterName : List (Expr Rule)) : Expr Rule :=
  inOrder (star (rule attribList)) (rule (kw word) :: rule ident :: opt (rule genericParams) ::
    afterName)

def production : Rule → Production Rule
  | endOfInput => .plain finish
  | whitespace => .blank (oneOf (symbol ' ') [symbol '\t', newline])
  | comment =>
      .blank
        (alt (seq (text ['/', '/']) (upTo newline))
          (inOrder (text ['/', '*']) [upTo (text ['*', '/']), text ['*', '/']]))
  | identChar => .silent (alt (char .alphanumeric) (symbol '_'))
  | kw k => .token (wordBody k.spelling)
  | keyword =>
      .token (oneOf (rule (kw .as_)) (Keyword.all.tail.map fun k => rule (kw k)))
  | ident => .token identBody
  | intLiteral => .token (plus (char .digit))
  | floatLiteral =>
      .token
        (inOrder (plus (char .digit)) [symbol '.', plus (char .digit), opt (rule exponent)])
  | exponent =>
      .silent
        (inOrder (alt (symbol 'e') (symbol 'E'))
          [opt (alt (symbol '+') (symbol '-')), plus (char .digit)])
  | charLiteral => .token (inOrder (symbol '\'') [rule character, symbol '\''])
  | strLiteral =>
      .token
        (inOrder (symbol '"') [star (seq (neg (symbol '"')) (rule character)), symbol '"'])
  | character => .silent (alt (rule escaped) (rule regular))
  | regular =>
      .silent (seq (neg (oneOf (symbol '\r') [symbol '\n', symbol '\\'])) (char .any))
  | escaped =>
      .silent
        (seq (symbol '\\')
          (oneOf (rule hexByte) [rule decByte, rule uniChar, rule single, rule spaces]))
  | hexByte => .silent (inOrder (symbol 'x') [char .hexDigit, char .hexDigit])
  | decByte => .silent (inOrder (char .digit) [opt (char .digit), opt (char .digit)])
  | uniChar =>
      .silent (inOrder (text ['u', '\x7b']) [plus (char .hexDigit), symbol '\x7d'])
  | single =>
      .silent
        (oneOf (symbol 'a')
          [symbol 'b', symbol 'f', symbol 'n', symbol 'r', symbol 't', symbol 'v',
            symbol '\\', symbol '"', symbol '\'', symbol '\n'])
  | spaces =>
      .silent
        (seq (symbol 'z') (star (oneOf (symbol ' ') [symbol '\t', symbol '\r', symbol '\n'])))
  | binary o => .token (operator o.spelling o.notBefore)
  | unary o => .token (operator o.spelling o.notBefore)
  | dot => .plain (symbol '.')
  | generics =>
      .silent (inOrder (symbol '<') [rule ty, star (seq (symbol ',') (rule ty)), symbol '>'])
  | segment =>
      .plain
        (seq (oneOf (rule ident) [rule basicType, rule (kw .upperSelf)]) (opt (rule generics)))
  | path => .plain pathBody
  | basicType =>
      .plain (oneOf (rule (kw .bool)) (Scalar.all.tail.map fun s => rule (kw s.keyword)))
  | tupleType => .plain (bracketed '(' (rule ty) ')')
  | nonArrayType =>
      .plain (oneOf (rule basicType) [rule (kw .upperSelf), rule path, rule tupleType])
  | arraySuffix => .plain (seq (symbol '[') (symbol ']'))
  | ty => .plain (seq (rule nonArrayType) (opt (rule arraySuffix)))
  | pattern => .silent (alt (rule ident) (rule tuplePattern))
  | tuplePattern => .plain (bracketed '(' (rule pattern) ')')
  | expr => .plain (alt (rule exprWithoutBlock) (rule exprWithBlock))
  | exprWithoutBlock =>
      .plain (oneOf (rule (kw .continue_)) [rule breakExpr, rule returnExpr, rule assignExpr])
  | exprWithBlock => .plain (oneOf (rule blockExpr) [rule ifExpr, rule whileExpr])
  | breakExpr => .plain (seq (rule (kw .break_)) (opt (rule expr)))
  | returnExpr => .plain (seq (rule (kw .return_)) (opt (rule expr)))
  | assignExpr =>
      .plain
        (seq (rule (chain .logOr))
          (opt (inOrder (symbol '=') [neg (symbol '='), rule (chain .logOr)])))
  | chain l => .plain (chainBody l)
  | castExpr => .plain (seq (rule unaryExpr) (star (seq (rule (kw .as_)) (rule ty))))
  | unaryExpr =>
      .plain
        (seq (star (oneOf (rule (unary .not)) [rule (unary .neg), rule (unary .pos)]))
          (rule callExpr))
  | callExpr =>
      .plain
        (seq (rule primaryExpr)
          (star
            (oneOf (rule args) [rule fieldAccess, rule staticAccess, rule indexAccess])))
  | args => .plain (bracketed '(' (rule expr) ')')
  | fieldAccess => .plain (seq (symbol '.') (rule ident))
  | staticAccess => .plain (seq (text [':', ':']) (rule ident))
  | indexAccess => .plain (inOrder (symbol '[') [rule expr, symbol ']'])
  | primaryExpr =>
      .plain
        (oneOf (rule literalExpr)
          [rule (kw .lowerSelf), rule groupedExpr, rule exprWithBlock, rule newExpr, rule ident,
            rule typeExpr])
  | literalExpr =>
      .plain
        (oneOf (rule (kw .null))
          [rule (kw .true_), rule (kw .false_), rule floatLiteral, rule intLiteral,
            rule charLiteral, rule strLiteral])
  | groupedExpr => .plain (inOrder (symbol '(') [rule expr, symbol ')'])
  | typeExpr => .plain (rule ty)
  | newExpr =>
      .plain (inOrder (rule (kw .new)) [rule ty, alt (rule structInit) (rule indexAccess)])
  | structInit => .plain (bracketed '\x7b' (rule fieldInit) '\x7d')
  | fieldInit => .plain (seq (rule ident) (opt (seq (symbol ':') (rule expr))))
  | letStmt =>
      .plain
        (inOrder (rule (kw .let_))
          [rule pattern, opt (seq (symbol ':') (rule ty)), opt (rule letInit), symbol ';'])
  | letInit => .plain (seq (symbol '=') (rule expr))
  | exprStmt =>
      .plain
        (alt (seq (rule exprWithBlock) (opt (symbol ';')))
          (seq (rule exprWithoutBlock) (symbol ';')))
  | stmt => .silent (alt (rule letStmt) (rule exprStmt))
  | blockExpr =>
      .plain
        (inOrder (symbol '\x7b')
          [star (rule stmt), opt (rule exprWithoutBlock), symbol '\x7d'])
  | ifExpr =>
      .plain
        (inOrder (rule (kw .if_))
          [rule expr, rule blockExpr,
            opt (seq (rule (kw .else_)) (alt (rule blockExpr) (rule ifExpr)))])
  | whileExpr => .plain (inOrder (rule (kw .while_)) [rule expr, rule blockExpr])
  | attrib => .plain (seq (rule ident) (opt (rule args)))
  | attribList => .silent (seq (symbol '#') (bracketed '[' (rule attrib) ']'))
  | genericParams =>
      .plain
        (inOrder (symbol '<')
          [rule ident, star (seq (symbol ',') (rule ident)), opt (symbol ','), symbol '>'])
  | param => .plain (inOrder (rule ident) [symbol ':', rule ty])
  | fnParams => .plain (bracketed '(' (rule param) ')')
  | methodParams =>
      .plain
        (inOrder (symbol '(')
          [rule (kw .lowerSelf), star (seq (symbol ',') (rule param)), opt (symbol ','),
            symbol ')'])
  | fnDecl => .plain (functionBody (rule fnParams))
  | methodDecl => .plain (functionBody (rule methodParams))
  | field => .plain (inOrder (rule ident) [symbol ':', rule ty])
  | global =>
      .plain
        (inOrder (rule (kw .const))
          [rule ident, symbol ':', rule ty, symbol '=', rule expr, symbol ';'])
  | impls => .plain (seq (symbol ':') (separated (symbol ',') (rule path)))
  | structDecl =>
      .plain
        (declaration .struct
          [opt (rule impls), symbol '\x7b',
            star
              (seq (oneOf (rule methodDecl) [rule fnDecl, rule field]) (opt (symbol ','))),
            symbol '\x7d'])
  | interfaceDecl =>
      .plain
        (declaration .interface
          [opt (rule impls), symbol '\x7b', star (alt (rule methodDecl) (rule fnDecl)),
            symbol '\x7d'])
  | enumField =>
      .plain
        (seq (rule ident) (opt (inOrder (symbol '(') [opt (rule ty), symbol ')'])))
  | enumDecl =>
      .plain
        (declaration .enum
          [symbol '\x7b', star (seq (rule enumField) (opt (symbol ','))),
            star (alt (rule methodDecl) (rule fnDecl)), symbol '\x7d'])
  | useStmt =>
      .plain
        (inOrder (rule (kw .use))
          [rule path, opt (seq (rule (kw .as_)) (rule ident)), symbol ';'])
  | item =>
      .silent
        (oneOf (rule useStmt)
          [rule structDecl, rule interfaceDecl, rule enumDecl, rule fnDecl, rule global])
  | file => .plain (inOrder start [star (rule item), rule endOfInput])

end Rule

def filler : Expr Rule :=
  seq (star (rule .whitespace))
    (star (seq (rule .comment) (star (rule .whitespace))))

/-- The grammar of Xi. -/
def grammar : Grammar Rule where
  production := Rule.production
  filler := filler
  depth := 256

end XiFront

import XiFront.Keyword
import XiFront.Operator

namespace XiFront

inductive Rule where
  | endOfInput
  | whitespace
  | comment
  | identChar
  | kw (k : Keyword)
  | keyword
  | ident
  | intLiteral
  | floatLiteral
  | exponent
  | charLiteral
  | strLiteral
  | character
  | regular
  | escaped
  | hexByte
  | decByte
  | uniChar
  | single
  | spaces
  | binary (o : BinaryOp)
  | unary (o : UnaryOp)
  | dot
  | generics
  | segment
  | path
  | basicType
  | tupleType
  | nonArrayType
  | arraySuffix
  | ty
  | pattern
  | tuplePattern
  | expr
  | exprWithoutBlock
  | exprWithBlock
  | breakExpr
  | returnExpr
  | assignExpr
  | chain (l : Level)
  | castExpr
  | unaryExpr
  | callExpr
  | args
  | fieldAccess
  | staticAccess
  | indexAccess
  | primaryExpr
  | literalExpr
  | groupedExpr
  | typeExpr
  | newExpr
  | structInit
  | fieldInit
  | letStmt
  | letInit
  | exprStmt
  | stmt
  | blockExpr
  | ifExpr
  | whileExpr
  | attrib
  | attribList
  | genericParams
  | param
  | fnParams
  | methodParams
  | fnDecl
  | methodDecl
  | field
  | global
  | impls
  | structDecl
  | interfaceDecl
  | enumField
  | enumDecl
  | useStmt
  | item
  | file
  deriving DecidableEq, Repr

namespace Rule

def name : Rule → String
  | endOfInput => "EOI"
  | whitespace => "WHITESPACE"
  | comment => "COMMENT"
  | identChar => "ident_char"
  | kw k => k.ruleName
  | keyword => "keyword"
  | ident => "id"
  | intLiteral => "int_literal"
  | floatLiteral => "float_literal"
  | exponent => "exponent"
  | charLiteral => "char_literal"
  | strLiteral => "str_literal"
  | character => "character"
  | regular => "regular"
  | escaped => "escaped"
  | hexByte => "hex_byte"
  | decByte => "dec_byte"
  | uniChar => "uni_char"
  | single => "single"
  | spaces => "spaces"
  | binary o => o.ruleName
  | unary o => o.ruleName
  | dot => "dot"
  | generics => "generics"
  | segment => "id_g"
  | path => "path"
  | basicType => "basic_type"
  | tupleType => "tuple_type"
  | nonArrayType => "non_arr_type"
  | arraySuffix => "arr_suffix"
  | ty => "ty"
  | pattern => "pattern"
  | tuplePattern => "tuple_pattern"
  | expr => "expr"
  | exprWithoutBlock => "expr_wo_block"
  | exprWithBlock => "expr_w_block"
  | breakExpr => "break_expr"
  | returnExpr => "ret_expr"
  | assignExpr => "assign_expr"
  | chain l => l.ruleName
  | castExpr => "cast_expr"
  | unaryExpr => "unary_expr"
  | callExpr => "call_expr"
  | args => "args"
  | fieldAccess => "obj_acc_expr"
  | staticAccess => "path_acc_expr"
  | indexAccess => "arr_acc_expr"
  | primaryExpr => "primary_expr"
  | literalExpr => "literal_expr"
  | groupedExpr => "grouped_expr"
  | typeExpr => "type_expr"
  | newExpr => "new_expr"
  | structInit => "struct_init_expr"
  | fieldInit => "struct_field_init"
  | letStmt => "let_stmt"
  | letInit => "let_init"
  | exprStmt => "expr_stmt"
  | stmt => "stmt"
  | blockExpr => "block_expr"
  | ifExpr => "if_expr"
  | whileExpr => "while_expr"
  | attrib => "attrib"
  | attribList => "attrib_lst"
  | genericParams => "generic_params"
  | param => "param"
  | fnParams => "fn_params"
  | methodParams => "method_params"
  | fnDecl => "fn_decl"
  | methodDecl => "method_decl"
  | field => "field"
  | global => "global"
  | impls => "impls"
  | structDecl => "struct_decl"
  | interfaceDecl => "interface_decl"
  | enumField => "enum_field"
  | enumDecl => "enum_decl"
  | useStmt => "use_stmt"
  | item => "item"
  | file => "file"

/-- Every rule but the end of input, in the order of definition. -/
def defined : List Rule :=
  [whitespace, comment, identChar] ++
  Keyword.all.map kw ++
  [keyword, ident, intLiteral, floatLiteral, exponent, charLiteral, strLiteral, character,
    regular, escaped, hexByte, decByte, uniChar, single, spaces] ++
  BinaryOp.all.map binary ++
  UnaryOp.all.map unary ++
  [dot, generics, segment, path, basicType, tupleType, nonArrayType, arraySuffix, ty,
    pattern, tuplePattern, expr, exprWithoutBlock, exprWithBlock, breakExpr, returnExpr,
    assignExpr] ++
  Level.all.map chain ++
  [castExpr, unaryExpr, callExpr, args, fieldAccess, staticAccess, indexAccess, primaryExpr,
    literalExpr, groupedExpr, typeExpr, newExpr, structInit, fieldInit, letStmt, letInit,
    exprStmt, stmt, blockExpr, ifExpr, whileExpr, attrib, attribList, genericParams, param,
    fnParams, methodParams, fnDecl, methodDecl, field, global, impls, structDecl,
    interfaceDecl, enumField, enumDecl, useStmt, item, file]

def all : List Rule :=
  endOfInput :: defined

theorem mem_all (r : Rule) : r ∈ all := by
  cases r with
  | kw k => simp [all, defined, Keyword.mem_all]
  | binary o => simp [all, defined, BinaryOp.mem_all]
  | unary o => simp [all, defined, UnaryOp.mem_all]
  | chain l => simp [all, defined, Level.mem_all]
  | _ => decide +kernel

def ofName? (name : String) : Option Rule :=
  all.find? (·.name = name)

end Rule

end XiFront

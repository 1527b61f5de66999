import XiFront.Tree

namespace XiFront.Dot

def labelLimit : Nat :=
  24

def truncate (text : List Char) : List Char :=
  if labelLimit < text.length then text.take labelLimit ++ ['.', '.', '.'] else text

def escapeChar : Char → List Char
  | '"' => ['\\', '"']
  | '\\' => ['\\', '\\']
  | '\n' => ['\\', 'n']
  | '\r' => [' ']
  | '\t' => [' ']
  | c => [c]

def escape (text : List Char) : List Char :=
  text.flatMap escapeChar

def nodeName (id : Nat) : List Char :=
  'n' :: (toString id).toList

def label (t : Tree) (n : Node) : List Char :=
  n.rule.name.toList ++ ' ' :: n.position.render.toList ++
    if n.children.isEmpty then '\\' :: 'n' :: escape (truncate (t.text n)) else []

def nodeLine (t : Tree) (n : Node) : List Char :=
  "    ".toList ++ nodeName n.id ++ " [label=\"".toList ++ label t n ++ "\"];\n".toList

def edgeLine (parent child : Node) : List Char :=
  "    ".toList ++ nodeName parent.id ++ " -> ".toList ++ nodeName child.id ++ ";\n".toList

def lines (t : Tree) (n : Node) : List (List Char) :=
  nodeLine t n :: n.children.map (edgeLine n)

def header : List (List Char) :=
  ["digraph parse_tree \x7b\n".toList,
    "    node [shape=box, fontname=\"monospace\"];\n".toList]

def footer : List Char :=
  ['\x7d', '\n']

def render (t : Tree) : List Char :=
  (header ++ t.nodes.flatMap (lines t) ++ [footer]).flatten

end XiFront.Dot

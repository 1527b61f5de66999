namespace XiFront

inductive Json where
  | null
  | num (n : Nat)
  | str (s : List Char)
  | arr (elements : List Json)
  | obj (members : List (String × Json))

namespace Json

def text (s : String) : Json :=
  str s.toList

/-- An object with its members in the order of their names. -/
def object (members : List (String × Json)) : Json :=
  obj (members.mergeSort fun a b => decide (a.1 ≤ b.1))

def hexDigit (n : Nat) : Char :=
  Nat.digitChar n

def escapeChar (c : Char) : List Char :=
  match c with
  | '"' => ['\\', '"']
  | '\\' => ['\\', '\\']
  | '\x08' => ['\\', 'b']
  | '\x0c' => ['\\', 'f']
  | '\n' => ['\\', 'n']
  | '\r' => ['\\', 'r']
  | '\t' => ['\\', 't']
  | c =>
      if c.toNat < 32 then
        ['\\', 'u', '0', '0', hexDigit (c.toNat / 16), hexDigit (c.toNat % 16)]
      else [c]

def quote (s : List Char) : List Char :=
  '"' :: s.flatMap escapeChar ++ ['"']

/-- The start of a line at a depth: two blanks for each step. -/
def newline (depth : Nat) : List Char :=
  '\n' :: List.replicate (2 * depth) ' '

mutual

def renderAt (depth : Nat) : Json → List Char
  | null => ['n', 'u', 'l', 'l']
  | num n => (toString n).toList
  | str s => quote s
  | arr [] => ['[', ']']
  | arr (j :: js) =>
      ['['] ++ newline (depth + 1) ++ renderAt (depth + 1) j ++ renderElements (depth + 1) js ++
        newline depth ++ [']']
  | obj [] => ['\x7b', '\x7d']
  | obj ((k, j) :: ms) =>
      ['\x7b'] ++ newline (depth + 1) ++ quote k.toList ++ [':', ' '] ++ renderAt (depth + 1) j ++
        renderMembers (depth + 1) ms ++ newline depth ++ ['\x7d']

def renderElements (depth : Nat) : List Json → List Char
  | [] => []
  | j :: js => [','] ++ newline depth ++ renderAt depth j ++ renderElements depth js

def renderMembers (depth : Nat) : List (String × Json) → List Char
  | [] => []
  | (k, j) :: ms =>
      [','] ++ newline depth ++ quote k.toList ++ [':', ' '] ++ renderAt depth j ++
        renderMembers depth ms

end

def render (j : Json) : List Char :=
  renderAt 0 j

end Json

end XiFront

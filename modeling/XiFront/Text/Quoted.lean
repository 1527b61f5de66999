import XiFront.Text.Extending
import XiFront.Text.Unprintable

namespace XiFront.Quoted

def codePoint (c : Char) : List Char :=
  ['\\', 'u', '\x7b'] ++ Nat.toDigits 16 c.toNat ++ ['\x7d']

def encodeChar (quote c : Char) : List Char :=
  match c with
  | '\x00' => ['\\', '0']
  | '\t' => ['\\', 't']
  | '\r' => ['\\', 'r']
  | '\n' => ['\\', 'n']
  | '\\' => ['\\', '\\']
  | c =>
      if c = quote then ['\\', c]
      else if isExtending c || isUnprintable c then codePoint c
      else [c]

def encode (quote : Char) (text : List Char) : List Char :=
  quote :: text.flatMap (encodeChar quote) ++ [quote]

def char (c : Char) : List Char :=
  encode '\'' [c]

def string (text : List Char) : List Char :=
  encode '"' text

end XiFront.Quoted

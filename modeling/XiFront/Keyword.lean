namespace XiFront

inductive Keyword where
  | as_
  | async
  | bool
  | break_
  | char
  | const
  | continue_
  | crate
  | else_
  | enum
  | extern_
  | false_
  | for_
  | fn
  | f32
  | f64
  | if_
  | in_
  | interface
  | isize
  | i32
  | i64
  | let_
  | match_
  | mod
  | mut_
  | new
  | null
  | priv
  | pub
  | return_
  | lowerSelf
  | upperSelf
  | struct
  | string
  | super
  | true_
  | use
  | usize
  | u32
  | u64
  | u8
  | where_
  | while_
  | yield
  deriving DecidableEq, Repr

namespace Keyword

def spelling : Keyword → List Char
  | as_ => ['a', 's']
  | async => ['a', 's', 'y', 'n', 'c']
  | bool => ['b', 'o', 'o', 'l']
  | break_ => ['b', 'r', 'e', 'a', 'k']
  | char => ['c', 'h', 'a', 'r']
  | const => ['c', 'o', 'n', 's', 't']
  | continue_ => ['c', 'o', 'n', 't', 'i', 'n', 'u', 'e']
  | crate => ['c', 'r', 'a', 't', 'e']
  | else_ => ['e', 'l', 's', 'e']
  | enum => ['e', 'n', 'u', 'm']
  | extern_ => ['e', 'x', 't', 'e', 'r', 'n']
  | false_ => ['f', 'a', 'l', 's', 'e']
  | for_ => ['f', 'o', 'r']
  | fn => ['f', 'n']
  | f32 => ['f', '3', '2']
  | f64 => ['f', '6', '4']
  | if_ => ['i', 'f']
  | in_ => ['i', 'n']
  | interface => ['i', 'n', 't', 'e', 'r', 'f', 'a', 'c', 'e']
  | isize => ['i', 's', 'i', 'z', 'e']
  | i32 => ['i', '3', '2']
  | i64 => ['i', '6', '4']
  | let_ => ['l', 'e', 't']
  | match_ => ['m', 'a', 't', 'c', 'h']
  | mod => ['m', 'o', 'd']
  | mut_ => ['m', 'u', 't']
  | new => ['n', 'e', 'w']
  | null => ['n', 'u', 'l', 'l']
  | priv => ['p', 'r', 'i', 'v']
  | pub => ['p', 'u', 'b']
  | return_ => ['r', 'e', 't', 'u', 'r', 'n']
  | lowerSelf => ['s', 'e', 'l', 'f']
  | upperSelf => ['S', 'e', 'l', 'f']
  | struct => ['s', 't', 'r', 'u', 'c', 't']
  | string => ['s', 't', 'r', 'i', 'n', 'g']
  | super => ['s', 'u', 'p', 'e', 'r']
  | true_ => ['t', 'r', 'u', 'e']
  | use => ['u', 's', 'e']
  | usize => ['u', 's', 'i', 'z', 'e']
  | u32 => ['u', '3', '2']
  | u64 => ['u', '6', '4']
  | u8 => ['u', '8']
  | where_ => ['w', 'h', 'e', 'r', 'e']
  | while_ => ['w', 'h', 'i', 'l', 'e']
  | yield => ['y', 'i', 'e', 'l', 'd']

def word (k : Keyword) : String :=
  String.ofList k.spelling

def all : List Keyword :=
  [as_, async, bool, break_, char, const, continue_, crate, else_, enum, extern_, false_,
    for_, fn, f32, f64, if_, in_, interface, isize, i32, i64, let_, match_, mod, mut_, new,
    null, priv, pub, return_, lowerSelf, upperSelf, struct, string, super, true_, use,
    usize, u32, u64, u8, where_, while_, yield]

theorem mem_all (k : Keyword) : k ∈ all := by
  cases k <;> decide

def ruleName : Keyword → String
  | lowerSelf => "kw_lself"
  | upperSelf => "kw_uself"
  | k => "kw_" ++ k.word

end Keyword

end XiFront

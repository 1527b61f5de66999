import XiFront.Keyword

namespace XiFront

inductive Scalar where
  | bool
  | char
  | f32
  | f64
  | isize
  | i32
  | i64
  | usize
  | string
  | u8
  | u32
  | u64
  deriving DecidableEq, Repr

namespace Scalar

def keyword : Scalar → Keyword
  | bool => .bool
  | char => .char
  | f32 => .f32
  | f64 => .f64
  | isize => .isize
  | i32 => .i32
  | i64 => .i64
  | usize => .usize
  | string => .string
  | u8 => .u8
  | u32 => .u32
  | u64 => .u64

def word (s : Scalar) : String :=
  s.keyword.word

/-- All scalars, in the order in which a type tries them. -/
def all : List Scalar :=
  [bool, char, f32, f64, isize, i32, i64, usize, string, u8, u32, u64]

theorem mem_all (s : Scalar) : s ∈ all := by
  cases s <;> decide

end Scalar

def Keyword.scalar? : Keyword → Option Scalar
  | .bool => some .bool
  | .char => some .char
  | .f32 => some .f32
  | .f64 => some .f64
  | .isize => some .isize
  | .i32 => some .i32
  | .i64 => some .i64
  | .usize => some .usize
  | .string => some .string
  | .u8 => some .u8
  | .u32 => some .u32
  | .u64 => some .u64
  | _ => none

@[simp] theorem Scalar.scalar?_keyword (s : Scalar) : s.keyword.scalar? = some s := by
  cases s <;> rfl

theorem Keyword.scalar?_eq_some_iff (k : Keyword) (s : Scalar) :
    k.scalar? = some s ↔ k = s.keyword := by
  cases k <;> cases s <;> decide

end XiFront

import XiFront.Error
import XiFront.Tree.Selection

namespace XiFront

open Peg

structure Node where
  id : Nat
  rule : Rule
  start : Nat
  stop : Nat
  position : Position
  children : List Node

namespace Node

/-- The text of a node as it stands in the source. -/
def text (n : Node) (source : Source) : Source :=
  source.slice n.start n.stop

def name (n : Node) (source : Source) : String :=
  String.ofList (n.text source)

def limit : Nat :=
  UInt32.size

theorem limit_eq : limit = 4294967296 := rfl

/-- The error at the first node for which no number is left. -/
def excess (n : Node) : Error :=
  .internal n.position n.rule "too many parse tree nodes"

/-! Numbering starts at `next`, and goes on with the number after the last node. -/

mutual

def number (source : Source) (next : Nat) : Pair Rule → Except Error (Node × Nat)
  | .node r start stop pairs => do
      let (children, id) ← numberAll source next pairs
      let n : Node := ⟨id, r, start, stop, .ofOffset source start, children⟩
      if id < limit then pure (n, id + 1) else throw n.excess

def numberAll (source : Source) (next : Nat) : List (Pair Rule) → Except Error (List Node × Nat)
  | [] => pure ([], next)
  | p :: ps => do
      let (n, next) ← number source next p
      let (ns, next) ← numberAll source next ps
      pure (n :: ns, next)

end

mutual

def preorder : Node → List Node
  | ⟨id, r, start, stop, position, children⟩ =>
      ⟨id, r, start, stop, position, children⟩ :: preorderAll children

def preorderAll : List Node → List Node
  | [] => []
  | n :: ns => n.preorder ++ preorderAll ns

end

mutual

def size : Node → Nat
  | ⟨_, _, _, _, _, children⟩ => sizeAll children + 1

def sizeAll : List Node → Nat
  | [] => 0
  | n :: ns => n.size + sizeAll ns

end

@[simp] theorem preorderAll_nil : preorderAll [] = [] := rfl

@[simp] theorem preorderAll_cons (n : Node) (ns : List Node) :
    preorderAll (n :: ns) = n.preorder ++ preorderAll ns := rfl

@[simp] theorem sizeAll_nil : sizeAll [] = 0 := rfl

@[simp] theorem sizeAll_cons (n : Node) (ns : List Node) :
    sizeAll (n :: ns) = n.size + sizeAll ns := rfl

theorem preorder_eq (n : Node) : n.preorder = n :: preorderAll n.children := by
  cases n
  rfl

theorem size_eq (n : Node) : n.size = sizeAll n.children + 1 := by
  cases n
  rfl

end Node

end XiFront

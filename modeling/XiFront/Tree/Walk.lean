import XiFront.Tree.Node

namespace XiFront

structure Walk where
  stack : List Node

namespace Walk

/-- The next node, and the walk after it: its children come before what was already waiting. -/
def next? (w : Walk) : Option (Node × Walk) :=
  match w.stack with
  | [] => none
  | n :: waiting => some (n, ⟨n.children ++ waiting⟩)

def take : Nat → Walk → List Node
  | 0, _ => []
  | steps + 1, w =>
      match w.next? with
      | some (n, after) => n :: take steps after
      | none => []

@[simp] theorem next?_nil : next? ⟨[]⟩ = none := rfl

@[simp] theorem next?_cons (n : Node) (ns : List Node) :
    next? ⟨n :: ns⟩ = some (n, ⟨n.children ++ ns⟩) := rfl

end Walk

end XiFront

import XiFront.Ast.Kind
import XiFront.Error
import XiFront.Tree.Node

namespace XiFront.Node

def drift (n : Node) (text : String) : Error :=
  .internal n.position n.rule text

def unexpected (n child : Node) : Error :=
  n.drift ("unexpected " ++ child.rule.name ++ " child at " ++ child.position.render)

def child (n : Node) (i : Nat) : Except Error Node :=
  match n.children[i]? with
  | some c => .ok c
  | none => .error (n.drift ("missing child " ++ toString i))

def childOf (n : Node) (i : Nat) (r : Rule) : Except Error Node := do
  let c ← n.child i
  if c.rule = r then pure c else throw (n.unexpected c)

def identAt (n : Node) (source : Source) (i : Nat) : Except Error String := do
  let c ← n.childOf i .ident
  pure (c.name source)

def allow (n : Node) (allowed : Rule → Bool) : Except Error Unit :=
  match n.children.find? fun c => !allowed c.rule with
  | some c => .error (n.unexpected c)
  | none => .ok ()

def handle {k : Kind} (n : Node) : Handle k :=
  ⟨n.id⟩

def handles {k : Kind} (n : Node) : List (Handle k) :=
  n.children.map handle

def handlesOf {k : Kind} (n : Node) (r : Rule) : List (Handle k) :=
  (n.children.filter (·.rule = r)).map handle

def names (n : Node) (source : Source) : List String :=
  n.children.map (·.name source)

end XiFront.Node

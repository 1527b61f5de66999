import XiFront.Mismatch
import XiFront.Tree.Walk

namespace XiFront

open Peg

structure Tree where
  source : Source
  root : Node

namespace Tree

/-- The tree of a complete source.  The first mismatch is the only one reported. -/
def parse (source : Source) : Except Error Tree :=
  match Rule.file.match? source with
  | .error e => .error e
  | .ok [] => .error (.internal .first .file "empty parse result")
  | .ok (p :: _) =>
      match prune p with
      | some q => do
          let (root, _) ← Node.number source 0 q
          pure ⟨source, root⟩
      | none => .error (.internal .first .file "file node was not retained")

def size (t : Tree) : Nat :=
  t.root.size

def nodes (t : Tree) : List Node :=
  Walk.take t.size ⟨[t.root]⟩

def node? (t : Tree) (id : Nat) : Option Node :=
  t.nodes.find? (·.id = id)

def text (t : Tree) (n : Node) : Source :=
  n.text t.source

end Tree

end XiFront

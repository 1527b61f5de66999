import XiFront.Ast.Describe
import XiFront.Command.Compile

namespace XiFront.Listing

def meaning (t : Tree) (n : Node) : Inquiry String := do
  if n.rule.hasMeaning then
    tryCatch
      (do
        let a ← Inquiry.meaning t n
        pure (" => " ++ a.describe))
      fun e => pure (" => <" ++ e.message ++ ">")
  else pure ""

/-- The line of a node; a leaf is shown with its text. -/
def line (t : Tree) (depth : Nat) (n : Node) : Inquiry String := do
  let meaning ← meaning t n
  let text :=
    if n.children.isEmpty then " " ++ String.ofList (Quoted.string (t.text n)) else ""
  pure
    ("".pushn ' ' (2 * depth) ++ n.rule.name ++ text ++ " @" ++ n.position.render ++ meaning ++
      "\n")

mutual

def lines (t : Tree) (depth : Nat) : Node → Inquiry String
  | ⟨id, rule, start, stop, position, children⟩ => do
      let first ← line t depth ⟨id, rule, start, stop, position, children⟩
      let others ← linesAll t (depth + 1) children
      pure (first ++ others)

def linesAll (t : Tree) (depth : Nat) : List Node → Inquiry String
  | [] => pure ""
  | n :: ns => do
      let first ← lines t depth n
      let others ← linesAll t depth ns
      pure (first ++ others)

end

def usageText : String :=
  "usage: print_ast <path.xi>\n"

/-- The listing of a tree that has been read, or why it has not. -/
def report (name : String) : Except Error Tree → Command.Report
  | .error e => ⟨1, "", name ++ ": " ++ e.message ++ "\n"⟩
  | .ok t =>
      match ((lines t 0 t.root).run.run .empty).1 with
      | .ok text => ⟨0, text, ""⟩
      | .error e => ⟨1, "", name ++ ": " ++ e.message ++ "\n"⟩

def run (s : Store) : List String → Command.Report
  | [] => ⟨2, "", usageText⟩
  | name :: _ => report name (s.load name)

end XiFront.Listing

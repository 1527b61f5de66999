import XiFront.Ast.Describe
import XiFront.Config
import XiFront.Json
import XiFront.Session
import XiFront.Store
import XiFront.Tree.Dot

namespace XiFront

def Inquiry.attempt (q : Inquiry α) : Inquiry (Option α) :=
  tryCatch (some <$> q) fun _ => pure none

namespace Dump

mutual

def segmentJson : Segment → Json
  | ⟨id, generics⟩ => .object [("id", .text id), ("generics", genericsJson generics)]

def genericsJson : Option (List (List Segment)) → Json
  | none => .null
  | some ps => .arr (pathsJson ps)

def pathsJson : List (List Segment) → List Json
  | [] => []
  | p :: ps => .arr (segmentsJson p) :: pathsJson ps

def segmentsJson : List Segment → List Json
  | [] => []
  | s :: ss => segmentJson s :: segmentsJson ss

end

def useJson (u : UseDecl) : Json :=
  .object
    [("path", .arr (segmentsJson u.path)),
      ("alias", match u.localName with | some name => .text name | none => .null)]

def usesJson (t : Tree) : List Nat → Inquiry (List Json)
  | [] => pure []
  | id :: ids => do
      let found ←
        match t.node? id with
        | some n => (Inquiry.meaningAs t .use n).attempt
        | none => pure none
      let others ← usesJson t ids
      match found with
      | some (.use u) => pure (useJson u :: others)
      | _ => pure others

def fileJson (t : Tree) : Inquiry Json := do
  match ← (Inquiry.file t).attempt with
  | some (.file d) => do
      let uses ← usesJson t (Ast.ids d.uses)
      pure (.arr uses)
  | _ => pure .null

def meaningMember (t : Tree) (n : Node) : Inquiry (List (String × Json)) := do
  if n.rule.hasMeaning then
    match ← (Inquiry.meaning t n).attempt with
    | some a => pure [("ast", .text a.describe)]
    | none => pure []
  else pure []

def headMembers (n : Node) : List (String × Json) :=
  [("rule", .text n.rule.name), ("line", .num n.position.line),
    ("column", .num n.position.column)]

mutual

def nodeJson (t : Tree) : Node → Inquiry Json
  | ⟨id, rule, start, stop, position, []⟩ => do
      let n : Node := ⟨id, rule, start, stop, position, []⟩
      let meaning ← meaningMember t n
      pure (.object (headMembers n ++ ("text", .str (t.text n)) :: meaning))
  | ⟨id, rule, start, stop, position, c :: cs⟩ => do
      let n : Node := ⟨id, rule, start, stop, position, c :: cs⟩
      let first ← nodeJson t c
      let others ← nodesJson t cs
      let meaning ← meaningMember t n
      pure (.object (headMembers n ++ ("children", .arr (first :: others)) :: meaning))

def nodesJson (t : Tree) : List Node → Inquiry (List Json)
  | [] => pure []
  | n :: ns => do
      let first ← nodeJson t n
      let others ← nodesJson t ns
      pure (first :: others)

end

def json (entry : String) (t : Tree) : Inquiry Json := do
  let uses ← fileJson t
  let tree ← nodeJson t t.root
  pure (.object [("entry", .text entry), ("uses", uses), ("tree", tree)])

/-- A file to be written, if there is a text for it. -/
abbrev Output := List Char × Except Fault (List Char)

def files (pretty : Json → Except Fault (List Char)) (c : Config) (t : Tree) :
    Inquiry (List Output) := do
  let document ← json c.entry t
  let name (ending : String) :=
    PathName.child c.cacheDir.toList (c.stem ++ ending).toList
  pure [(name ".ast.dot", .ok (Dot.render t)), (name ".ast.json", pretty document)]

/-- Writes files one after the other, up to the first that cannot be written. -/
def writeAll (s : Store) : List Output → Option Fault × Store
  | [] => (none, s)
  | (_, .error fault) :: _ => (some fault, s)
  | (name, .ok text) :: files =>
      match s.write name (String.ofList text).toUTF8 with
      | .ok s => writeAll s files
      | .error fault => (some fault, s)

end Dump

end XiFront

import XiFront.Session

namespace XiFront.Path

def useSource (p : Path) : Source :=
  "use ".toList ++ p.render.toList ++ [';']

/-- The path of the first use in a source, if there is one. -/
def firstUse? (t : Tree) : Inquiry (Option Path) := do
  match ← Inquiry.file t with
  | .file d =>
      match ← Inquiry.member t .use (Ast.ids d.uses) 0 with
      | some (_, .use u) => pure (some u.path)
      | _ => pure none
  | _ => pure none

def reread (p : Path) : Except Error (Option Path) := do
  let t ← Tree.parse p.useSource
  ((firstUse? t).run.run .empty).1

end XiFront.Path

import XiFront.Position
import XiFront.Rule

namespace XiFront

inductive Error where
  /-- The text is not in the language. -/
  | malformed (position : Position) (text : String)
  /-- The text is in the language, but a construct in it has no meaning yet. -/
  | unsupported (position : Position) (construct : String)
  /-- A tree whose nodes do not have the parts that the grammar gives them. -/
  | internal (position : Position) (rule : Rule) (text : String)
  /-- There is no text to look at. -/
  | unreadable (path : String) (text : String)
  deriving DecidableEq, Repr

namespace Error

def position? : Error → Option Position
  | malformed p _ => some p
  | unsupported p _ => some p
  | internal p _ _ => some p
  | unreadable _ _ => none

def isInternal : Error → Bool
  | internal _ _ _ => true
  | _ => false

def message : Error → String
  | malformed p text => "syntax error at " ++ p.render ++ ": " ++ text
  | unsupported p construct => "not implemented at " ++ p.render ++ ": " ++ construct
  | internal p r text => "internal error at " ++ p.render ++ " (" ++ r.name ++ "): " ++ text
  | unreadable path text => "cannot read '" ++ path ++ "': " ++ text

def label : Error → String
  | malformed _ _ => "syntax error"
  | unsupported _ _ => "unsupported"
  | internal _ _ _ => "internal compiler error"
  | unreadable _ _ => "io error"

end Error

end XiFront

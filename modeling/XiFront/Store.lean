import XiFront.PathName
import XiFront.Source

namespace XiFront

inductive Fault where
  | missing
  | exists_
  | notDirectory
  | isDirectory
  | notText
  | nulByte
  | other (text : String)
  deriving DecidableEq, Repr

def Fault.message : Fault → String
  | missing => "No such file or directory (os error 2)"
  | exists_ => "File exists (os error 17)"
  | notDirectory => "Not a directory (os error 20)"
  | isDirectory => "Is a directory (os error 21)"
  | notText => "stream did not contain valid UTF-8"
  | nulByte => "file name contained an unexpected NUL byte"
  | other text => text

/-- The pieces that lead to a place from the root. -/
abbrev Location := List (List Char)

inductive Entry where
  | directory
  | file (content : ByteArray)

structure Store where
  entries : List (Location × Entry)

namespace Store

def home : Location :=
  [['h', 'o', 'm', 'e']]

def empty : Store :=
  ⟨[(home, .directory)]⟩

def entry? (s : Store) (l : Location) : Option Entry :=
  if l = [] then some .directory else s.entries.lookup l

def enter (l : Location) (piece : List Char) : Location :=
  if PathName.isIdle piece then l
  else if piece = ['.', '.'] then l.dropLast
  else l ++ [piece]

/-- The place that pieces lead to.  There must be a directory everywhere but at its end. -/
def walk (s : Store) (l : Location) : List (List Char) → Except Fault Location
  | [] => .ok l
  | p :: ps =>
      match s.entry? l with
      | some .directory => walk s (enter l p) ps
      | some (.file _) => .error .notDirectory
      | none => .error .missing

def origin : List Char → Location
  | '/' :: _ => []
  | _ => home

def locate (s : Store) (name : List Char) : Except Fault Location :=
  if '\x00' ∈ name then .error .nulByte
  else if name = [] then .error .missing
  else s.walk (origin name) (PathName.split name)

def read (s : Store) (name : List Char) : Except Fault Source := do
  let l ← s.locate name
  match s.entry? l with
  | none => .error .missing
  | some .directory => .error .isDirectory
  | some (.file content) =>
      match String.fromUTF8? content with
      | some text => .ok text.toList
      | none => .error .notText

def set (s : Store) (l : Location) (e : Entry) : Store :=
  ⟨(l, e) :: s.entries.filter (·.1 ≠ l)⟩

/-- Gives a file the content, and makes the file if there is none. -/
def write (s : Store) (name : List Char) (content : ByteArray) : Except Fault Store := do
  let l ← s.locate name
  match s.entry? l with
  | some .directory => .error .isDirectory
  | _ => .ok (s.set l (.file content))

def isDirectory (s : Store) (name : List Char) : Bool :=
  match s.locate name with
  | .ok l =>
      match s.entry? l with
      | some .directory => true
      | _ => false
  | .error _ => false

def makeDirectory (s : Store) (name : List Char) : Except Fault Store :=
  if '\x00' ∈ name then .error .nulByte
  else
    match ((PathName.split name).reverse.dropWhile (· = [])) with
    | [] => if name = [] then .error .missing else .error .exists_
    | p :: ps =>
        match s.walk (origin name) (ps.reverse ++ [['.']]) with
        | .error e => .error e
        | .ok l =>
            if p = ['.'] ∨ p = ['.', '.'] then .error .exists_
            else
              match s.entry? (l ++ [p]) with
              | some _ => .error .exists_
              | none => .ok (s.set (l ++ [p]) .directory)

/-- Makes a directory and those it is in, as long as the fuel lasts. -/
def makeDirectoriesWith : Nat → Store → List Char → Except Fault Store
  | 0, _, _ => .error .missing
  | fuel + 1, s, name =>
      if name = [] then .ok s
      else
        match s.makeDirectory name with
        | .ok s => .ok s
        | .error .missing =>
            match PathName.parent? name with
            | none => .error .missing
            | some up => do
                let s ← makeDirectoriesWith fuel s up
                match s.makeDirectory name with
                | .ok s => .ok s
                | .error e => if s.isDirectory name then .ok s else .error e
        | .error e => if s.isDirectory name then .ok s else .error e

/-- Makes a directory, and those it is in.  A directory that is there already will do. -/
def makeDirectories (s : Store) (name : List Char) : Except Fault Store :=
  makeDirectoriesWith (name.length + 1) s name

/-- Puts a file where the name leads, with the directories it needs. -/
def provide (s : Store) (name : List Char) (content : ByteArray) : Except Fault Store := do
  let s ← s.makeDirectories ((PathName.parent? name).getD [])
  s.write name content

/-- Takes away what a name leads to, with all that is in it. -/
def remove (s : Store) (name : List Char) : Except Fault Store := do
  let l ← s.locate name
  .ok ⟨s.entries.filter fun (k, _) => !l.isPrefixOf k⟩

/-- The files where we are and below, each with its name from here. -/
def files (s : Store) : List (List Char × ByteArray) :=
  s.entries.filterMap fun (l, e) =>
    match e with
    | .file content =>
        if home.isPrefixOf l then some (PathName.join (l.drop home.length), content) else none
    | .directory => none

end Store

end XiFront

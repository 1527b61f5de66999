/-!
Qualified names.  A path is a list of segments, each a name with optional type arguments that are
paths themselves.  An absent list of arguments differs from an empty one.
-/

namespace XiFront

structure Segment where
  id : String
  generics : Option (List (List Segment))

abbrev Path := List Segment

namespace Segment

/-- The name of the segment that stands for a step up. -/
def markerName : String :=
  "."

def plain (id : String) : Segment :=
  ⟨id, none⟩

def marker : Segment :=
  plain markerName

instance : Inhabited Segment :=
  ⟨marker⟩

def isMarker (s : Segment) : Bool :=
  s.id = markerName

mutual

def decEq : (a b : Segment) → Decidable (a = b)
  | ⟨i, g⟩, ⟨j, h⟩ =>
      match decEqGenerics g h with
      | isTrue hg =>
          if hi : i = j then isTrue (by rw [hi, hg])
          else isFalse (fun e => hi (Segment.mk.inj e).1)
      | isFalse hg => isFalse (fun e => hg (Segment.mk.inj e).2)

def decEqGenerics : (a b : Option (List (List Segment))) → Decidable (a = b)
  | none, none => isTrue rfl
  | none, some _ => isFalse (fun e => nomatch e)
  | some _, none => isFalse (fun e => nomatch e)
  | some a, some b =>
      match decEqPaths a b with
      | isTrue h => isTrue (by rw [h])
      | isFalse h => isFalse (fun e => h (Option.some.inj e))

def decEqPaths : (a b : List (List Segment)) → Decidable (a = b)
  | [], [] => isTrue rfl
  | [], _ :: _ => isFalse (fun e => nomatch e)
  | _ :: _, [] => isFalse (fun e => nomatch e)
  | p :: ps, q :: qs =>
      match decEqPath p q with
      | isTrue h =>
          match decEqPaths ps qs with
          | isTrue hs => isTrue (by rw [h, hs])
          | isFalse hs => isFalse (fun e => hs (List.cons.inj e).2)
      | isFalse h => isFalse (fun e => h (List.cons.inj e).1)

def decEqPath : (a b : List Segment) → Decidable (a = b)
  | [], [] => isTrue rfl
  | [], _ :: _ => isFalse (fun e => nomatch e)
  | _ :: _, [] => isFalse (fun e => nomatch e)
  | s :: ss, t :: ts =>
      match decEq s t with
      | isTrue h =>
          match decEqPath ss ts with
          | isTrue hs => isTrue (by rw [h, hs])
          | isFalse hs => isFalse (fun e => hs (List.cons.inj e).2)
      | isFalse h => isFalse (fun e => h (List.cons.inj e).1)

end

instance : DecidableEq Segment :=
  decEq

end Segment

/-! Every segment is written after two colons, except that the markers at the front of a path stand
bare.  Only a marker at the front is written without its arguments. -/

mutual

def Segment.render : Segment → String
  | ⟨id, generics⟩ => "::" ++ id ++ renderGenerics generics

def renderGenerics : Option (List (List Segment)) → String
  | none => ""
  | some [] => ""
  | some (p :: ps) => "<" ++ renderPath true p ++ renderOthers ps ++ ">"

def renderOthers : List (List Segment) → String
  | [] => ""
  | p :: ps => ", " ++ renderPath true p ++ renderOthers ps

/-- The text of a path, at whose front we are or not. -/
def renderPath (front : Bool) : List Segment → String
  | [] => ""
  | s :: ss =>
      if front && s.isMarker then Segment.markerName ++ renderPath true ss
      else s.render ++ renderPath false ss

end

def Path.render (p : Path) : String :=
  renderPath true p

@[simp] theorem renderPath_nil (front : Bool) : renderPath front [] = "" := rfl

@[simp] theorem renderPath_false_cons (s : Segment) (ss : Path) :
    renderPath false (s :: ss) = s.render ++ renderPath false ss := rfl

theorem renderPath_true_cons (s : Segment) (ss : Path) :
    renderPath true (s :: ss) =
      if s.isMarker then Segment.markerName ++ renderPath true ss
      else s.render ++ renderPath false ss := rfl

end XiFront

import XiFront.Ast.Expr
import XiFront.Lowering.Parts

/-!
Types and paths.  A type asks for the types inside it: the elements of a tuple, and the first
argument of each segment of a path.  Whoever lowers the outer type says through `visit` how an inner
one is come by, so that one definition serves with and without a record of what is known already.
-/

namespace XiFront

/-- A type argument as a path.  Tuples and arrays have no path form. -/
def TypeRef.path? (t : TypeRef) : Option Path :=
  if t.isArray then none
  else
    match t.shape with
    | .path p => some p
    | .scalar s => some [.plain s.word]
    | .self => some [.plain Keyword.upperSelf.word]
    | .tuple _ => none

namespace Lowering

/-- Whether the node after the base of a type marks an array. -/
def isArray (n : Node) : List Node → Except Error Bool
  | [] => .ok false
  | c :: _ => if c.rule = .arraySuffix then .ok true else .error (n.unexpected c)

def isSegmentName : Rule → Bool
  | .ident => true
  | .kw k => k = .upperSelf || k.scalar?.isSome
  | _ => false

variable {m : Type → Type} [Monad m] [MonadExcept Error m]

mutual

def typeOf (source : Source) (visit : Node → m TypeRef → m TypeRef) : Node → m TypeRef
  | ⟨id, rule, start, stop, position, []⟩ =>
      throw (Node.drift ⟨id, rule, start, stop, position, []⟩ "missing child 0")
  | ⟨id, rule, start, stop, position, base :: others⟩ => do
      let n : Node := ⟨id, rule, start, stop, position, base :: others⟩
      if rule ≠ .ty then throw (n.drift "expected a ty node")
      let array ← MonadExcept.ofExcept (isArray n others)
      match base.rule with
      | .kw k =>
          match k.scalar? with
          | some s => pure ⟨.scalar s, array⟩
          | none => if k = .upperSelf then pure ⟨.self, array⟩ else throw (n.unexpected base)
      | .path => do
          let p ← pathOf source visit base
          pure ⟨.path p, array⟩
      | .tupleType => do
          let elements ← elementsOf source visit base
          pure ⟨.tuple elements, array⟩
      | _ => throw (n.unexpected base)

def elementsOf (source : Source) (visit : Node → m TypeRef → m TypeRef) :
    Node → m (List (Handle .type))
  | ⟨_, _, _, _, _, elements⟩ => visitAll source visit elements

def visitAll (source : Source) (visit : Node → m TypeRef → m TypeRef) :
    List Node → m (List (Handle .type))
  | [] => pure []
  | c :: cs => do
      let _ ← visit c (typeOf source visit c)
      let others ← visitAll source visit cs
      pure (c.handle :: others)

def pathOf (source : Source) (visit : Node → m TypeRef → m TypeRef) : Node → m Path
  | ⟨id, rule, start, stop, position, children⟩ => do
      let n : Node := ⟨id, rule, start, stop, position, children⟩
      if rule ≠ .path then throw (n.drift "expected a path node")
      segmentsOf source visit n children

def segmentsOf (source : Source) (visit : Node → m TypeRef → m TypeRef) (n : Node) :
    List Node → m Path
  | [] => pure []
  | c :: cs => do
      let s ←
        match c.rule with
        | .dot => pure Segment.marker
        | .segment => segmentOf source visit c
        | _ => throw (n.unexpected c)
      let others ← segmentsOf source visit n cs
      pure (s :: others)

/-- A segment keeps the first of its arguments. -/
def segmentOf (source : Source) (visit : Node → m TypeRef → m TypeRef) : Node → m Segment
  | ⟨id, rule, start, stop, position, []⟩ =>
      throw (Node.drift ⟨id, rule, start, stop, position, []⟩ "missing child 0")
  | ⟨id, rule, start, stop, position, [name]⟩ =>
      if isSegmentName name.rule then pure ⟨name.name source, none⟩
      else throw (Node.unexpected ⟨id, rule, start, stop, position, [name]⟩ name)
  | ⟨id, rule, start, stop, position, name :: arg :: others⟩ => do
      if !isSegmentName name.rule then
        throw (Node.unexpected ⟨id, rule, start, stop, position, name :: arg :: others⟩ name)
      let t ← visit arg (typeOf source visit arg)
      match t.path? with
      | some p => pure ⟨name.name source, some [p]⟩
      | none => throw (.unsupported arg.position "non-path generic argument")

end

end Lowering

end XiFront

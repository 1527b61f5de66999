import XiFront.Ast
import XiFront.Lowering.Type

namespace XiFront.Lowering

def isItem : Rule → Bool
  | .useStmt | .interfaceDecl | .structDecl | .enumDecl | .fnDecl | .global => true
  | _ => false

def fileDecl (n : Node) : Except Error FileDecl := do
  n.allow isItem
  pure
    { uses := n.handlesOf .useStmt
      interfaces := n.handlesOf .interfaceDecl
      structs := n.handlesOf .structDecl
      enums := n.handlesOf .enumDecl
      fns := n.handlesOf .fnDecl
      globals := n.handlesOf .global }

/-- A part that a node may have at a place. -/
def optionalAt {k : Kind} (n : Node) (i : Nat) (r : Rule) : Except Error (Option (Handle k)) :=
  match n.children[i]? with
  | some _ => do
      let c ← n.childOf i r
      pure (some c.handle)
  | none => pure none

def enumField (n : Node) (source : Source) : Except Error EnumField := do
  let type ← optionalAt n 1 .ty
  let id ← n.identAt source 0
  pure ⟨id, type⟩

/-- What the children of a function have given so far. -/
structure FnDraft where
  id : Option String := none
  generics : List String := []
  attribs : List (Handle .attrib) := []
  hasSelf : Bool := false
  params : List (Handle .param) := []
  result : Option (Handle .type) := none
  body : Option (Handle .expr) := none

namespace FnDraft

def addParam (n : Node) (d : FnDraft) (p : Node) : Except Error FnDraft :=
  match p.rule with
  | .param => pure { d with params := d.params ++ [p.handle] }
  | .kw .lowerSelf => pure { d with hasSelf := true }
  | _ => throw (n.unexpected p)

/-- A second name is unexpected; of a second list of names, type or body the last one counts. -/
def add (source : Source) (n : Node) (d : FnDraft) (c : Node) : Except Error FnDraft :=
  match c.rule with
  | .attrib => pure { d with attribs := d.attribs ++ [c.handle] }
  | .ident =>
      match d.id with
      | none => pure { d with id := some (c.name source) }
      | some _ => throw (n.unexpected c)
  | .genericParams => pure { d with generics := c.names source }
  | .fnParams | .methodParams => c.children.foldlM (addParam n) d
  | .ty => pure { d with result := some c.handle }
  | .blockExpr => pure { d with body := some c.handle }
  | _ => throw (n.unexpected c)

end FnDraft

def fnDecl (n : Node) (source : Source) : Except Error FnDecl := do
  let d ← n.children.foldlM (FnDraft.add source n) {}
  match d.id with
  | none => throw (n.drift "function without identifier")
  | some id =>
      pure
        { id
          generics := d.generics
          attribs := d.attribs
          hasSelf := d.hasSelf
          params := d.params
          result := d.result
          body := d.body }

def typedName (n : Node) (source : Source) : Except Error (String × Handle .type) := do
  let id ← n.identAt source 0
  let type ← n.childOf 1 .ty
  pure (id, type.handle)

def fieldDecl (n : Node) (source : Source) : Except Error FieldDecl := do
  let (id, type) ← typedName n source
  pure ⟨id, type⟩

def paramDecl (n : Node) (source : Source) : Except Error ParamDecl := do
  let (id, type) ← typedName n source
  pure ⟨id, type⟩

def globalDecl (n : Node) (source : Source) : Except Error GlobalDecl := do
  let (id, type) ← typedName n source
  let value ← n.child 2
  pure ⟨id, type, value.handle⟩

def attribDecl (n : Node) (source : Source) : Except Error AttribDecl := do
  match n.children[1]? with
  | some _ => do
      let arguments ← n.childOf 1 .args
      let id ← n.identAt source 0
      pure ⟨id, some arguments.handles⟩
  | none => do
      let id ← n.identAt source 0
      pure ⟨id, none⟩

variable {m : Type → Type} [Monad m] [MonadExcept Error m]

def useDecl (source : Source) (visit : Node → m TypeRef → m TypeRef) (n : Node) :
    m UseDecl := do
  let c ← MonadExcept.ofExcept (n.childOf 0 .path)
  let path ← pathOf source visit c
  match n.children[1]? with
  | some _ => do
      let name ← MonadExcept.ofExcept (n.identAt source 1)
      pure ⟨path, some name⟩
  | none => pure ⟨path, none⟩

/-- What the children of a type declaration have given so far. -/
structure DeclDraft where
  id : Option String := none
  generics : List String := []
  impls : List Path := []
  attribs : List (Handle .attrib) := []
  fields : List (Handle .field) := []
  enumFields : List (Handle .enumField) := []
  fns : List (Handle .fn) := []
  methods : List (Handle .fn) := []

namespace DeclDraft

def add (source : Source) (visit : Node → m TypeRef → m TypeRef) (n : Node) (d : DeclDraft)
    (c : Node) : m DeclDraft :=
  match c.rule with
  | .attrib => pure { d with attribs := d.attribs ++ [c.handle] }
  | .ident =>
      match d.id with
      | none => pure { d with id := some (c.name source) }
      | some _ => throw (n.unexpected c)
  | .genericParams => pure { d with generics := c.names source }
  | .impls => do
      let paths ← c.children.mapM (pathOf source visit)
      pure { d with impls := d.impls ++ paths }
  | .field => pure { d with fields := d.fields ++ [c.handle] }
  | .enumField => pure { d with enumFields := d.enumFields ++ [c.handle] }
  | .fnDecl => pure { d with fns := d.fns ++ [c.handle] }
  | .methodDecl => pure { d with methods := d.methods ++ [c.handle] }
  | _ => throw (n.unexpected c)

def name (n : Node) (d : DeclDraft) : Except Error String :=
  match d.id with
  | none => throw (n.drift "declaration without identifier")
  | some id => pure id

end DeclDraft

/-- The draft of a type declaration, whichever kind of type it declares. -/
def declDraft (source : Source) (visit : Node → m TypeRef → m TypeRef) (n : Node) : m DeclDraft :=
  n.children.foldlM (DeclDraft.add source visit n) {}

def structDecl (source : Source) (visit : Node → m TypeRef → m TypeRef) (n : Node) :
    m StructDecl := do
  let d ← declDraft source visit n
  let id ← MonadExcept.ofExcept (d.name n)
  pure
    { id
      generics := d.generics
      impls := d.impls
      attribs := d.attribs
      fields := d.fields
      fns := d.fns
      methods := d.methods }

def interfaceDecl (source : Source) (visit : Node → m TypeRef → m TypeRef) (n : Node) :
    m InterfaceDecl := do
  let d ← declDraft source visit n
  let id ← MonadExcept.ofExcept (d.name n)
  pure
    { id
      generics := d.generics
      impls := d.impls
      attribs := d.attribs
      fns := d.fns
      methods := d.methods }

def enumDecl (source : Source) (visit : Node → m TypeRef → m TypeRef) (n : Node) :
    m EnumDecl := do
  let d ← declDraft source visit n
  let id ← MonadExcept.ofExcept (d.name n)
  pure
    { id
      generics := d.generics
      attribs := d.attribs
      fields := d.enumFields
      fns := d.fns
      methods := d.methods }

end XiFront.Lowering

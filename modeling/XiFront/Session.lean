import XiFront.Lowering

namespace XiFront

/-- What is known of the nodes of a tree, the newest first. -/
structure Known where
  entries : List (Nat × Ast)

namespace Known

def empty : Known :=
  ⟨[]⟩

def get? (k : Known) (id : Nat) : Option Ast :=
  k.entries.lookup id

def add (k : Known) (id : Nat) (a : Ast) : Known :=
  ⟨(id, a) :: k.entries⟩

def ids (k : Known) : List Nat :=
  k.entries.map Prod.fst

@[simp] theorem get?_empty (id : Nat) : empty.get? id = none := rfl

end Known

/-- A question about a tree that may fail, and may add to what is known. -/
abbrev Inquiry := ExceptT Error (StateM Known)

namespace Inquiry

/-- The type at a node: what is known, or else what `inner` finds. -/
def visit (n : Node) (inner : Inquiry TypeRef) : Inquiry TypeRef := do
  match (← get).get? n.id with
  | some (.type t) => pure t
  | some other => throw (Lowering.kindError n .type other)
  | none => do
      let t ← inner
      modify (·.add n.id (.type t))
      pure t

def meaning (t : Tree) (n : Node) : Inquiry Ast := do
  match (← get).get? n.id with
  | some a => pure a
  | none => do
      let a ← Lowering.lower t.source visit n
      modify (·.add n.id a)
      pure a

/-- The meaning of a node, which must be of the given kind. -/
def meaningAs (t : Tree) (k : Kind) (n : Node) : Inquiry Ast := do
  let a ← meaning t n
  if a.kind = k then pure a else throw (Lowering.kindError n k a)

def file (t : Tree) : Inquiry Ast :=
  meaningAs t .file t.root

def path (t : Tree) (n : Node) : Inquiry Path :=
  Lowering.pathOf t.source visit n

/-- Looks at each node that has a meaning, and counts them. -/
def countMeanings (t : Tree) : List Node → Inquiry Nat
  | [] => pure 0
  | n :: ns => do
      if n.rule.hasMeaning then
        let _ ← meaning t n
        let others ← countMeanings t ns
        pure (others + 1)
      else countMeanings t ns

def all (t : Tree) : Inquiry Nat :=
  countMeanings t t.nodes

/-- The member of a list, if there is one at the place. -/
def member (t : Tree) (k : Kind) (ids : List Nat) (place : Nat) :
    Inquiry (Option (Nat × Ast)) :=
  match ids[place]? with
  | none => pure none
  | some id =>
      match t.node? id with
      | none => pure none
      | some n => do
          let a ← meaningAs t k n
          pure (some (id, a))

/-- All members of a list, or the error of the first that has one. -/
def members (t : Tree) (k : Kind) : List Nat → Inquiry (List Ast)
  | [] => pure []
  | id :: ids =>
      match t.node? id with
      | none => members t k ids
      | some n => do
          let a ← meaningAs t k n
          let others ← members t k ids
          pure (a :: others)

end Inquiry

structure Session where
  tree : Tree
  known : Known

namespace Session

def start (tree : Tree) : Session :=
  ⟨tree, .empty⟩

/-- A list is named by the node whose meaning has it, or given as it is. -/
inductive Operation where
  | meaning (id : Nat)
  | meaningAs (id : Nat) (k : Kind)
  | file
  | all
  | path (id : Nat)
  | member (id : Nat) (list : String) (place : Nat)
  | members (id : Nat) (list : String)
  | memberOf (k : Kind) (ids : List Nat) (place : Nat)
  | membersOf (k : Kind) (ids : List Nat)
  deriving DecidableEq, Repr

inductive Answer where
  | noSuchNode
  | noSuchList
  | failed (e : Error)
  | meaning (a : Ast)
  | count (n : Nat)
  | path (p : Path)
  | member (m : Option (Nat × Ast))
  | members (list : List Ast)
  deriving DecidableEq

/-- Puts a question, and keeps what it has found out. -/
def ask (s : Session) (q : Inquiry α) (answer : α → Answer) : Answer × Session :=
  match q.run.run s.known with
  | (.ok a, known) => (answer a, { s with known })
  | (.error e, known) => (.failed e, { s with known })

def withNode (s : Session) (id : Nat) (q : Node → Answer × Session) : Answer × Session :=
  match s.tree.node? id with
  | some n => q n
  | none => (.noSuchNode, s)

/-- A question about one of the lists that the meaning of a node has. -/
def withList (s : Session) (id : Nat) (list : String) (q : Kind → List Nat → Inquiry Answer) :
    Answer × Session :=
  s.withNode id fun n =>
    s.ask
      (do
        let a ← Inquiry.meaning s.tree n
        match a.members? list with
        | some (k, ids) => q k ids
        | none => pure .noSuchList)
      fun a => a

def step (s : Session) : Operation → Answer × Session
  | .meaning id => s.withNode id fun n => s.ask (Inquiry.meaning s.tree n) .meaning
  | .meaningAs id k => s.withNode id fun n => s.ask (Inquiry.meaningAs s.tree k n) .meaning
  | .file => s.ask (Inquiry.file s.tree) .meaning
  | .all => s.ask (Inquiry.all s.tree) .count
  | .path id => s.withNode id fun n => s.ask (Inquiry.path s.tree n) .path
  | .member id list place =>
      s.withList id list fun k ids => .member <$> Inquiry.member s.tree k ids place
  | .members id list =>
      s.withList id list fun k ids => .members <$> Inquiry.members s.tree k ids
  | .memberOf k ids place => s.ask (Inquiry.member s.tree k ids place) .member
  | .membersOf k ids => s.ask (Inquiry.members s.tree k ids) .members

/-- The answers to a sequence of operations, and the session after them. -/
def run (s : Session) : List Operation → List Answer × Session
  | [] => ([], s)
  | o :: os =>
      match s.step o with
      | (a, after) =>
          match after.run os with
          | (answers, last) => (a :: answers, last)

/-- The nodes whose meaning one session knows and an earlier one did not, in order. -/
def learned (before after : Session) : List Nat :=
  (List.range after.tree.size).filter fun id =>
    (after.known.get? id).isSome && !(before.known.get? id).isSome

end Session

end XiFront

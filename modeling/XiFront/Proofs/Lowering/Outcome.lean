import XiFront.Proofs.Lowering.Parts
import XiFront.Proofs.Text.Escape
import XiFront.Proofs.Tree.Referents

namespace XiFront

/-- The kind of what the nodes of a rule mean. -/
def Rule.kind? : Rule → Option Kind
  | file => some .file
  | useStmt => some .use
  | structDecl => some .struct
  | interfaceDecl => some .interface
  | enumDecl => some .enum
  | enumField => some .enumField
  | fnDecl | methodDecl => some .fn
  | field => some .field
  | global => some .global
  | param => some .param
  | attrib => some .attrib
  | ty => some .type
  | letStmt | exprStmt => some .stmt
  | r => if r.isExpr then some .expr else none

theorem Rule.kind?_of_isExpr {r : Rule} (h : r.isExpr = true) : r.kind? = some .expr := by
  cases r
  case file | useStmt | structDecl | interfaceDecl | enumDecl | enumField | fnDecl | methodDecl
      | field | global | param | attrib | ty | letStmt | exprStmt =>
    exact nomatch h
  all_goals simp only [Rule.kind?, h, if_true]

theorem Rule.isSome_kind? (r : Rule) : r.kind?.isSome = r.hasMeaning := by
  cases r with
  | kw k => cases k <;> rfl
  | _ => rfl

theorem Rule.hasMeaning_of_isExpr {r : Rule} (h : r.isExpr = true) : r.hasMeaning = true := by
  rw [← isSome_kind?, kind?_of_isExpr h]
  rfl

def Handle.entry {k : Kind} (h : Handle k) : Kind × Nat :=
  (k, h.id)

def Access.handles : Access → List (Kind × Nat)
  | call arguments => arguments.map Handle.entry
  | field _ | static _ => []
  | index place => [place.entry]

def NewInit.handles : NewInit → List (Kind × Nat)
  | struct fields => fields.flatMap fun f => f.value.toList.map Handle.entry
  | array length => [length.entry]

def ExprForm.handles : ExprForm → List (Kind × Nat)
  | literal _ | name _ | self | continue_ => []
  | type t => [t.entry]
  | unary _ operand => [operand.entry]
  | cast operand types => operand.entry :: types.map Handle.entry
  | binary first others => first.entry :: others.map fun o => o.2.entry
  | access base steps => base.entry :: steps.flatMap Access.handles
  | new ref init => ref.entry :: init.handles
  | assign left right => [left.entry, right.entry]
  | break_ value | return_ value => value.toList.map Handle.entry
  | block stmts tail => stmts.map Handle.entry ++ tail.toList.map Handle.entry
  | if_ condition consequence alternative =>
      condition.entry :: consequence.entry :: alternative.toList.map Handle.entry
  | while_ condition body => [condition.entry, body.entry]

def Stmt.handles : Stmt → List (Kind × Nat)
  | let_ _ ref init => ref.toList.map Handle.entry ++ init.toList.map Handle.entry
  | expr e => [e.entry]

def TypeRef.handles (t : TypeRef) : List (Kind × Nat) :=
  match t.shape with
  | .tuple elements => elements.map Handle.entry
  | _ => []

def Ast.handles : Ast → List (Kind × Nat)
  | file d =>
      d.uses.map Handle.entry ++ d.interfaces.map Handle.entry ++ d.structs.map Handle.entry ++
        d.enums.map Handle.entry ++ d.fns.map Handle.entry ++ d.globals.map Handle.entry
  | use _ => []
  | struct d =>
      d.attribs.map Handle.entry ++ d.fields.map Handle.entry ++ d.fns.map Handle.entry ++
        d.methods.map Handle.entry
  | interface d =>
      d.attribs.map Handle.entry ++ d.fns.map Handle.entry ++ d.methods.map Handle.entry
  | enum d =>
      d.attribs.map Handle.entry ++ d.fields.map Handle.entry ++ d.fns.map Handle.entry ++
        d.methods.map Handle.entry
  | enumField d => d.type.toList.map Handle.entry
  | fn d | method d =>
      d.attribs.map Handle.entry ++ d.params.map Handle.entry ++
        d.result.toList.map Handle.entry ++ d.body.toList.map Handle.entry
  | field d => [d.type.entry]
  | global d => [d.type.entry, d.value.entry]
  | param d => [d.type.entry]
  | attrib d => d.arguments.toList.flatMap fun arguments => arguments.map Handle.entry
  | type t => t.handles
  | stmt s => s.handles
  | expr e => e.handles

def Access.lists : Access → List (List Nat)
  | call arguments => [Ast.ids arguments]
  | _ => []

def NewInit.lists : NewInit → List (List Nat)
  | struct fields => [fields.flatMap fun f => f.value.toList.map Handle.id]
  | array _ => []

def ExprForm.lists : ExprForm → List (List Nat)
  | cast _ types => [Ast.ids types]
  | binary _ others => [others.map fun o => o.2.id]
  | access _ steps => steps.flatMap Access.lists
  | new _ init => init.lists
  | block stmts _ => [Ast.ids stmts]
  | _ => []

def TypeRef.lists (t : TypeRef) : List (List Nat) :=
  match t.shape with
  | .tuple elements => [Ast.ids elements]
  | _ => []

def Ast.lists : Ast → List (List Nat)
  | file d => [ids d.uses, ids d.interfaces, ids d.structs, ids d.enums, ids d.fns, ids d.globals]
  | struct d => [ids d.attribs, ids d.fields, ids d.fns, ids d.methods]
  | interface d => [ids d.attribs, ids d.fns, ids d.methods]
  | enum d => [ids d.attribs, ids d.fields, ids d.fns, ids d.methods]
  | fn d | method d => [ids d.attribs, ids d.params]
  | attrib d => d.arguments.toList.map ids
  | type t => t.lists
  | expr e => e.lists
  | use _ | enumField _ | field _ | global _ | param _ | stmt _ => []

@[simp] theorem Ast.ids_eq {k : Kind} (hs : List (Handle k)) :
    hs.map (Prod.snd ∘ Handle.entry) = Ast.ids hs := rfl

theorem Access.lists_sublist (a : Access) : a.lists.flatten.Sublist (a.handles.map Prod.snd) := by
  cases a <;> simp [lists, handles]

theorem NewInit.lists_sublist (i : NewInit) : i.lists.flatten.Sublist (i.handles.map Prod.snd) := by
  cases i with
  | struct fields => simp [lists, handles, List.map_flatMap, Handle.entry, Function.comp_def]
  | array length => simp [lists, handles]

theorem ExprForm.lists_sublist (e : ExprForm) :
    e.lists.flatten.Sublist (e.handles.map Prod.snd) := by
  cases e
  case access base steps =>
    simp only [lists, handles, List.map_cons]
    apply List.Sublist.cons
    induction steps with
    | nil => exact .slnil
    | cons a steps ih =>
        rw [List.flatMap_cons, List.flatMap_cons, List.flatten_append, List.map_append]
        exact a.lists_sublist.append ih
  case binary first others => simp [lists, handles, Handle.entry, Function.comp_def]
  case new ref init => exact init.lists_sublist.cons _
  all_goals simp [lists, handles]

theorem Ast.lists_sublist (a : Ast) : a.lists.flatten.Sublist (a.handles.map Prod.snd) := by
  cases a
  case type t =>
    simp only [lists, handles, TypeRef.lists, TypeRef.handles]
    split <;> simp
  case expr e => exact e.lists_sublist
  case attrib d => cases h : d.arguments <;> simp [lists, handles, h]
  all_goals simp [lists, handles]

/-- A kind and a number that name a node of the kind. -/
def Tree.Resolves (t : Tree) (h : Kind × Nat) : Prop :=
  ∃ n ∈ t.nodes, n.id = h.2 ∧ n.rule.kind? = some h.1

namespace Node

/-- A literal that stands for nothing: a number that is too large, a faulty escape, or a character
that is only a run of blanks. -/
inductive BadLiteral (n : Node) (source : Source) : Prop
  | number (hr : n.rule = .intLiteral)
      (h : Lowering.intLimit ≤ Decimal.ofDigits 0 (n.text source))
  | escape (hr : n.rule = .charLiteral ∨ n.rule = .strLiteral) {quote : Char}
      {body : List Char} {is : List Escape.Item}
      (htext : n.text source = quote :: (body ++ [quote])) (hbody : Escape.Spelled is body)
      {i : Escape.Item} (hi : i ∈ is) (h : i.Faulty)
  | blanks (hr : n.rule = .charLiteral) {quote : Char} {body cs : List Char}
      (htext : n.text source = quote :: (body ++ [quote]))
      (hbody : Escape.Spelled [.spaces cs] body)

def BadPattern (n c : Node) : Prop :=
  n.rule = .letStmt ∧ n.children[0]? = some c ∧ c.rule = .tuplePattern

/-- A type that cannot be written as a path: a tuple or an array. -/
def IsPathless (n : Node) : Prop :=
  (∃ base ∈ n.children, base.rule = .tupleType) ∨ ∃ suffix ∈ n.children, suffix.rule = .arraySuffix

/-- The first type argument of a segment, which is a tuple or an array. -/
def BadArgument (n c : Node) : Prop :=
  n.rule = .segment ∧ n.children[1]? = some c ∧ c.IsPathless

/-- A construct that has no meaning, and the error that says so. -/
inductive Offends (n : Node) (source : Source) : Error → Prop
  | literal (h : n.BadLiteral source) (text : String) : n.Offends source (.malformed n.position text)
  | pattern {c : Node} (h : n.BadPattern c) :
      n.Offends source (.unsupported c.position "tuple pattern")
  | argument {c : Node} (h : n.BadArgument c) :
      n.Offends source (.unsupported c.position "non-path generic argument")

end Node

/-- An error that some construct of the tree accounts for. -/
def Tree.Blames (t : Tree) (e : Error) : Prop :=
  ∃ n ∈ t.nodes, n.Offends t.source e

theorem bind_eq_ok_iff {x : Except ε α} {f : α → Except ε β} {b : β} :
    x >>= f = .ok b ↔ ∃ a, x = .ok a ∧ f a = .ok b := by
  cases x <;> simp [bind, Except.bind]

theorem map_eq_ok_iff {x : Except ε α} {f : α → β} {b : β} :
    f <$> x = .ok b ↔ ∃ a, x = .ok a ∧ f a = b := by
  cases x <;> simp [Functor.map, Except.map]

def Tree.Yields (t : Tree) (P : α → Prop) : Except Error α → Prop
  | .ok a => P a
  | .error e => t.Blames e

namespace Tree.Yields

variable {t : Tree} {P : α → Prop} {Q : β → Prop}

theorem mono {P' : α → Prop} {x : Except Error α} (hx : t.Yields P x)
    (h : ∀ a, P a → P' a) : t.Yields P' x := by
  cases x with
  | error e => exact hx
  | ok a => exact h a hx

theorem bind {x : Except Error α} {f : α → Except Error β} (hx : t.Yields P x)
    (hf : ∀ a, x = .ok a → P a → t.Yields Q (f a)) : t.Yields Q (x >>= f) := by
  cases x with
  | error e => exact hx
  | ok a => exact hf a rfl hx

theorem map {x : Except Error α} {f : α → β} (hx : t.Yields P x) (hf : ∀ a, P a → Q (f a)) :
    t.Yields Q (f <$> x) := by
  cases x with
  | error e => exact hx
  | ok a => exact hf a hx

theorem mapM {f : α → Except Error β} {R : α → β → Prop} {l : List α}
    (h : ∀ a ∈ l, t.Yields (R a) (f a)) : t.Yields (List.Forall₂ R l) (l.mapM f) := by
  induction l with
  | nil => exact .nil
  | cons a l ih =>
      rw [List.forall_mem_cons] at h
      rw [List.mapM_cons]
      exact bind h.1 fun b _ hb => bind (ih h.2) fun bs _ hbs => .cons hb hbs

end Tree.Yields

namespace Node

/-- The kind and the number of a node that has a meaning. -/
def mention? (n : Node) : Option (Kind × Nat) :=
  n.rule.kind?.map fun k => (k, n.id)

def entries (ns : List Node) : List (Kind × Nat) :=
  ns.filterMap mention?

variable {c : Node} {k : Kind} {r : Rule}

@[simp] theorem entries_nil : entries [] = [] := rfl

theorem entries_append (ms ns : List Node) : entries (ms ++ ns) = entries ms ++ entries ns :=
  List.filterMap_append

theorem entries_cons (h : c.rule.kind? = some k) (cs : List Node) :
    entries (c :: cs) = (c.handle : Handle k).entry :: entries cs := by
  have hentry : c.mention? = some (k, c.id) := by rw [mention?, h, Option.map_some]
  exact List.filterMap_cons_some hentry

theorem entries_expr (h : c.rule.isExpr = true) (cs : List Node) :
    entries (c :: cs) = (c.handle : Handle .expr).entry :: entries cs :=
  entries_cons (Rule.kind?_of_isExpr h) cs

theorem entries_type (h : c.rule = .ty) (cs : List Node) :
    entries (c :: cs) = (c.handle : Handle .type).entry :: entries cs :=
  entries_cons (by rw [h]; rfl) cs

theorem referents_of_exprs {n : Node} (h : n.rule.passesAll = true)
    (hcs : ∀ c ∈ n.children, c.rule.isExpr = true) : n.referents = n.children :=
  referents_eq_children h fun c hc => Rule.hasMeaning_of_isExpr (hcs c hc)

theorem entries_map {cs : List Node} (h : ∀ c ∈ cs, c.rule.kind? = some k) :
    entries cs = (cs.map (handle : Node → Handle k)).map Handle.entry := by
  induction cs with
  | nil => rfl
  | cons c cs ih =>
      rw [List.forall_mem_cons] at h
      rw [entries_cons h.1, ih h.2, List.map_cons, List.map_cons]

theorem entries_handlesOf (n : Node) (h : r.kind? = some k) :
    (n.handlesOf r : List (Handle k)).map Handle.entry =
      entries (n.children.filter (·.rule = r)) := by
  refine (entries_map fun c hc => ?_).symm
  rw [of_decide_eq_true (List.mem_filter.mp hc).2]
  exact h

theorem entries_head? {cs : List Node} (h : ∀ c ∈ cs, c.rule.kind? = some k)
    (hle : cs.length ≤ 1) :
    (cs.head?.map (handle : Node → Handle k)).toList.map Handle.entry = entries cs := by
  match cs, hle with
  | [], _ => rfl
  | [c], _ => rw [entries_map h]; rfl

theorem entries_toList {o : Option Node} (h : ∀ c ∈ o, c.rule.kind? = some k) :
    (o.map (handle : Node → Handle k)).toList.map Handle.entry = entries o.toList := by
  cases o with
  | none => rfl
  | some c =>
      rw [Option.toList_some, entries_map (List.forall_mem_singleton.mpr (h c rfl))]
      rfl

theorem entries_flatMap {α : Type} {f : α → List (Kind × Nat)} {cs : List Node} {as : List α}
    (h : List.Forall₂ (fun c a => f a = entries c.offers) cs as) :
    as.flatMap f = entries (cs.flatMap offers) := by
  induction h with
  | nil => rfl
  | cons ha _ ih => rw [List.flatMap_cons, List.flatMap_cons, entries_append, ha, ih]

theorem ids_entries {cs : List Node} (h : ∀ c ∈ cs, c.rule.hasMeaning = true) :
    (entries cs).map Prod.snd = cs.map Node.id := by
  induction cs with
  | nil => rfl
  | cons c cs ih =>
      rw [List.forall_mem_cons, ← Rule.isSome_kind?] at h
      obtain ⟨k, hk⟩ := Option.isSome_iff_exists.mp h.1
      rw [entries_cons hk, List.map_cons, List.map_cons, ih h.2]
      rfl

end Node

/-- A meaning refers to just the referents of a node, and its lists keep their order. -/
structure Ast.Refers (a : Ast) (n : Node) : Prop where
  handles : ∃ cs, cs.Perm n.referents ∧ a.handles = Node.entries cs
  lists : ∀ l ∈ a.lists, l.Sublist (n.referents.map Node.id)

theorem Ast.Refers.of_eq {a : Ast} {n : Node} (h : a.handles = Node.entries n.referents) :
    a.Refers n := by
  refine ⟨⟨n.referents, .refl _, h⟩, fun l hl => ?_⟩
  rw [← Node.ids_entries fun c hc => Node.hasMeaning_of_mem_referents hc, ← h]
  exact (List.sublist_flatten_of_mem hl).trans a.lists_sublist

theorem Tree.resolves_of_mem_entries {t : Tree} {cs : List Node} (hcs : ∀ c ∈ cs, c ∈ t.nodes)
    {e : Kind × Nat} (he : e ∈ Node.entries cs) : t.Resolves e := by
  obtain ⟨c, hc, hentry⟩ := List.mem_filterMap.mp he
  obtain ⟨k, hk, rfl⟩ := Option.map_eq_some_iff.mp hentry
  exact ⟨c, hcs c hc, rfl, hk⟩

end XiFront

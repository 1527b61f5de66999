import Mathlib.Tactic.Simproc.ExistsAndEq
import XiFront.Lowering
import XiFront.Proofs.Peg.Yield

/-!
The shape of nodes.  What remains of each rule when a tree is pruned is said once; the children of a
node then spell a word of the body of its rule, and `Layout` lists what these words are.
-/

namespace XiFront

open Peg
open Peg.Expr

namespace Peg.Repeated

theorem of_forall {L : List α → Prop} {l : List α} (h : ∀ x ∈ l, L [x]) : Repeated L l := by
  induction l with
  | nil => exact .nil
  | cons x l ih =>
      have hl : Repeated L l := ih fun y hy => h y (List.mem_cons_of_mem x hy)
      exact .append (h x List.mem_cons_self) hl

theorem iff_forall {L : List α → Prop} {P : α → Prop} (h : ∀ l, L l → ∀ x ∈ l, P x)
    (h' : ∀ x, P x → L [x]) {l : List α} : Repeated L l ↔ ∀ x ∈ l, P x :=
  ⟨Repeated.forall_mem h, fun hl => of_forall fun x hx => h' x (hl x hx)⟩

@[simp] theorem letter {a : α} {l : List α} :
    Repeated (fun w => w = [a]) l ↔ ∀ x ∈ l, x = a :=
  iff_forall (by simp) (by simp)

@[simp] theorem letter_of_two {a b : α} {l : List α} :
    Repeated (fun w => w = [a] ∨ w = [b]) l ↔ ∀ x ∈ l, x = a ∨ x = b :=
  iff_forall (by rintro w (rfl | rfl) <;> simp) (by simp)

@[simp] theorem letter_of_three {a b c : α} {l : List α} :
    Repeated (fun w => w = [a] ∨ w = [b] ∨ w = [c]) l ↔
      ∀ x ∈ l, x = a ∨ x = b ∨ x = c :=
  iff_forall (by rintro w (rfl | rfl | rfl) <;> simp) (by simp)

@[simp] theorem letter_of_four {a b c d : α} {l : List α} :
    Repeated (fun w => w = [a] ∨ w = [b] ∨ w = [c] ∨ w = [d]) l ↔
      ∀ x ∈ l, x = a ∨ x = b ∨ x = c ∨ x = d :=
  iff_forall (by rintro w (rfl | rfl | rfl | rfl) <;> simp) (by simp)

@[simp] theorem letter_of_class {P : α → Prop} {l : List α} :
    Repeated (fun w => ∃ x, P x ∧ w = [x]) l ↔ ∀ x ∈ l, P x :=
  iff_forall (by rintro w ⟨x, hx, rfl⟩; simpa using hx) (by simp)

@[simp] theorem letters_of_class {P : α → Prop} {l : List α} :
    Repeated (fun w => ∀ x ∈ w, P x) l ↔ ∀ x ∈ l, P x :=
  iff_forall (fun _ h => h) (by simp)

@[simp] theorem empty {l : List α} : Repeated (fun w => w = []) l ↔ l = [] := by
  constructor
  · intro h
    induction h with
    | nil => rfl
    | append hw _ ih => rw [hw, ih, List.append_nil]
  · rintro rfl
    exact .nil

end Peg.Repeated

namespace Rule

def isScalarWord : Rule → Bool
  | kw k => k.scalar?.isSome
  | _ => false

def isTypeBase : Rule → Bool
  | kw k => k = .upperSelf || k.scalar?.isSome
  | path | tupleType => true
  | _ => false

def survivor : Rule → Rule → Bool
  | basicType => isScalarWord
  | nonArrayType => isTypeBase
  | _ => isExpr

def Remains : Rule → List Rule → Prop
  | generics, l => l ≠ [] ∧ ∀ x ∈ l, x = ty
  | pattern, l => l = [ident] ∨ l = [tuplePattern]
  | stmt, l => l = [letStmt] ∨ l = [exprStmt]
  | attribList, l => ∀ x ∈ l, x = attrib
  | item, l => ∃ x, Lowering.isItem x = true ∧ l = [x]
  | r, l =>
      if (production r).leavesPair then
        match r.selection with
        | .discard => l = []
        | .fold => ∃ x, r.survivor x = true ∧ l = [x]
        | .store => l = [r]
      else l = []

def Inside (r : Rule) (l : List Rule) : Prop :=
  if (production r).tight then l = [] else (production r).body.Yields Remains l

/-- The rules of the children of a node.  A folded rule with one child leaves no node. -/
def Layout : Rule → List Rule → Prop
  | file, l => ∀ x ∈ l, Lowering.isItem x = true
  | useStmt, l => ∃ names, l = path :: names ∧ (names = [] ∨ names = [ident])
  | structDecl, l =>
      ∃ attribs params bases members,
        l = attribs ++ ident :: (params ++ (bases ++ members)) ∧ (∀ x ∈ attribs, x = attrib) ∧
        (params = [] ∨ params = [genericParams]) ∧ (bases = [] ∨ bases = [impls]) ∧
        ∀ x ∈ members, x = methodDecl ∨ x = fnDecl ∨ x = field
  | interfaceDecl, l =>
      ∃ attribs params bases members,
        l = attribs ++ ident :: (params ++ (bases ++ members)) ∧ (∀ x ∈ attribs, x = attrib) ∧
        (params = [] ∨ params = [genericParams]) ∧ (bases = [] ∨ bases = [impls]) ∧
        ∀ x ∈ members, x = methodDecl ∨ x = fnDecl
  | enumDecl, l =>
      ∃ attribs params fields members,
        l = attribs ++ ident :: (params ++ (fields ++ members)) ∧ (∀ x ∈ attribs, x = attrib) ∧
        (params = [] ∨ params = [genericParams]) ∧ (∀ x ∈ fields, x = enumField) ∧
        ∀ x ∈ members, x = methodDecl ∨ x = fnDecl
  | enumField, l => ∃ types, l = ident :: types ∧ (types = [] ∨ types = [ty])
  | fnDecl, l =>
      ∃ attribs params results bodies,
        l = attribs ++ ident :: (params ++ fnParams :: (results ++ bodies)) ∧
        (∀ x ∈ attribs, x = attrib) ∧ (params = [] ∨ params = [genericParams]) ∧
        (results = [] ∨ results = [ty]) ∧ (bodies = [blockExpr] ∨ bodies = [])
  | methodDecl, l =>
      ∃ attribs params results bodies,
        l = attribs ++ ident :: (params ++ methodParams :: (results ++ bodies)) ∧
        (∀ x ∈ attribs, x = attrib) ∧ (params = [] ∨ params = [genericParams]) ∧
        (results = [] ∨ results = [ty]) ∧ (bodies = [blockExpr] ∨ bodies = [])
  | field, l | param, l => l = [ident, ty]
  | global, l => ∃ e, l = [ident, ty, e] ∧ e.isExpr = true
  | attrib, l => ∃ arguments, l = ident :: arguments ∧ (arguments = [] ∨ arguments = [args])
  | args, l => ∀ x ∈ l, x.isExpr = true
  | genericParams, l => ∃ others, l = ident :: others ∧ ∀ x ∈ others, x = ident
  | impls, l => ∃ others, l = path :: others ∧ ∀ x ∈ others, x = path
  | fnParams, l => ∀ x ∈ l, x = param
  | methodParams, l => ∃ params, l = kw .lowerSelf :: params ∧ ∀ x ∈ params, x = param
  | ty, l =>
      ∃ suffix base, l = base :: suffix ∧ base.isTypeBase = true ∧
        (suffix = [] ∨ suffix = [arraySuffix])
  | tupleType, l => ∀ x ∈ l, x = ty
  | path, l =>
      ∃ dots segments, l = dots ++ segment :: segments ∧ (∀ x ∈ dots, x = dot) ∧
        ∀ x ∈ segments, x = segment
  | segment, l =>
      ∃ name arguments, l = name :: arguments ∧ Lowering.isSegmentName name = true ∧
        ∀ x ∈ arguments, x = ty
  | tuplePattern, l => ∀ x ∈ l, x = ident ∨ x = tuplePattern
  | letStmt, l =>
      ∃ pattern types inits, l = pattern ++ (types ++ inits) ∧
        (pattern = [ident] ∨ pattern = [tuplePattern]) ∧ (types = [] ∨ types = [ty]) ∧
        (inits = [] ∨ inits = [letInit])
  | letInit, l | indexAccess, l => ∃ e, l = [e] ∧ e.isExpr = true
  | exprStmt, l => ∃ e, e.isExpr = true ∧ l = [e]
  | typeExpr, l => l = [ty]
  | unaryExpr, l =>
      ∃ operators e, l = operators ++ [e] ∧
        (∀ x ∈ operators, x = unary .not ∨ x = unary .neg ∨ x = unary .pos) ∧ e.isExpr = true
  | castExpr, l => ∃ types e, l = e :: types ∧ e.isExpr = true ∧ ∀ x ∈ types, x = ty
  | chain v, l =>
      ∃ others e, l = e :: others ∧ e.isExpr = true ∧
        Repeated (fun w => ∃ o e, w = [binary o, e] ∧ o.level = v ∧ e.isExpr = true) others
  | callExpr, l =>
      ∃ steps e, l = e :: steps ∧ e.isExpr = true ∧
        ∀ x ∈ steps, x = args ∨ x = fieldAccess ∨ x = staticAccess ∨ x = indexAccess
  | fieldAccess, l | staticAccess, l => l = [ident]
  | newExpr, l => ∃ init, l = ty :: init ∧ (init = [structInit] ∨ init = [indexAccess])
  | structInit, l => ∀ x ∈ l, x = fieldInit
  | fieldInit, l =>
      ∃ value, l = ident :: value ∧ (value = [] ∨ ∃ e, value = [e] ∧ e.isExpr = true)
  | assignExpr, l => ∃ left right, l = [left, right] ∧ left.isExpr = true ∧ right.isExpr = true
  | breakExpr, l | returnExpr, l => l = [] ∨ ∃ e, e.isExpr = true ∧ l = [e]
  | blockExpr, l =>
      ∃ stmts tail, l = stmts ++ tail ∧ (∀ x ∈ stmts, x = letStmt ∨ x = exprStmt) ∧
        (tail = [] ∨ ∃ e, e.isExpr = true ∧ tail = [e])
  | ifExpr, l =>
      ∃ alternative e, l = e :: blockExpr :: alternative ∧ e.isExpr = true ∧
        (alternative = [] ∨ alternative = [blockExpr] ∨ alternative = [ifExpr])
  | whileExpr, l => ∃ e, l = [e, blockExpr] ∧ e.isExpr = true
  | basicType, _ | nonArrayType, _ | expr, _ | exprWithoutBlock, _ | exprWithBlock, _
  | primaryExpr, _ | groupedExpr, _ | literalExpr, _ => False
  | _, l => l = []

theorem yields_bracketed {R : Rule → List Rule → Prop} {left right : Char}
    {item : Expr Rule} {l : List Rule} :
    (bracketed left item right).Yields R l ↔ Repeated (item.Yields R) l := by
  have hbody : (bracketed left item right).Yields R l ↔
      ∃ l₁ l₂, l = l₁ ++ l₂ ∧ Repeated (item.Yields R) l₁ ∧ (l₂ = [] ∨ item.Yields R l₂) := by
    simp [bracketed, Yields, symbol]
  rw [hbody]
  clear hbody
  constructor
  · rintro ⟨l₁, l₂, rfl, h₁, h₂⟩
    induction h₁ with
    | nil =>
        rcases h₂ with rfl | h₂
        · exact .nil
        · simpa using Repeated.append h₂ .nil
    | append h _ ih =>
        rw [List.append_assoc]
        exact .append h ih
  · intro h
    exact ⟨l, [], by simp, h, .inl rfl⟩

theorem yields_operand {v : Level} {l : List Rule} :
    (operand v).Yields Remains l ↔ ∃ x, x.isExpr = true ∧ l = [x] := by
  cases v <;>
    simp [operand, Level.tighter?, Yields, Remains, production, Production.plain, survivor,
      Rule.selection]

theorem inside_basicType {l : List Rule} (h : Inside basicType l) :
    ∃ x, x.isScalarWord = true ∧ l = [x] := by
  have h : ∃ e ∈ Scalar.all.map fun s => rule (kw s.keyword), e.Yields Remains l :=
    yields_oneOf.mp h
  obtain ⟨e, he, hl⟩ := h
  obtain ⟨s, -, rfl⟩ := List.mem_map.mp he
  refine ⟨kw s.keyword, by simp [isScalarWord], ?_⟩
  cases s <;> exact hl

theorem inside_chain {v : Level} {l : List Rule} (h : Inside (chain v) l) :
    ∃ others e, l = e :: others ∧ e.isExpr = true ∧
      Repeated (fun w => ∃ o e, w = [binary o, e] ∧ o.level = v ∧ e.isExpr = true) others := by
  obtain ⟨l₁, others, rfl, h₁, hothers⟩ : (chainBody v).Yields Remains l := h
  obtain ⟨e, he, rfl⟩ := yields_operand.mp h₁
  refine ⟨others, e, rfl, he, Repeated.mono ?_ hothers⟩
  rintro w ⟨w₁, w₂, rfl, hw₁, hw₂⟩
  obtain ⟨x, hx, rfl⟩ := yields_operand.mp hw₂
  obtain ⟨d, hd, hw₁⟩ := yields_oneOf.mp hw₁
  rw [← List.map_cons (f := fun o => rule (binary o))] at hd
  obtain ⟨o, ho, rfl⟩ := List.mem_map.mp hd
  cases (show w₁ = [binary o] from hw₁)
  exact ⟨o, x, rfl, (BinaryOp.level_eq_iff o v).mpr ho, hx⟩

theorem inside_segment {l : List Rule} (h : Inside segment l) :
    ∃ name arguments, l = name :: arguments ∧ Lowering.isSegmentName name = true ∧
      ∀ x ∈ arguments, x = ty := by
  obtain ⟨l₁, arguments, rfl, h₁, h₂⟩ := h
  have harguments : ∀ x ∈ arguments, x = ty := by
    rcases h₂ with rfl | h₂
    · exact nofun
    · exact h₂.2
  rcases h₁ with h₁ | ⟨x, hx, rfl⟩ | h₁
  · cases (show l₁ = [ident] from h₁)
    exact ⟨ident, arguments, rfl, rfl, harguments⟩
  · refine ⟨x, arguments, rfl, ?_, harguments⟩
    cases x with
    | kw k => simpa [Lowering.isSegmentName] using .inr hx
    | _ => exact nomatch hx
  · cases (show l₁ = [kw .upperSelf] from h₁)
    exact ⟨kw .upperSelf, arguments, rfl, rfl, harguments⟩

def isWrapper : Rule → Bool
  | basicType | nonArrayType | expr | exprWithoutBlock | exprWithBlock | primaryExpr
  | groupedExpr | literalExpr => true
  | _ => false

theorem isTypeBase_of_isScalarWord {x : Rule} (h : x.isScalarWord = true) :
    x.isTypeBase = true := by
  cases x with
  | kw k => simpa [isTypeBase] using .inr h
  | _ => exact nomatch h

theorem inside_wrapper {r : Rule} {l : List Rule} (hr : r.isWrapper = true)
    (h : Inside r l) : ∃ x, r.survivor x = true ∧ l = [x] := by
  cases r with
  | basicType => exact inside_basicType h
  | nonArrayType =>
      rcases h with ⟨x, hx, rfl⟩ | h | h | h
      · exact ⟨x, isTypeBase_of_isScalarWord hx, rfl⟩
      · exact ⟨_, rfl, h⟩
      · exact ⟨_, rfl, h⟩
      · exact ⟨_, rfl, h⟩
  | expr => exact h.elim id id
  | exprWithoutBlock =>
      rcases h with h | h | h | h
      · exact ⟨_, rfl, h⟩
      · exact ⟨_, rfl, h⟩
      · exact ⟨_, rfl, h⟩
      · exact h
  | exprWithBlock =>
      rcases h with h | h | h
      · exact ⟨_, rfl, h⟩
      · exact ⟨_, rfl, h⟩
      · exact ⟨_, rfl, h⟩
  | primaryExpr =>
      rcases h with h | h | h | h | h | h | h
      · exact h
      · exact ⟨_, rfl, h⟩
      · exact h
      · exact h
      · exact ⟨_, rfl, h⟩
      · exact ⟨_, rfl, h⟩
      · exact ⟨_, rfl, h⟩
  | groupedExpr =>
      obtain ⟨l₁, l₂, rfl, rfl, l₃, l₄, rfl, ⟨x, hx, rfl⟩, rfl⟩ := h
      exact ⟨x, hx, rfl⟩
  | literalExpr =>
      rcases h with h | h | h | h | h | h | h
      all_goals exact ⟨_, rfl, h⟩
  | _ => exact nomatch hr

theorem layout_of_inside {r : Rule} {l : List Rule} (hpair : (production r).leavesPair = true)
    (hfold : r.selection = .fold → l.length ≠ 1) (h : Inside r l) : Layout r l := by
  have hwrapper (hr : r.isWrapper = true) : r.selection ≠ .fold := by
    intro hselection
    obtain ⟨x, -, rfl⟩ := inside_wrapper hr h
    exact hfold hselection rfl
  cases r
  case segment => exact inside_segment h
  case chain v => exact inside_chain h
  case assignExpr =>
    obtain ⟨l₁, l₂, rfl, ⟨x, hx, rfl⟩, rfl | ⟨l₃, l₄, rfl, rfl, l₅, l₆, rfl, rfl, y, hy, rfl⟩⟩ := h
    · exact absurd rfl (hfold rfl)
    · exact ⟨x, y, rfl, hx, hy⟩
  case basicType => exact hwrapper rfl rfl
  case nonArrayType => exact hwrapper rfl rfl
  case expr => exact hwrapper rfl rfl
  case exprWithoutBlock => exact hwrapper rfl rfl
  case exprWithBlock => exact hwrapper rfl rfl
  case primaryExpr => exact hwrapper rfl rfl
  case groupedExpr => exact hwrapper rfl rfl
  case literalExpr => exact hwrapper rfl rfl
  -- Opening the body of any other rule gives its words as they are listed.
  all_goals clear hwrapper
  all_goals
    simp [Inside, production, Yields, yields_bracketed, Remains, Production.plain,
      Production.token, Production.silent, Production.blank, Rule.selection, survivor,
      Keyword.selection, symbol, separated, functionBody, declaration, pathBody] at hpair h
  all_goals exact h

/-- What a pair leaves, by the rules of its remaining children. -/
def selected (r : Rule) (l : List Rule) : List Rule :=
  match r.selection, l with
  | .discard, _ => []
  | .fold, [x] => [x]
  | _, _ => [r]

theorem remains_iff_of_leavesPair {r : Rule} {l : List Rule}
    (hpair : (production r).leavesPair = true) :
    Remains r l ↔ match r.selection with
      | .discard => l = []
      | .fold => ∃ x, r.survivor x = true ∧ l = [x]
      | .store => l = [r] := by
  cases r <;> first | rfl | exact nomatch hpair

theorem fold_cases {r : Rule} (h : r.selection = .fold) :
    r.isWrapper = true ∨ (∃ v, r = chain v) ∨ r = castExpr ∨ r = unaryExpr ∨ r = callExpr ∨
      r = assignExpr := by
  cases r
  case kw k => cases k <;> exact nomatch h
  all_goals simp [Rule.selection, isWrapper] at h ⊢

theorem survivor_of_inside {r x : Rule} (hfold : r.selection = .fold) (h : Inside r [x]) :
    r.survivor x = true := by
  rcases fold_cases hfold with hwrapper | ⟨v, rfl⟩ | rfl | rfl | rfl | rfl
  · obtain ⟨y, hy, hl⟩ := inside_wrapper hwrapper h
    cases hl
    exact hy
  · obtain ⟨others, e, hl, he, -⟩ := inside_chain h
    cases hl
    exact he
  · obtain ⟨l₁, l₂, hl, ⟨e, he, rfl⟩, -⟩ := h
    cases hl
    exact he
  · obtain ⟨l₁, l₂, hl, -, e, he, rfl⟩ := h
    cases l₁ with
    | nil =>
        cases hl
        exact he
    | cons y ys => simp at hl
  · obtain ⟨l₁, l₂, hl, ⟨e, he, rfl⟩, -⟩ := h
    cases hl
    exact he
  · obtain ⟨l₁, l₂, hl, ⟨e, he, rfl⟩, -⟩ := h
    cases hl
    exact he

theorem survivor_self {r : Rule} {l : List Rule} (hfold : r.selection = .fold)
    (h : Inside r l) (hl : l.length ≠ 1) : r.survivor r = true := by
  rcases fold_cases hfold with hwrapper | ⟨v, rfl⟩ | rfl | rfl | rfl | rfl
  · obtain ⟨y, hy, rfl⟩ := inside_wrapper hwrapper h
    exact absurd rfl hl
  all_goals rfl

theorem remains_selected {r : Rule} {l : List Rule} (hpair : (production r).leavesPair = true)
    (h : Inside r l) : Remains r (selected r l) := by
  rw [remains_iff_of_leavesPair hpair]
  unfold selected
  cases hselection : r.selection with
  | discard => rfl
  | fold =>
      match l, h with
      | [], h => exact ⟨r, survivor_self hselection h (by simp), rfl⟩
      | [x], h => exact ⟨x, survivor_of_inside hselection h, rfl⟩
      | x :: y :: others, h => exact ⟨r, survivor_self hselection h (by simp), rfl⟩
  | store => rfl

theorem remains_of_silent {r : Rule} {l : List Rule} (hpair : (production r).leavesPair = false)
    (h : Inside r l) : Remains r l := by
  cases r
  case generics =>
    obtain ⟨l₁, l₂, rfl, rfl, l₃, l₄, rfl, h₃, l₅, l₆, rfl, h₅, rfl⟩ := h
    cases (show l₃ = [ty] from h₃)
    have htypes : ∀ x ∈ l₅, x = ty := by
      refine Repeated.forall_mem ?_ h₅
      rintro w ⟨w₁, w₂, rfl, rfl, hw₂⟩
      cases (show w₂ = [ty] from hw₂)
      simp
    exact ⟨by simp, by simpa using htypes⟩
  case pattern => exact h
  case stmt => exact h
  case attribList =>
    obtain ⟨l₁, l₂, rfl, rfl, h₂⟩ := h
    exact Repeated.letter.mp (yields_bracketed.mp h₂)
  case item =>
    rcases h with h | h | h | h | h | h
    all_goals exact ⟨_, rfl, h⟩
  -- What is left are parts of tokens, which leave nothing.
  all_goals
    simp [Inside, production, Yields, Production.plain, Production.token, Production.silent,
      Production.blank, symbol, plus, Remains] at hpair h ⊢
  all_goals exact h

/-- Whether a rule can be among what remains of another. -/
def remnant : Rule → Rule → Bool
  | generics, x => x = ty
  | pattern, x => x = ident || x = tuplePattern
  | stmt, x => x = letStmt || x = exprStmt
  | attribList, x => x = attrib
  | item, x => Lowering.isItem x
  | r, x => x = r || r.selection = .fold && r.survivor x

/-- Whether the nodes of a rule can have children of another. -/
def admits (r x : Rule) : Bool :=
  (production r).body.mentions.any fun part => remnant part x

theorem remnant_of_remains {r x : Rule} {l : List Rule} (h : Remains r l) (hx : x ∈ l) :
    remnant r x = true := by
  cases hpair : (production r).leavesPair with
  | true =>
      have hremnant : remnant r x = (decide (x = r) || decide (r.selection = .fold) && r.survivor x) := by
        cases r
        case generics | pattern | stmt | attribList | item => exact nomatch hpair
        all_goals rfl
      rw [remains_iff_of_leavesPair hpair] at h
      rw [hremnant]
      cases hselection : r.selection with
      | discard =>
          rw [hselection] at h
          rw [h] at hx
          exact nomatch hx
      | fold =>
          rw [hselection] at h
          obtain ⟨y, hy, rfl⟩ := h
          cases List.mem_singleton.mp hx
          simp [hy]
      | store =>
          rw [hselection] at h
          rw [h] at hx
          cases List.mem_singleton.mp hx
          simp
  | false =>
      cases r
      case generics => simpa [remnant] using h.2 x hx
      case pattern =>
        rcases h with rfl | rfl
        all_goals
          cases List.mem_singleton.mp hx
          rfl
      case stmt =>
        rcases h with rfl | rfl
        all_goals
          cases List.mem_singleton.mp hx
          rfl
      case attribList => simpa [remnant] using h x hx
      case item =>
        obtain ⟨y, hy, rfl⟩ := h
        cases List.mem_singleton.mp hx
        exact hy
      all_goals
        simp [production, Production.plain, Production.token, Production.silent, Production.blank,
          Remains] at hpair h
      all_goals
        rw [h] at hx
        exact nomatch hx

theorem admits_of_inside {r x : Rule} {l : List Rule} (h : Inside r l) (hx : x ∈ l) :
    admits r x = true := by
  unfold Inside at h
  split at h
  · rw [h] at hx
    exact nomatch hx
  · obtain ⟨part, hpart, l', hl', hx'⟩ := h.mem_mentions hx
    exact List.any_eq_true.mpr ⟨part, hpart, remnant_of_remains hl' hx'⟩

end Rule

end XiFront

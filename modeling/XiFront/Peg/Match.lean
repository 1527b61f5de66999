import XiFront.Peg.Expr

/-!
Running a grammar over a text.  The run is a function of a fuel that bounds its depth; a reply tells
running out of fuel apart from a mismatch.  An observer may watch every rule that is tried.
-/

namespace XiFront.Peg

/-- A matched rule with the byte offsets of its text and the pairs inside it. -/
inductive Pair (ρ : Type) where
  | node (rule : ρ) (start stop : Nat) (children : List (Pair ρ))

namespace Pair

def rule : Pair ρ → ρ
  | node r _ _ _ => r

def start : Pair ρ → Nat
  | node _ a _ _ => a

def stop : Pair ρ → Nat
  | node _ _ b _ => b

def children : Pair ρ → List (Pair ρ)
  | node _ _ _ cs => cs

@[simp] theorem rule_node (r : ρ) (a b : Nat) (cs : List (Pair ρ)) :
    (node r a b cs).rule = r := rfl

@[simp] theorem start_node (r : ρ) (a b : Nat) (cs : List (Pair ρ)) :
    (node r a b cs).start = a := rfl

@[simp] theorem stop_node (r : ρ) (a b : Nat) (cs : List (Pair ρ)) :
    (node r a b cs).stop = b := rfl

@[simp] theorem children_node (r : ρ) (a b : Nat) (cs : List (Pair ρ)) :
    (node r a b cs).children = cs := rfl

end Pair

/-- What is left to read, and the byte offset where it begins. -/
structure Cursor where
  rest : List Char
  offset : Nat

namespace Cursor

def ofText (text : List Char) : Cursor :=
  ⟨text, 0⟩

/-- The cursor after `text`, if that is what comes next. -/
def text? (c : Cursor) : List Char → Option Cursor
  | [] => some c
  | x :: xs =>
      match c.rest with
      | y :: ys => if x = y then text? ⟨ys, c.offset + y.utf8Size⟩ xs else none
      | [] => none

/-- The cursor after one character of `set`, if one comes next. -/
def char? (c : Cursor) (set : Charset) : Option Cursor :=
  match c.rest with
  | y :: ys => if set.contains y then some ⟨ys, c.offset + y.utf8Size⟩ else none
  | [] => none

@[simp] theorem text?_nil (c : Cursor) : c.text? [] = some c := rfl

@[simp] theorem char?_nil (offset : Nat) (set : Charset) :
    (Cursor.mk [] offset).char? set = none := rfl

@[simp] theorem char?_cons (y : Char) (ys : List Char) (offset : Nat) (set : Charset) :
    (Cursor.mk (y :: ys) offset).char? set =
      if set.contains y then some ⟨ys, offset + y.utf8Size⟩ else none := rfl

end Cursor

inductive Reply (ρ : Type) where
  | stuck
  | fail
  | ok (pairs : List (Pair ρ)) (after : Cursor)

namespace Reply

def ofOption : Option Cursor → Reply ρ
  | some c => ok [] c
  | none => fail

def matched : Reply ρ → Bool
  | ok _ _ => true
  | _ => false

/-- The reply of a rule whose body, begun at `offset`, replied so. -/
def close (r : ρ) (leavesPair : Bool) (offset : Nat) : Reply ρ → Reply ρ
  | ok pairs after =>
      if leavesPair then ok [.node r offset after.offset pairs] after else ok pairs after
  | reply => reply

@[simp] theorem ofOption_some (c : Cursor) : (ofOption (some c) : Reply ρ) = ok [] c := rfl

@[simp] theorem ofOption_none : (ofOption none : Reply ρ) = fail := rfl

end Reply

/-- How an expression is being run: tightly or with filler, and inside an odd number of negations
or not. -/
structure Mode where
  tight : Bool
  negated : Bool

/-- One rule tried at a place where filler is allowed. -/
structure Visit (ρ : Type) where
  rule : ρ
  leavesPair : Bool
  offset : Nat
  negated : Bool
  matched : Bool

/-- An observer keeps a state.  After each visit it is given the state before the visit and the
state that the visits inside it have left. -/
abbrev Observer (ρ σ : Type) :=
  Visit ρ → σ → σ → σ

/-- Watches nothing. -/
def Observer.idle : Observer ρ Unit :=
  fun _ _ s => s

namespace Grammar

/-- Runs an expression.  A failed part leaves no trace but in the observer's state. -/
def run (g : Grammar ρ) (observe : Observer ρ σ) :
    Nat → Mode → Expr ρ → Cursor → σ → Reply ρ × σ
  | 0, _, _, _, s => (.stuck, s)
  | _ + 1, _, .text chars, c, s => (.ofOption (c.text? chars), s)
  | _ + 1, _, .char set, c, s => (.ofOption (c.char? set), s)
  | _ + 1, _, .start, c, s => if c.offset = 0 then (.ok [] c, s) else (.fail, s)
  | _ + 1, _, .finish, c, s => if c.rest.isEmpty then (.ok [] c, s) else (.fail, s)
  | fuel + 1, m, .rule r, c, s =>
      let p := g.production r
      match run g observe fuel ⟨m.tight || p.tight, m.negated⟩ p.body c s with
      | (reply, t) =>
          if m.tight then (reply, t)
          else
            (reply.close r p.leavesPair c.offset,
              observe ⟨r, p.leavesPair, c.offset, m.negated, reply.matched⟩ s t)
  | fuel + 1, m, .seq first second, c, s =>
      match run g observe fuel m first c s with
      | (.ok pairs c₁, s₁) =>
          match (if m.tight then (.ok [] c₁, s₁)
            else run g observe fuel ⟨true, m.negated⟩ g.filler c₁ s₁) with
          | (.ok _ c₂, s₂) =>
              match run g observe fuel m second c₂ s₂ with
              | (.ok others c₃, s₃) => (.ok (pairs ++ others) c₃, s₃)
              | failed => failed
          | failed => failed
      | failed => failed
  | fuel + 1, m, .alt first second, c, s =>
      match run g observe fuel m first c s with
      | (.fail, s₁) => run g observe fuel m second c s₁
      | settled => settled
  | fuel + 1, m, .opt body, c, s =>
      match run g observe fuel m body c s with
      | (.fail, s₁) => (.ok [] c, s₁)
      | settled => settled
  | fuel + 1, m, .star body, c, s =>
      match run g observe fuel m body c s with
      | (.ok pairs c₁, s₁) =>
          match run g observe fuel m (.more body) c₁ s₁ with
          | (.ok others c₂, s₂) => (.ok (pairs ++ others) c₂, s₂)
          | failed => failed
      | (.fail, s₁) => (.ok [] c, s₁)
      | (.stuck, s₁) => (.stuck, s₁)
  | fuel + 1, m, .more body, c, s =>
      match (if m.tight then (.ok [] c, s)
        else run g observe fuel ⟨true, m.negated⟩ g.filler c s) with
      | (.ok _ c₁, s₁) =>
          match run g observe fuel m body c₁ s₁ with
          | (.ok pairs c₂, s₂) =>
              match run g observe fuel m (.more body) c₂ s₂ with
              | (.ok others c₃, s₃) => (.ok (pairs ++ others) c₃, s₃)
              | failed => failed
          | (.fail, s₂) => (.ok [] c, s₂)
          | (.stuck, s₂) => (.stuck, s₂)
      | (.fail, s₁) => (.ok [] c, s₁)
      | (.stuck, s₁) => (.stuck, s₁)
  | fuel + 1, m, .neg body, c, s =>
      match run g observe fuel ⟨m.tight, !m.negated⟩ body c s with
      | (.ok _ _, s₁) => (.fail, s₁)
      | (.fail, s₁) => (.ok [] c, s₁)
      | (.stuck, s₁) => (.stuck, s₁)

def fuel (g : Grammar ρ) (length : Nat) : Nat :=
  (length + 1) * g.depth

/-- Runs a rule at the start of a text, watched from the state `s`. -/
def observed (g : Grammar ρ) (observe : Observer ρ σ) (r : ρ) (text : List Char) (s : σ) :
    Reply ρ × σ :=
  g.run observe (g.fuel text.length) ⟨false, false⟩ (.rule r) (.ofText text) s

/-- Matches a rule at the start of a text.  The match need not reach the end. -/
def reply (g : Grammar ρ) (r : ρ) (text : List Char) : Reply ρ :=
  (g.observed .idle r text ()).1

end Grammar

end XiFront.Peg

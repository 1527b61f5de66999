import XiFront.Peg.Match

/-!
What a failed run tried at the furthest offset it got to.  A rule stands for the rules tried inside
it at the same offset, unless exactly one of those was noted, which then stands for itself.
-/

namespace XiFront.Peg

structure Attempts (ρ : Type) where
  offset : Nat
  expected : List ρ
  unexpected : List ρ
  deriving Repr

namespace Attempts

def initial : Attempts ρ :=
  ⟨0, [], []⟩

def count (a : Attempts ρ) (offset : Nat) : Nat :=
  if a.offset = offset then a.expected.length + a.unexpected.length else 0

/-- The attempts made at `offset` so far, all older ones forgotten. -/
def since (a : Attempts ρ) (offset : Nat) : Attempts ρ :=
  if a.offset = offset then a else ⟨offset, [], []⟩

def add (a : Attempts ρ) (negated : Bool) (r : ρ) : Attempts ρ :=
  if negated then { a with unexpected := r :: a.unexpected }
  else { a with expected := r :: a.expected }

/-- Notes a rule that failed, or that matched where it must not. -/
def note (v : Visit ρ) (before after : Attempts ρ) : Attempts ρ :=
  if !v.leavesPair || v.matched != v.negated then after
  else if after.count v.offset = before.count v.offset + 1 then after
  else if v.offset < after.offset then after
  else (before.since v.offset).add v.negated v.rule

@[simp] theorem count_initial (offset : Nat) : (initial : Attempts ρ).count offset = 0 := by
  unfold count
  split <;> rfl

@[simp] theorem offset_since (a : Attempts ρ) (offset : Nat) :
    (a.since offset).offset = offset := by
  unfold since
  split <;> simp_all

@[simp] theorem offset_add (a : Attempts ρ) (negated : Bool) (r : ρ) :
    (a.add negated r).offset = a.offset := by
  cases negated <;> rfl

end Attempts

namespace Grammar

/-- The attempts of a run of a rule at the start of a text. -/
def attempts (g : Grammar ρ) (r : ρ) (text : List Char) : Attempts ρ :=
  (g.observed Attempts.note r text .initial).2

end Grammar

end XiFront.Peg

import XiFront.Peg.Expr

namespace XiFront.Peg

namespace Expr

def mentions : Expr ρ → List ρ
  | text _ | char _ | start | finish => []
  | rule r => [r]
  | seq a b | alt a b => a.mentions ++ b.mentions
  | opt a | star a | more a | neg a => a.mentions

def nullable (empty : ρ → Bool) : Expr ρ → Bool
  | text chars => chars.isEmpty
  | char _ => false
  | start | finish => true
  | rule r => empty r
  | seq a b => a.nullable empty && b.nullable empty
  | alt a b => a.nullable empty || b.nullable empty
  | opt _ | star _ | more _ | neg _ => true

/-- The rules that can be entered before a character is read. -/
def leading (empty : ρ → Bool) (filler : List ρ) : Expr ρ → List ρ
  | text _ | char _ | start | finish => []
  | rule r => [r]
  | seq a b =>
      a.leading empty filler ++
        if a.nullable empty then filler ++ b.leading empty filler else []
  | alt a b => a.leading empty filler ++ b.leading empty filler
  | opt a | star a | neg a => a.leading empty filler
  | more a => filler ++ a.leading empty filler

/-- Whether a repetition somewhere in the expression repeats what can match nothing. -/
def idles (empty : ρ → Bool) : Expr ρ → Bool
  | text _ | char _ | start | finish | rule _ => false
  | seq a b | alt a b => a.idles empty || b.idles empty
  | opt a | neg a => a.idles empty
  | star a | more a => a.nullable empty || a.idles empty

end Expr

def reach [DecidableEq ρ] (next : ρ → List ρ) : Nat → List ρ → List ρ → List ρ
  | 0, _, seen => seen
  | _ + 1, [], seen => seen
  | fuel + 1, r :: pending, seen =>
      if r ∈ seen then reach next fuel pending seen
      else reach next fuel (next r ++ pending) (r :: seen)

/-- Something that a grammar should not have. -/
inductive Problem (ρ : Type) where
  | leftRecursive (r : ρ)
  | idleLoop (r : ρ)
  | unreachable (r start : ρ)
  deriving DecidableEq, Repr

namespace Problem

def rule : Problem ρ → ρ
  | leftRecursive r => r
  | idleLoop r => r
  | unreachable r _ => r

def message (name : ρ → String) : Problem ρ → String
  | leftRecursive _ => "rule can be entered again before anything is read"
  | idleLoop _ => "rule repeats what can match nothing"
  | unreachable _ start => "rule is unreachable from '" ++ name start ++ "'"

end Problem

namespace Grammar

def empty (g : Grammar ρ) : Nat → ρ → Bool
  | 0, _ => false
  | rounds + 1, r => (g.production r).body.nullable (g.empty rounds)

def calls (g : Grammar ρ) (r : ρ) : List ρ :=
  (g.production r).body.mentions

def leadingCalls (g : Grammar ρ) (rounds : Nat) (r : ρ) : List ρ :=
  (g.production r).body.leading (g.empty rounds) g.filler.mentions

/-- All problems of a grammar with the given rules and start rule. -/
def problems [DecidableEq ρ] (g : Grammar ρ) (rules : List ρ) (start : ρ) :
    List (Problem ρ) :=
  let rounds := rules.length
  let work (next : ρ → List ρ) := rounds + (rules.flatMap next).length
  let leading := g.leadingCalls rounds
  let recursive r := r ∈ reach leading (work leading) (leading r) []
  let idle r := (g.production r).body.idles (g.empty rounds)
  let reached := reach g.calls (work g.calls + g.filler.mentions.length + 1)
    (start :: g.filler.mentions) []
  (rules.filter recursive).map .leftRecursive ++
    (rules.filter idle).map .idleLoop ++
    (rules.filter (· ∉ reached)).map (.unreachable · start)

end Grammar

end XiFront.Peg

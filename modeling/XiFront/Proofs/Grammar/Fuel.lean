import XiFront.Proofs.Peg.Ranking
import XiFront.Grammar

namespace XiFront

open Peg

namespace Rule

def isEmpty : Rule → Bool
  | endOfInput | file => true
  | _ => false

/-- How far a rule climbs before a character is read. -/
def rank : Rule → Nat
  | whitespace => 5
  | breakExpr | returnExpr | newExpr | letStmt | ifExpr | whileExpr | global | useStmt => 6
  | regular | exprWithBlock | fnDecl | methodDecl | structDecl | interfaceDecl | enumDecl => 9
  | character | single | literalExpr => 11
  | item => 15
  | basicType => 16
  | file => 19
  | keyword => 49
  | ident => 52
  | pattern | fieldInit | attrib | param | field | enumField => 54
  | segment => 55
  | path => 59
  | nonArrayType => 63
  | ty => 65
  | typeExpr => 66
  | primaryExpr => 73
  | callExpr => 75
  | unaryExpr => 77
  | castExpr => 79
  | chain .multiplicative => 81
  | chain .additive => 83
  | chain .comparison => 85
  | chain .equality => 87
  | chain .logAnd => 89
  | chain .logOr => 91
  | assignExpr => 93
  | exprWithoutBlock => 97
  | expr => 99
  | exprStmt => 100
  | stmt => 102
  | _ => 4

def fillerRank : Nat := 8

def ranked (r : Rule) : Bool :=
  let body := (production r).body
  (isEmpty r || !body.nullable isEmpty) &&
    (decide (body.climb isEmpty rank 0 ≤ rank r) &&
      body.within isEmpty rank 0 grammar.depth) &&
    ((production r).tight ||
      decide (body.climb isEmpty rank fillerRank ≤ rank r) &&
        body.within isEmpty rank fillerRank grammar.depth)

theorem ranked_all : ∀ r ∈ all, ranked r = true := by
  decide +kernel

theorem rank_lt_depth : ∀ r ∈ all, rank r < grammar.depth := by
  decide +kernel

theorem of_ranked {r : Rule} (h : ranked r = true) :
    (isEmpty r = false → (production r).body.nullable isEmpty = false) ∧
    ∀ tight, ((production r).tight = true → tight = true) →
      (production r).body.climb isEmpty rank (if tight then 0 else fillerRank) ≤ rank r ∧
      (production r).body.within isEmpty rank (if tight then 0 else fillerRank)
        grammar.depth = true := by
  simp only [ranked, Bool.and_eq_true, Bool.or_eq_true, decide_eq_true_eq,
    Bool.not_eq_true'] at h
  obtain ⟨⟨hempty, hclosed⟩, hopen⟩ := h
  refine ⟨fun hfull => hempty.resolve_left (by simp [hfull]), fun tight htight => ?_⟩
  cases tight with
  | true => exact hclosed
  | false => exact hopen.resolve_left fun h => nomatch htight h

end Rule

/-- The grammar of Xi climbs a bounded way. -/
def ranking : Ranking grammar where
  empty := Rule.isEmpty
  rank := Rule.rank
  filler := Rule.fillerRank
  nullable_body := fun r => (Rule.of_ranked (Rule.ranked_all r r.mem_all)).1
  climb_body := fun r tight htight =>
    ((Rule.of_ranked (Rule.ranked_all r r.mem_all)).2 tight htight).1
  within_body := fun r tight htight =>
    ((Rule.of_ranked (Rule.ranked_all r r.mem_all)).2 tight htight).2
  climb_filler := by decide
  within_filler := by decide

theorem answer_reads_something {tight : Bool} {e : Expr Rule} {c c' : Cursor}
    {ps : List (Pair Rule)} (hnull : e.nullable Rule.isEmpty = false)
    (h : grammar.answer tight e c = .ok ps c') : ∃ s, c.Reads s c' ∧ s ≠ [] := by
  have hprogress := Grammar.answer_upholds (Grammar.round_progress ranking.nullable_body)
  obtain ⟨s, hs, hne⟩ := hprogress _ _ _ _ _ h
  exact ⟨s, hs, hne hnull⟩

theorem fits_rule (tight : Bool) (r : Rule) : ranking.Fits tight (.rule r) :=
  decide_eq_true (Rule.rank_lt_depth r r.mem_all)

theorem run_eq_answer (r : Rule) {c : Cursor} {fuel : Nat}
    (hfuel : grammar.fuel c.rest.length ≤ fuel) (observe : Observer Rule σ) (m : Mode) (s : σ) :
    (grammar.run observe fuel m (.rule r) c s).1 = grammar.answer m.tight (.rule r) c :=
  ranking.run_eq_answer (Rule.rank_lt_depth r r.mem_all) hfuel observe m s

theorem reply_eq_answer (r : Rule) (source : Source) :
    grammar.reply r source = grammar.answer false (.rule r) (.ofText source) :=
  ranking.reply_eq_answer r (Rule.rank_lt_depth r r.mem_all) source

end XiFront

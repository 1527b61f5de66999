import Mathlib.Logic.Relation
import XiFront.Proofs.Grammar.Fuel

namespace XiFront

open Peg Relation

namespace Peg

def Grammar.Reached (g : Grammar ρ) (p q : Call ρ) : Prop :=
  ReflTransGen (g.CalledBy g.answer) q p

namespace Ranking

variable {g : Grammar ρ} {p q : Call ρ}

theorem acc_called (k : Ranking g) (hfits : k.Fits p.tight p.expr) :
    Acc (g.CalledBy g.answer) p := by
  generalize hneed : k.need p.tight p.expr p.cursor = need
  induction need using Nat.strongRecOn generalizing p with
  | ind need ih =>
      constructor
      intro q hq
      obtain ⟨hqfits, hless⟩ := k.need_lt_of_called k.answer_progress hq hfits
      exact ih _ (hneed ▸ hless) hqfits rfl

theorem fits_of_reached (k : Ranking g) (hfits : k.Fits p.tight p.expr) (h : g.Reached p q) :
    k.Fits q.tight q.expr := by
  induction h using ReflTransGen.head_induction_on with
  | refl => exact hfits
  | head hcall _ ih => exact (k.need_lt_of_called k.answer_progress hcall ih).1

theorem need_lt_of_transGen (k : Ranking g) (hfits : k.Fits p.tight p.expr)
    (h : TransGen (g.CalledBy g.answer) q p) :
    k.need q.tight q.expr q.cursor < k.need p.tight p.expr p.cursor := by
  induction h using TransGen.head_induction_on with
  | single hcall => exact (k.need_lt_of_called k.answer_progress hcall hfits).2
  | head hcall hrest ih =>
      have hmiddle := k.fits_of_reached hfits hrest.to_reflTransGen
      exact Nat.lt_trans (k.need_lt_of_called k.answer_progress hcall hmiddle).2 ih

theorem reply_eq_of_equations (k : Ranking g) (hfits : k.Fits p.tight p.expr)
    {parts : Replies ρ}
    (h : ∀ q, g.Reached p q → q.reply parts = q.reply (g.round parts)) :
    p.reply parts = p.reply g.answer := by
  have hacc := k.acc_called hfits
  induction hacc with
  | intro p _ ih =>
      have hanswer : p.reply g.answer = p.reply (g.round g.answer) := g.answer_eq_round _ _ _
      rw [h p .refl, hanswer]
      apply Grammar.round_congr
      intro q hq
      apply ih q hq (k.need_lt_of_called k.answer_progress hq hfits).1
      intro q' hq'
      exact h q' (hq'.tail hq)

end Ranking

end Peg

/-- From every rule and on every text: the calls are well-founded, and so their equations have one
solution; no rule calls itself before a character is read, what is repeated reads a character each
time, and every fuel from the grammar's own on gives the one reply, a match or a mismatch. -/
theorem run_ends (r : Rule) (source : Source) :
    Acc (grammar.CalledBy grammar.answer) (.begin r source) ∧
      (∀ parts : Replies Rule,
        (∀ q, grammar.Reached (.begin r source) q → q.reply parts = q.reply (grammar.round parts)) →
        Call.reply parts (.begin r source) = Call.reply grammar.answer (.begin r source)) ∧
      (∀ tight tight' s c, grammar.Reached (.begin r source) ⟨tight, .rule s, c⟩ →
        ¬TransGen (grammar.CalledBy grammar.answer) ⟨tight', .rule s, c⟩ ⟨tight, .rule s, c⟩) ∧
      (∀ tight body c, grammar.Reached (.begin r source) ⟨tight, .star body, c⟩ ∨
          grammar.Reached (.begin r source) ⟨tight, .more body, c⟩ →
        ∀ d ps d', grammar.answer tight body d = .ok ps d' → ∃ s, d.Reads s d' ∧ s ≠ []) ∧
      Call.reply grammar.answer (.begin r source) ≠ .stuck ∧
      ∀ {σ : Type} (observe : Observer Rule σ) (s : σ) (negated : Bool) (fuel : Nat),
        grammar.fuel source.length ≤ fuel →
        (grammar.run observe fuel ⟨false, negated⟩ (.rule r) (.ofText source) s).1 =
          Call.reply grammar.answer (.begin r source) := by
  have hfits := fits_rule false r
  refine ⟨ranking.acc_called hfits, fun parts h => ?_, fun tight tight' s c h hcycle => ?_,
    fun tight body c h d ps d' hbody => ?_, ranking.answer_ne_stuck hfits _,
    fun observe s negated fuel hfuel => ?_⟩
  · exact ranking.reply_eq_of_equations hfits h
  · have hless := ranking.need_lt_of_transGen (ranking.fits_of_reached hfits h) hcycle
    exact Nat.lt_irrefl _ hless
  · have hrepeats : ranking.Fits tight (.more body) :=
      h.elim (ranking.fits_of_reached hfits) (ranking.fits_of_reached hfits)
    exact answer_reads_something hrepeats.more.1 hbody
  · exact run_eq_answer (c := .ofText source) r hfuel observe ⟨false, negated⟩ s

end XiFront

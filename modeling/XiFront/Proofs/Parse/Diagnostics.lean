import XiFront.Proofs.Grammar.Items
import XiFront.Proofs.Peg.Attempts
import XiFront.Proofs.Tree.Extent

namespace XiFront

open Peg

/-- What is run at the first cursor that is not filler. -/
def Rule.contents : Expr Rule :=
  .seq (.star (.rule .item)) (.rule .endOfInput)

theorem fuel_eq (source : Source) : ∃ fuel, grammar.fuel source.length = fuel + 3 := by
  have hthree : 3 ≤ grammar.fuel source.length := by
    have hdepth : grammar.depth = 256 := rfl
    simp only [Grammar.fuel, hdepth]
    omega
  exact ⟨_, (Nat.sub_add_cancel hthree).symm⟩

namespace Mismatch

end Mismatch

end XiFront

import XiFront.Command.Compile
import XiFront.Proofs.Lowering.Failure
import XiFront.Proofs.Parse.Diagnostics

namespace XiFront

namespace Inquiry

theorem run_attempt {q : Inquiry α} {k k' : Known} {x : Except Error α}
    (h : q.run.run k = (x, k')) : q.attempt.run.run k = (.ok x.toOption, k') := by
  have hmap : (some <$> q : Inquiry (Option α)).run.run k = (x.map some, k') := by
    rw [ExceptT.run_map, StateT.run_map, h]
    rfl
  change (ExceptT.tryCatch (some <$> q) fun _ => pure none).run.run k = _
  simp only [ExceptT.tryCatch, ExceptT.run_mk, StateT.run_bind]
  erw [hmap]
  cases x <;> rfl

/-- The question gets the same answer whatever is known, and it is no error. -/
def Certain (t : Tree) (q : Inquiry α) : Prop :=
  ∃ a, Answers t q (.ok a)

namespace Certain

variable {t : Tree}

theorem pure (a : α) : Certain t (Pure.pure a) :=
  ⟨a, .pure a⟩

theorem bind {q : Inquiry α} {f : α → Inquiry β} (hq : Certain t q)
    (hf : ∀ a, Certain t (f a)) : Certain t (q >>= f) := by
  obtain ⟨a, ha⟩ := hq
  obtain ⟨b, hb⟩ := hf a
  refine ⟨b, ha.bind (g := fun _ => .ok b) fun a' ha' => ?_⟩
  cases ha'
  exact hb

theorem attempt {q : Inquiry α} (hq : Settled t q) : Certain t q.attempt := by
  obtain ⟨x, hx⟩ := hq
  refine ⟨x.toOption, fun k hk => ?_⟩
  obtain ⟨k', hrun, hgrows⟩ := hx k hk
  exact ⟨k', run_attempt hrun, hgrows⟩

end Certain

end Inquiry

namespace Dump

open Inquiry

variable {t : Tree} (ht : t.WellFormed)
include ht

end Dump

namespace Command

section

variable {tools : Tools} {s : Store} {c : Config} {t : Tree}

end

end Command

end XiFront

import XiFront.Proofs.Peg.Reading
import XiFront.Proofs.Tree.Numbering

namespace XiFront.Peg

namespace Pair

theorem Every.mono {P Q : Pair ρ → Prop} {p : Pair ρ} (h : p.Every P)
    (hPQ : ∀ q, P q → Q q) : p.Every Q := by
  induction h with
  | node h _ ih => exact .node (hPQ _ h) ih

def EndsBy (limit : Nat) (p : Pair ρ) : Prop :=
  p.start ≤ limit ∧ p.stop ≤ limit

/-- The pairs lie between two offsets, in order and apart, and so do the pairs inside each. -/
inductive Laid : Nat → Nat → List (Pair ρ) → Prop
  | nil {a b : Nat} (h : a ≤ b) : Laid a b []
  | cons {a b start stop : Nat} {r : ρ} {cs ps : List (Pair ρ)} (h : a ≤ start)
      (hcs : Laid start stop cs) (hps : Laid stop b ps) :
      Laid a b (.node r start stop cs :: ps)

namespace Laid

variable {a b : Nat} {ps : List (Pair ρ)}

theorem le (h : Laid a b ps) : a ≤ b := by
  induction h with
  | nil h => exact h
  | cons h _ _ ihcs ihps => exact Nat.le_trans h (Nat.le_trans ihcs ihps)

theorem widen (h : Laid a b ps) {a' b' : Nat} (ha : a' ≤ a) (hb : b ≤ b') : Laid a' b' ps := by
  induction h generalizing a' with
  | nil h => exact .nil (Nat.le_trans ha (Nat.le_trans h hb))
  | cons h hcs _ _ ihps => exact .cons (Nat.le_trans ha h) hcs (ihps (Nat.le_refl _) hb)

theorem append (h : Laid a b ps) {d : Nat} {qs : List (Pair ρ)} (hqs : Laid b d qs) :
    Laid a d (ps ++ qs) := by
  induction h with
  | nil h => exact hqs.widen h (Nat.le_refl _)
  | cons h hcs _ _ ihps => exact .cons h hcs (ihps hqs)

theorem endsBy (h : Laid a b ps) : ∀ p ∈ ps, p.Every (EndsBy b) := by
  induction h with
  | nil _ => exact nofun
  | cons h hcs hps ihcs ihps =>
      refine List.forall_mem_cons.mpr ⟨.node ⟨?_, hps.le⟩ fun c hc => ?_, ihps⟩
      · exact Nat.le_trans hcs.le hps.le
      · refine (ihcs c hc).mono fun q hq => ?_
        exact ⟨Nat.le_trans hq.1 hps.le, Nat.le_trans hq.2 hps.le⟩

end Laid

end Pair

namespace Grammar

def Extends (_ : Bool) (_ : Expr ρ) (c : Cursor) (ps : List (Pair ρ))
    (c' : Cursor) : Prop :=
  Pair.Laid c.offset c'.offset ps

theorem round_extends {g : Grammar ρ} (parts : Replies ρ)
    (h : Upholds parts Extends) : Upholds (g.round parts) Extends := by
  intro tight e c ps c' hok
  have hcases := round_eq_ok hok
  have hskip {d d' : Cursor} {qs : List (Pair ρ)} (hskip : g.skip parts tight d = .ok qs d') :
      d.offset ≤ d'.offset := by
    cases tight with
    | true =>
        obtain ⟨-, rfl⟩ := Reply.ok.inj hskip
        exact Nat.le_refl _
    | false => exact (h _ _ _ _ _ hskip).le
  have hstay : Extends tight e c [] c := .nil (Nat.le_refl _)
  have hread {s : Source} (hs : c.Reads s c') : Extends tight e c [] c' := by
    refine .nil ?_
    rw [hs.offset]
    exact Nat.le_add_right _ _
  have hpart {a : Expr ρ} (ha : parts tight a c = .ok ps c') : Extends tight e c ps c' :=
    h _ a _ _ _ ha
  cases e with
  | text chars =>
      obtain ⟨rfl, hs⟩ := hcases
      exact hread hs
  | char set =>
      obtain ⟨rfl, y, -, hs⟩ := hcases
      exact hread hs
  | start =>
      obtain ⟨rfl, rfl, -⟩ := hcases
      exact hstay
  | finish =>
      obtain ⟨rfl, rfl, -⟩ := hcases
      exact hstay
  | neg a =>
      obtain ⟨-, rfl, rfl⟩ := hcases
      exact hstay
  | rule r =>
      obtain ⟨cs, hcs, rfl⟩ := hcases
      have hbody := h _ _ _ _ _ hcs
      split
      · exact .cons (Nat.le_refl _) hbody (.nil (Nat.le_refl _))
      · exact hbody
  | seq a b =>
      obtain ⟨ps₁, c₁, ps₂, c₂, ps₃, h₁, h₂, h₃, rfl⟩ := hcases
      have hsecond := (h _ _ _ _ _ h₃).widen (hskip h₂) (Nat.le_refl _)
      exact (h _ _ _ _ _ h₁).append hsecond
  | alt a b =>
      rcases hcases with h₁ | ⟨-, h₁⟩
      · exact hpart h₁
      · exact hpart h₁
  | opt a =>
      rcases hcases with h₁ | ⟨-, rfl, rfl⟩
      · exact hpart h₁
      · exact hstay
  | star a =>
      rcases hcases with ⟨ps₁, c₁, ps₂, h₁, h₂, rfl⟩ | ⟨-, rfl, rfl⟩
      · exact (h _ _ _ _ _ h₁).append (h _ _ _ _ _ h₂)
      · exact hstay
  | more a =>
      rcases hcases with ⟨ps₁, c₁, ps₂, c₂, ps₃, h₁, h₂, h₃, rfl⟩ | ⟨rfl, rfl⟩
      · have hfirst := (h _ _ _ _ _ h₂).widen (hskip h₁) (Nat.le_refl _)
        exact hfirst.append (h _ _ _ _ _ h₃)
      · exact hstay

theorem answer_laid {g : Grammar ρ} {tight : Bool} {e : Expr ρ} {c c' : Cursor}
    {ps : List (Pair ρ)} (h : g.answer tight e c = .ok ps c') :
    Pair.Laid c.offset c'.offset ps :=
  answer_upholds round_extends tight e c ps c' h

end Grammar

end XiFront.Peg

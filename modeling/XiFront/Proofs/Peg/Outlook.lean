import XiFront.Proofs.Peg.Reading

namespace XiFront.Peg

inductive Outlook where
  /-- The expression does not match. -/
  | fails
  /-- If the expression matches, it reads nothing. -/
  | stays
  | open_
  deriving DecidableEq

namespace Expr

def outlook (next : Option Char) (barred : ρ → Bool) : Expr ρ → Outlook
  | text [] => .stays
  | text (y :: _) => if next = some y then .open_ else .fails
  | char set => if next.any set.contains then .open_ else .fails
  | start | finish | neg _ => .stays
  | rule r => if barred r then .fails else .open_
  | seq a b =>
      match a.outlook next barred with
      | .fails => .fails
      | .stays => b.outlook next barred
      | .open_ => .open_
  | alt a b =>
      match a.outlook next barred, b.outlook next barred with
      | .fails, o => o
      | .stays, .fails | .stays, .stays => .stays
      | _, _ => .open_
  | opt a | star a | more a =>
      match a.outlook next barred with
      | .open_ => .open_
      | _ => .stays

end Expr

/-- The cursors to which a match from `c` may lead. -/
def Outlook.Allows (c c' : Cursor) : Outlook → Prop
  | fails => False
  | stays => c' = c
  | open_ => True

namespace Grammar

/-- A cursor with no filler at it, where the barred rules fail: each is known to, or has a body that
fails. -/
structure Barred (g : Grammar ρ) (c : Cursor) (barred : ρ → Bool) : Prop where
  firm : g.answer true g.filler c = .ok [] c
  body : ∀ r, barred r = true → (∀ tight, g.answer tight (.rule r) c = .fail) ∨
    (g.production r).body.outlook c.rest.head? barred = .fails

namespace Barred

variable {g : Grammar ρ} {c : Cursor} {barred : ρ → Bool}

theorem skip (h : g.Barred c barred) {fuel : Nat} {tight : Bool} {ps : List (Pair ρ)}
    {c' : Cursor} (hskip : g.skip (g.rounds fuel) tight c = .ok ps c') : c' = c := by
  cases tight with
  | true => exact (Reply.ok.inj hskip).2.symm
  | false => exact (Reply.ok.inj ((answer_of_rounds hskip).symm.trans h.firm)).2

theorem allows_of_rounds (h : g.Barred c barred) {fuel : Nat} {tight : Bool} {e : Expr ρ}
    {ps : List (Pair ρ)} {c' : Cursor} (hok : g.rounds fuel tight e c = .ok ps c') :
    (e.outlook c.rest.head? barred).Allows c c' := by
  induction fuel generalizing tight e ps c' with
  | zero => exact nomatch hok
  | succ fuel ih =>
      have hcases := round_eq_ok hok
      have hkeeps {a : Expr ρ} {ps : List (Pair ρ)} {c₁ : Cursor}
          (hne : a.outlook c.rest.head? barred ≠ .open_)
          (ha : g.rounds fuel tight a c = .ok ps c₁) : c₁ = c := by
        have hallows := ih ha
        cases houtlook : a.outlook c.rest.head? barred with
        | open_ => exact absurd houtlook hne
        | fails =>
            rw [houtlook] at hallows
            exact hallows.elim
        | stays =>
            rw [houtlook] at hallows
            exact hallows
      -- An optional part and a repetition have one outlook.
      have hopt {a : Expr ρ} (hstays : a.outlook c.rest.head? barred ≠ .open_ → c' = c) :
          ((Expr.opt a).outlook c.rest.head? barred).Allows c c' := by
        rw [Expr.outlook]
        cases ha : a.outlook c.rest.head? barred with
        | fails => exact hstays (by rw [ha]; exact nofun)
        | stays => exact hstays (by rw [ha]; exact nofun)
        | open_ => trivial
      have hmore {a : Expr ρ} (hne : a.outlook c.rest.head? barred ≠ .open_) :
          (Expr.more a).outlook c.rest.head? barred ≠ .open_ := by
        rw [Expr.outlook]
        split
        · exact absurd (by assumption) hne
        · exact nofun
      cases e with
      | text chars =>
          obtain ⟨-, hread⟩ := hcases
          cases chars with
          | nil => exact hread.eq_of_nil
          | cons y ys =>
              rw [Expr.outlook, hread.rest, List.cons_append, List.head?_cons, if_pos rfl]
              trivial
      | char set =>
          obtain ⟨-, y, hy, hread⟩ := hcases
          have hnext : c.rest.head? = some y := by rw [hread.rest]; rfl
          rw [Expr.outlook, hnext, if_pos (by simpa using hy)]
          trivial
      | start => exact hcases.2.1
      | finish => exact hcases.2.1
      | neg a => exact hcases.2.2
      | rule r =>
          rw [Expr.outlook]
          cases hr : barred r with
          | false => trivial
          | true =>
              rcases h.body r hr with hfail | hbody
              · exact nomatch (hfail tight).symm.trans (answer_of_rounds hok)
              · obtain ⟨cs, hcs, -⟩ := hcases
                have hallows := ih hcs
                rw [hbody] at hallows
                exact hallows
      | seq a b =>
          obtain ⟨ps₁, c₁, ps₂, c₂, ps₃, h₁, h₂, h₃, -⟩ := hcases
          have ha := ih h₁
          rw [Expr.outlook]
          cases houtlook : a.outlook c.rest.head? barred with
          | open_ => trivial
          | fails =>
              rw [houtlook] at ha
              exact ha
          | stays =>
              rw [houtlook] at ha
              cases ha
              cases h.skip h₂
              exact ih h₃
      | alt a b =>
          rw [Expr.outlook]
          rcases hcases with h₁ | ⟨-, h₁⟩
          · have ha := ih h₁
            cases houtlook : a.outlook c.rest.head? barred with
            | open_ => trivial
            | fails =>
                rw [houtlook] at ha
                exact ha.elim
            | stays =>
                rw [houtlook] at ha
                cases b.outlook c.rest.head? barred <;> first | exact ha | trivial
          · have hb := ih h₁
            revert hb
            cases a.outlook c.rest.head? barred <;> cases b.outlook c.rest.head? barred <;>
              simp [Outlook.Allows]
      | opt a =>
          apply hopt
          intro hne
          rcases hcases with h₁ | ⟨-, -, hc⟩
          · exact hkeeps hne h₁
          · exact hc
      | star a =>
          apply hopt
          intro hne
          rcases hcases with ⟨ps₁, c₁, ps₂, h₁, h₂, -⟩ | ⟨-, -, hc⟩
          · cases hkeeps hne h₁
            exact hkeeps (hmore hne) h₂
          · exact hc
      | more a =>
          apply hopt
          intro hne
          rcases hcases with ⟨ps₁, c₁, ps₂, c₂, ps₃, h₁, h₂, h₃, -⟩ | ⟨-, hc⟩
          · cases h.skip h₁
            cases hkeeps hne h₂
            exact hkeeps (hmore hne) h₃
          · exact hc

theorem answer_ne_ok (h : g.Barred c barred) {tight : Bool} {e : Expr ρ}
    (he : e.outlook c.rest.head? barred = .fails) {ps : List (Pair ρ)} {c' : Cursor} :
    g.answer tight e c ≠ .ok ps c' := by
  intro hok
  obtain ⟨n, hn⟩ := g.settles_rounds tight e c
  have hallows := h.allows_of_rounds ((hn n (Nat.le_refl n)).trans hok)
  rw [he] at hallows
  exact hallows

end Barred

end Grammar

end XiFront.Peg

import XiFront.Proofs.Grammar.Lookahead
import XiFront.Proofs.Grammar.Passage
import XiFront.Proofs.Parse.Junction

namespace XiFront

open Peg

/-- The end of a list: a member with the sign behind it, or perhaps a member and the sign behind all
of them. -/
theorem apart_members {e : Expr Rule} {y z : Char} (hne : y ≠ z) :
    grammar.Apart (.seq e (Rule.symbol y)) (.seq (.opt e) (Rule.symbol z)) := by
  intro c ps d qs m _ ha hb
  obtain ⟨a, n, hitem, hskip, hy⟩ := Matches.seq_iff.mp ⟨ps, ha⟩
  obtain ⟨a', n', hopt, hskip', hz⟩ := Matches.seq_iff.mp ⟨qs, hb⟩
  rcases Matches.opt_iff.mp hopt with hitem' | ⟨hfail, -⟩
  · obtain rfl := hitem.unique hitem'
    obtain ⟨-, rfl⟩ := Reply.ok.inj (hskip.symm.trans hskip')
    have hsame := (Matches.text_iff.mp hy).rest.symm.trans (Matches.text_iff.mp hz).rest
    exact hne (List.cons.inj hsame).1
  · exact hitem.not_fails hfail

theorem apart_separated {e : Expr Rule} {z : Char} (he : e ∈ Rule.avoiding z) :
    grammar.Apart (.seq (Rule.symbol ',') e) (.seq (.opt (Rule.symbol ',')) (Rule.symbol z)) := by
  intro c ps d qs m _ ha hb
  obtain ⟨a, n, hcomma, hskip, hitem⟩ := Matches.seq_iff.mp ⟨ps, ha⟩
  obtain ⟨a', n', hopt, hskip', hz⟩ := Matches.seq_iff.mp ⟨qs, hb⟩
  rcases Matches.opt_iff.mp hopt with hcomma' | ⟨hfail, -⟩
  · obtain rfl := hcomma.unique hcomma'
    obtain ⟨-, rfl⟩ := Reply.ok.inj (hskip.symm.trans hskip')
    exact hitem.not_fails (fails_of_sign he (Matches.text_iff.mp hz))
  · exact hcomma.not_fails hfail

theorem rest_of_operator {o : BinaryOp} {c d : Cursor} (h : Matches (.rule (.binary o)) c d) :
    ∃ t, c.rest = o.spelling ++ t ∧ ∀ z ∈ o.notBefore, z ∉ t.head? := by
  obtain ⟨ps, h⟩ := h
  obtain ⟨⟨s, hs⟩, -⟩ := (answer_token_iff rfl).mp h
  have hbody : (grammar.production (.binary o)).body = Rule.operator o.spelling o.notBefore := rfl
  have hs' := Grammar.takes_rule.mp hs
  rw [hbody] at hs'
  cases hnext : o.notBefore with
  | none =>
      rw [hnext] at hs'
      obtain ⟨rfl, hread⟩ := Grammar.takes_text.mp hs'
      exact ⟨d.rest, hread.rest, nofun⟩
  | some z =>
      rw [hnext] at hs'
      obtain ⟨s₁, c₁, s₂, rfl, h₁, h₂⟩ := Grammar.takes_seq.mp hs'
      obtain ⟨rfl, hread⟩ := Grammar.takes_text.mp h₁
      obtain ⟨hstop, -, -⟩ := Grammar.takes_neg.mp h₂
      refine ⟨c₁.rest, hread.rest, fun y hy hhead => ?_⟩
      cases hy
      have hne := ((isClass_symbol z).fails_iff.mp hstop).head? z hhead
      simp at hne

theorem apart_operator {o o' : BinaryOp} {z : Char} (hlong : o.spelling = o'.spelling ++ [z])
    (hshort : o'.notBefore = some z) :
    grammar.Apart (.rule (.binary o)) (.rule (.binary o')) := by
  intro c ps d qs e _ ha hb
  obtain ⟨t, ht, -⟩ := rest_of_operator ⟨ps, ha⟩
  obtain ⟨t', ht', hstop⟩ := rest_of_operator ⟨qs, hb⟩
  have hrest := ht.symm.trans ht'
  rw [hlong, List.append_assoc] at hrest
  refine hstop z hshort ?_
  rw [← List.append_cancel_left hrest]
  rfl

theorem apart_assigned : grammar.Apart (Rule.furtherOperand .equality) Rule.assigned := by
  intro c ps d qs e _ ha hb
  obtain ⟨a, n, hsign, hskip, hrest⟩ := Matches.seq_iff.mp ⟨qs, hb⟩
  obtain ⟨b, -, ⟨_, hneg⟩, -⟩ := Matches.seq_iff.mp hrest
  have hsign := Matches.text_iff.mp hsign
  obtain ⟨m, -, hop, -, -⟩ := Matches.seq_iff.mp ⟨ps, ha⟩
  rcases Matches.alt_iff.mp hop with heq | ⟨-, hneq⟩
  · obtain ⟨t, ht, -⟩ := rest_of_operator heq
    have htail : a.rest = '=' :: t := (List.cons.inj (hsign.rest.symm.trans ht)).2
    have hfirm : IsFirm a.rest := htail ▸ .cons rfl (by decide)
    obtain ⟨-, rfl⟩ := Reply.ok.inj (hskip.symm.trans (answer_filler_firm hfirm))
    have hsecond : n.Reads ['='] ⟨t, n.offset + Source.byteLength ['=']⟩ := ⟨htail, rfl⟩
    obtain ⟨_, hagain⟩ := Matches.text_iff.mpr hsecond
    have hagain' : grammar.answer false (Rule.symbol '=') n = _ := hagain
    rw [Grammar.answer_neg, hagain'] at hneg
    exact nomatch hneg
  · obtain ⟨t, ht, -⟩ := rest_of_operator hneq
    exact absurd (List.cons.inj (hsign.rest.symm.trans ht)).1 (by decide)

namespace Rule

def listed (e : Expr Rule) (z : Char) : Expr Rule × Expr Rule :=
  (.seq e (symbol ','), .seq (.opt e) (symbol z))

def separators (e : Expr Rule) (z : Char) : Expr Rule × Expr Rule :=
  (.seq (symbol ',') e, .seq (.opt (symbol ',')) (symbol z))

/-- Alternatives that begin alike but never match at the same place. -/
def alternatives : List (Expr Rule × Expr Rule) :=
  [listed (.rule ty) ')', listed (.rule pattern) ')', listed (.rule expr) ')',
    listed (.rule fieldInit) '\x7d', listed (.rule attrib) ']', listed (.rule param) ')',
    separators (.rule ident) '>', separators (.rule param) ')',
    (.rule (binary .ge), .oneOf (.rule (binary .lt)) [.rule (binary .gt)]),
    (.rule (binary .le), .oneOf (.rule (binary .ge)) [.rule (binary .lt), .rule (binary .gt)]),
    (.rule methodDecl, .rule fnDecl),
    (.rule methodDecl, .oneOf (.rule fnDecl) [.rule field]),
    (.rule enumDecl, .oneOf (.rule fnDecl) [.rule global]),
    (.rule interfaceDecl, .oneOf (.rule enumDecl) [.rule fnDecl, .rule global]),
    (.rule structDecl, .oneOf (.rule interfaceDecl) [.rule enumDecl, .rule fnDecl, .rule global])]

theorem apart_of_alternatives : ∀ p ∈ alternatives, grammar.Apart p.1 p.2 := by
  have hword {r r' : Rule} {k k' : Keyword} {e e' : Expr Rule} (hk : k ≠ k')
      (hr : (production r).tight = false) (hr' : (production r').tight = false)
      (hbody : (production r).body = .seq (.star (.rule attribList)) (.seq (.rule (kw k)) e))
      (hbody' : (production r').body = .seq (.star (.rule attribList)) (.seq (.rule (kw k')) e')) :
      grammar.Apart (.rule r) (.rule r') := by
    refine .rule hr hr' ?_
    change grammar.Apart (production r).body (production r').body
    rw [hbody, hbody']
    exact apart_attributes hk
  simp only [alternatives, List.forall_mem_cons]
  refine ⟨apart_members (by decide), apart_members (by decide), apart_members (by decide),
    apart_members (by decide), apart_members (by decide), apart_members (by decide),
    apart_separated (by decide), apart_separated (by decide),
    .alt_right (apart_of_leads 3 (by decide +kernel)) (apart_operator rfl rfl),
    .alt_right (apart_of_leads 3 (by decide +kernel)) (.alt_right (apart_operator rfl rfl)
      (apart_of_leads 3 (by decide +kernel))),
    apart_methodDecl_fnDecl, .alt_right apart_methodDecl_fnDecl (apart_of_leads 3 rfl), ?_, ?_, ?_,
    nofun⟩
  · exact .alt_right (hword (by decide) rfl rfl rfl rfl) (apart_of_leads 4 rfl)
  · exact .alt_right (hword (by decide) rfl rfl rfl rfl)
      (.alt_right (hword (by decide) rfl rfl rfl rfl) (apart_of_leads 4 rfl))
  · exact .alt_right (hword (by decide) rfl rfl rfl rfl)
      (.alt_right (hword (by decide) rfl rfl rfl rfl)
        (.alt_right (hword (by decide) rfl rfl rfl rfl) (apart_of_leads 4 rfl)))

end Rule

variable {a b : Expr Rule} {c d : Cursor}

def Rule.blockLeads : List Lead :=
  [.sign '\x7b', .word .if_, .word .while_]

/-- What an expression without a block tries beside one with a block. -/
def Rule.besideBlocks : List (Expr Rule) :=
  [.rule (kw .continue_), .rule breakExpr, .rule returnExpr,
    .oneOf (.rule (unary .not)) [.rule (unary .neg), .rule (unary .pos)], .rule literalExpr,
    .rule (kw .lowerSelf), .rule groupedExpr, .rule newExpr, .rule ident, .rule typeExpr]

theorem fails_besideBlocks (hfirm : IsFirm c.rest) {l : Lead} (hl : l ∈ Rule.blockLeads)
    (hlead : Lead.ofText? c.rest = some l) {e : Expr Rule} (he : e ∈ Rule.besideBlocks) :
    FailsAt e c := by
  have havoids : ∀ l ∈ Rule.blockLeads, ∀ e ∈ Rule.besideBlocks, e.avoids 20 l = true := by
    decide +kernel
  exact Fails.of_avoids 20 (havoids l hl e he) hfirm hlead c rfl

theorem fails_chain_iff (l : Level) : FailsAt (.rule (.chain l)) c ↔
    FailsAt (.rule .castExpr) c := by
  have hoperand (l : Level) : FailsAt (.rule (.chain l)) c ↔ FailsAt (Rule.operand l) c := by
    rw [fails_rule_iff rfl]
    exact fails_seq_iff not_fails_star
  have hmul := hoperand .multiplicative
  have hadd := (hoperand .additive).trans hmul
  have hcompare := (hoperand .comparison).trans hadd
  have hequal := (hoperand .equality).trans hcompare
  have hand := (hoperand .logAnd).trans hequal
  cases l with
  | logOr => exact (hoperand .logOr).trans hand
  | logAnd => exact hand
  | equality => exact hequal
  | comparison => exact hcompare
  | additive => exact hadd
  | multiplicative => exact hmul

/-- Where an expression with a block may begin, one without matches just where one with a block
does: it has that as its first operand. -/
theorem fails_exprWithoutBlock_iff (hfirm : IsFirm c.rest) {l : Lead} (hl : l ∈ Rule.blockLeads)
    (hlead : Lead.ofText? c.rest = some l) :
    FailsAt (.rule .exprWithoutBlock) c ↔ FailsAt (.rule .exprWithBlock) c := by
  have hbeside {e : Expr Rule} (he : e ∈ Rule.besideBlocks) : FailsAt e c :=
    fails_besideBlocks hfirm hl hlead he
  calc
    FailsAt (.rule .exprWithoutBlock) c ↔ FailsAt (.rule .assignExpr) c := by
      rw [fails_rule_iff rfl, show (Rule.production .exprWithoutBlock).body =
        .alt _ (.alt _ (.alt _ (.rule _))) from rfl, fails_alt_iff, fails_alt_iff, fails_alt_iff]
      exact ⟨fun h => h.2.2.2, fun h => ⟨hbeside (by decide), hbeside (by decide),
        hbeside (by decide), h⟩⟩
    _ ↔ FailsAt (.rule (.chain .logOr)) c := by
      rw [fails_rule_iff rfl]
      exact fails_seq_iff not_fails_opt
    _ ↔ FailsAt (.rule .castExpr) c := fails_chain_iff .logOr
    _ ↔ FailsAt (.rule .unaryExpr) c := by
      rw [fails_rule_iff rfl]
      exact fails_seq_iff not_fails_star
    _ ↔ FailsAt (.rule .callExpr) c := by
      have hskip : grammar.answer true grammar.filler c = _ := answer_filler_firm hfirm
      have hsigns : grammar.answer false
          (.oneOf (.rule (.unary .not)) [.rule (.unary .neg), .rule (.unary .pos)]) c = .fail :=
        hbeside (by decide)
      rw [fails_rule_iff rfl, FailsAt, show (Rule.production .unaryExpr).body = .seq (.star _) _
        from rfl, Grammar.answer_seq, Grammar.answer_star, hsigns, Reply.resume_fail,
        Reply.resume_ok, Grammar.skip_loose, hskip, Reply.resume_ok, Reply.prepend_eq_fail_iff,
        FailsAt]
    _ ↔ FailsAt (.rule .primaryExpr) c := by
      rw [fails_rule_iff rfl]
      exact fails_seq_iff not_fails_star
    _ ↔ FailsAt (.rule .exprWithBlock) c := by
      rw [fails_rule_iff rfl, show (Rule.production .primaryExpr).body =
        .alt _ (.alt _ (.alt _ (.alt _ (.alt _ (.alt _ (.rule _)))))) from rfl, fails_alt_iff,
        fails_alt_iff, fails_alt_iff, fails_alt_iff, fails_alt_iff, fails_alt_iff]
      exact ⟨fun h => h.2.2.2.1, fun h => ⟨hbeside (by decide), hbeside (by decide),
        hbeside (by decide), h, hbeside (by decide), hbeside (by decide), hbeside (by decide)⟩⟩

theorem Matches.exists_blockLead (h : Matches (.rule .exprWithBlock) c d) (hfirm : IsFirm c.rest) :
    ∃ l ∈ Rule.blockLeads, Lead.ofText? c.rest = some l := by
  have hleads : ∀ l ∈ (Expr.rule Rule.exprWithBlock).leads (Rule.leads 20),
      l ∈ Rule.blockLeads ∧ l ≠ .any := by
    decide +kernel
  obtain ⟨ps, hok⟩ := h
  obtain ⟨l, hl, hat⟩ := lead_of_answer hfirm rfl hok 20
  exact ⟨l, (hleads l hl).1, hat.resolve_left (hleads l hl).2⟩

theorem Matches.not_fails_exprWithoutBlock (h : Matches (.rule .exprWithBlock) c d)
    (hfirm : IsFirm c.rest) : ¬FailsAt (.rule .exprWithoutBlock) c := by
  obtain ⟨l, hl, hlead⟩ := h.exists_blockLead hfirm
  rw [fails_exprWithoutBlock_iff hfirm hl hlead]
  exact h.not_fails

end XiFront

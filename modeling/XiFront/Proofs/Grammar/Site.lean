import XiFront.Proofs.Grammar.Lookahead
import XiFront.Proofs.Tree.Pruning

namespace XiFront

open Peg

namespace Peg.Pair

variable {ρ : Type} {ps qs : List (Pair ρ)} {q : Pair ρ}

theorem preorderAll_append (ps qs : List (Pair ρ)) :
    preorderAll (ps ++ qs) = preorderAll ps ++ preorderAll qs := by
  induction ps with
  | nil => rfl
  | cons p ps ih => rw [List.cons_append, preorderAll, preorderAll, ih, List.append_assoc]

theorem preorderAll_singleton (r : ρ) (start stop : Nat) (cs : List (Pair ρ)) :
    preorderAll [.node r start stop cs] = .node r start stop cs :: preorderAll cs := by
  rw [preorderAll, preorder, preorderAll, List.append_nil]

theorem Laid.bounds {a b : Nat} (h : Laid a b ps) (hq : q ∈ preorderAll ps) :
    a ≤ q.start ∧ q.start ≤ q.stop ∧ q.stop ≤ b := by
  induction h with
  | nil _ => exact nomatch hq
  | cons h hcs hps ihcs ihps =>
      have hle := hcs.le
      have hle' := hps.le
      rw [preorderAll, preorder, List.cons_append, List.mem_cons, List.mem_append] at hq
      rcases hq with rfl | hq | hq
      · exact ⟨h, hle, hle'⟩
      · have := ihcs hq
        omega
      · have := ihps hq
        omega

end Peg.Pair

/-- Whether an expression inside a match begins later than the match does. -/
def Peg.Expr.late (rules : Rule → Bool) : Expr Rule → Bool
  | .rule r => rules r
  | .seq a b => a.late rules && (!a.nullable Rule.isEmpty || b.late rules)
  | .alt a b => a.late rules && b.late rules
  | .opt a | .star a | .more a => a.late rules
  | _ => true

def Rule.late : Nat → Rule → Bool
  | 0, _ => false
  | depth + 1, r => decide (r ≠ .expr) && (production r).body.late (late depth)

theorem preorderAll_of_tight {r : Rule} (htight : (Rule.production r).tight = true) {c d : Cursor}
    {ps : List (Pair Rule)} (h : grammar.answer false (.rule r) c = .ok ps d) {q : Pair Rule}
    (hq : q ∈ Pair.preorderAll ps) : q.rule = r := by
  have htight' : (grammar.production r).tight = true := htight
  rw [Grammar.answer_rule_loose, htight'] at h
  obtain ⟨cs, hcs, rfl⟩ := Reply.close_eq_ok_iff.mp h
  cases Grammar.answer_tight hcs
  split at hq
  · rw [Pair.preorderAll_singleton] at hq
    obtain rfl := List.mem_singleton.mp hq
    rfl
  · exact nomatch hq

theorem start_lt_of_late {e : Expr Rule} {c d : Cursor} {ps : List (Pair Rule)}
    (h : Derives e c ps d) {depth : Nat} (he : e.late (Rule.late depth) = true) {q : Pair Rule}
    (hq : q ∈ Pair.preorderAll ps) (hexpr : q.rule = .expr) : c.offset < q.start := by
  have hle {c d : Cursor} (h : ∃ s, c.Reads s d) : c.offset ≤ d.offset := by
    obtain ⟨s, hs⟩ := h
    rw [hs.offset]
    exact Nat.le_add_right _ _
  induction h generalizing depth with
  | text h | char hy h | start h | finish h | none hfail | done hfail | neg hfail =>
      exact nomatch hq
  | token htight h =>
      obtain rfl := (preorderAll_of_tight htight h hq).symm.trans hexpr
      exact nomatch htight
  | @rule r c d cs hloose hbody ih =>
      cases depth with
      | zero => exact nomatch he
      | succ depth =>
          obtain ⟨hne, hlate⟩ := Bool.and_eq_true_iff.mp he
          split at hq
          · rw [Pair.preorderAll_singleton] at hq
            rcases List.mem_cons.mp hq with rfl | hq
            · exact absurd hexpr (of_decide_eq_true hne)
            · exact ih hlate hq
          · exact ih hlate hq
  | @seq a b c d n e ps qs ha hskip hb iha ihb =>
      obtain ⟨hfirst, hsecond⟩ := Bool.and_eq_true_iff.mp he
      have hn := hle (Grammar.answer_reads hskip)
      rw [Pair.preorderAll_append, List.mem_append] at hq
      rcases hq with hq | hq
      · exact iha hfirst hq
      · rcases Bool.or_eq_true_iff.mp hsecond with hnull | hsecond
        · obtain ⟨s, hs, hne⟩ :=
            answer_reads_something ((Bool.not_eq_true' _).mp hnull) ha.answer
          obtain ⟨z, s, rfl⟩ := List.exists_cons_of_ne_nil hne
          have hoffset := hs.offset
          rw [Source.byteLength_cons] at hoffset
          have hpos := z.utf8Size_pos
          have := ((Grammar.answer_laid hb.answer).bounds hq).1
          omega
        · exact Nat.lt_of_le_of_lt (Nat.le_trans (hle ha.reads) hn) (ihb hsecond hq)
  | first ha ih => exact ih (Bool.and_eq_true_iff.mp he).1 hq
  | second hfail hb ih => exact ih (Bool.and_eq_true_iff.mp he).2 hq
  | some ha ih => exact ih he hq
  | last ha hskip hfail ih => exact ih he hq
  | turn ha hskip hrest hne ih ihrest =>
      rw [Pair.preorderAll_append, List.mem_append] at hq
      rcases hq with hq | hq
      · exact ih he hq
      · exact Nat.lt_of_le_of_lt (Nat.le_trans (hle ha.reads) (hle (Grammar.answer_reads hskip)))
          (ihrest he hq)

theorem rule_of_derives {part : Rule → Bool}
    (hpart : ∀ r, part r = true → (Rule.production r).body.built Expr.isMark part = true)
    {e : Expr Rule} {c d : Cursor} {ps : List (Pair Rule)} (h : Derives e c ps d)
    (he : e.built Expr.isMark part = true) {q : Pair Rule} (hq : q ∈ Pair.preorderAll ps) :
    q.rule.isToken = true ∨ part q.rule = true := by
  induction h with
  | text h | char hy h | start h | finish h | none hfail | done hfail | neg hfail =>
      exact nomatch hq
  | token htight h =>
      rw [preorderAll_of_tight htight h hq]
      exact Bool.or_eq_true_iff.mp he
  | @rule r c d cs hloose hbody ih =>
      rcases Bool.or_eq_true_iff.mp he with hr | hr
      · exact nomatch (Rule.tight_of_isToken hr).symm.trans hloose
      · split at hq
        · rw [Pair.preorderAll_singleton] at hq
          rcases List.mem_cons.mp hq with rfl | hq
          · exact .inr hr
          · exact ih (hpart r hr) hq
        · exact ih (hpart r hr) hq
  | seq ha hskip hb iha ihb =>
      obtain ⟨hbuilt, hbuilt'⟩ := Bool.and_eq_true_iff.mp he
      rw [Pair.preorderAll_append, List.mem_append] at hq
      exact hq.elim (iha hbuilt) (ihb hbuilt')
  | first ha ih => exact ih (Bool.and_eq_true_iff.mp he).1 hq
  | second hfail hb ih => exact ih (Bool.and_eq_true_iff.mp he).2 hq
  | some ha ih => exact ih he hq
  | last ha hskip hfail ih => exact ih he hq
  | turn ha hskip hrest hne ih ihrest =>
      rw [Pair.preorderAll_append, List.mem_append] at hq
      exact hq.elim (ih he) (ihrest he)

def closers : List Lead :=
  [.sign ',', .sign ')', .sign ']', .sign ';', .sign '\x7b', .sign '\x7d']

def Rule.endsInExpr (r : Rule) : Bool :=
  decide (r ∈ [expr, exprWithoutBlock, breakExpr, returnExpr, letInit, fieldInit])

def Peg.Expr.endsInExpr : Expr Rule → Bool
  | .rule r => r.endsInExpr
  | .seq a b => b.endsInExpr || b.nullable Rule.isEmpty && a.endsInExpr
  | .alt a b => a.endsInExpr || b.endsInExpr
  | .opt a | .star a | .more a => a.endsInExpr
  | _ => false

theorem endsInExpr_body : ∀ r ∈ Rule.all, r.endsInExpr = false →
    (Rule.production r).body.endsInExpr = false := by
  decide +kernel

/-- Whether the expressions inside a match are set off from what is in front of them and behind. -/
def Peg.Expr.setsOff : Expr Rule → Bool
  | .seq a b =>
      a.setsOff && b.setsOff && (!a.endsInNumber || b.late (Rule.late 20)) &&
        (!a.endsInExpr || (b.leads (Rule.leads 20)).all fun l => decide (l ∈ closers))
  | .alt a b => a.setsOff && b.setsOff
  | .opt a => a.setsOff
  | .star a => a.setsOff && !a.endsInExpr && (!a.endsInNumber || a.late (Rule.late 20))
  | .more _ => false
  | _ => true

theorem setsOff_body : ∀ r ∈ Rule.all, r.isLexical = false →
    (Rule.production r).body.setsOff = true := by
  decide +kernel

def Closed (d : Cursor) : Prop :=
  ∃ n, grammar.answer true filler d = .ok [] n ∧ ∃ l ∈ closers, Lead.ofText? n.rest = some l

def Joined (d d' : Cursor) : Prop :=
  ∃ n, grammar.answer true filler d = .ok [] n ∧ grammar.answer true filler d' = .ok [] n

/-- The match of an expression inside a match from one cursor to another.  `last` tells that it may
stand at the end. -/
def Sited (c d : Cursor) (last : Bool) (q : Pair Rule) : Prop :=
  ∃ b e, Reaches c b ∧ Spaced c b ∧ IsFirm b.rest ∧
    grammar.answer false (.rule .expr) b = .ok [q] e ∧
    (Closed e ∨ last = true ∧ Joined e d)

theorem spaced_of_answer {e : Expr Rule} (he : e.endsInNumber = false) {c d : Cursor}
    {ps : List (Pair Rule)} (h : grammar.answer false e c = .ok ps d) : Spaced c d := by
  obtain ⟨fuel, hfuel⟩ := grammar.settles_rounds false e c
  exact spaced_of_rounds he ((hfuel fuel (Nat.le_refl fuel)).trans h)

theorem span_of_answer_rule {r : Rule} (hloose : (Rule.production r).tight = false) {c d : Cursor}
    {q : Pair Rule} (hpair : (Rule.production r).leavesPair = true)
    (h : grammar.answer false (.rule r) c = .ok [q] d) :
    q.start = c.offset ∧ q.stop = d.offset := by
  obtain ⟨cs, -, hq⟩ := (Grammar.answer_rule_eq_ok_iff hloose).mp h
  have hpair' : (grammar.production r).leavesPair = true := hpair
  rw [if_pos hpair'] at hq
  rw [(List.cons.inj hq).1]
  exact ⟨rfl, rfl⟩

namespace Sited

variable {c d n : Cursor} {last last' : Bool} {q : Pair Rule}

theorem mono (h : Sited c d last q) (hlast : last = true → last' = true) : Sited c d last' q := by
  obtain ⟨b, e, hreach, hspace, hfirm, hmatch, hend⟩ := h
  exact ⟨b, e, hreach, hspace, hfirm, hmatch, hend.imp_right fun h => ⟨hlast h.1, h.2⟩⟩

theorem before {a b : Expr Rule} (h : Sited c d a.endsInExpr q)
    (hskip : grammar.answer true filler d = .ok [] n)
    (hset : (!a.endsInExpr || (b.leads (Rule.leads 20)).all fun l => decide (l ∈ closers)) = true)
    {e : Cursor} {qs : List (Pair Rule)} (hb : grammar.answer false b n = .ok qs e) :
    Sited c e (Expr.seq a b).endsInExpr q := by
  obtain ⟨m, m', hreach, hspace, hfirm, hmatch, hend⟩ := h
  refine ⟨m, m', hreach, hspace, hfirm, hmatch, ?_⟩
  rcases hend with hclosed | ⟨hlast, k, hk, hk'⟩
  · exact .inl hclosed
  obtain ⟨-, rfl⟩ := Reply.ok.inj (hskip.symm.trans hk')
  rw [hlast, Bool.not_true, Bool.false_or, List.all_eq_true] at hset
  obtain ⟨fuel, hfuel⟩ := grammar.settles_rounds false b n
  rcases lead_of_rounds (Reaches.of_filler hskip).2 ((hfuel fuel (Nat.le_refl fuel)).trans hb) 20
    with rfl | ⟨l, hl, hat⟩
  · refine .inr ⟨?_, e, hk, firm_of_filler hskip⟩
    have hnull : b.nullable Rule.isEmpty = true := by
      by_contra hnull
      rw [Bool.not_eq_true] at hnull
      obtain ⟨t, ht, hne⟩ := answer_reads_something hnull hb
      exact hne (ht.unique (.refl _))
    rw [Expr.endsInExpr, hnull, hlast, Bool.true_and, Bool.or_true]
  · have hmem := of_decide_eq_true (hset l hl)
    have hany : ∀ l ∈ closers, l ≠ .any := by decide
    exact .inl ⟨n, hk, l, hmem, hat.resolve_left (hany l hmem)⟩

theorem after (h : Sited n d last q) {a b : Expr Rule} {m : Cursor} {ps qs : List (Pair Rule)}
    (ha : grammar.answer false a c = .ok ps m) (hskip : grammar.answer true filler m = .ok [] n)
    (hreach : Reaches c m) (hb : Derives b n qs d) (hq : q ∈ Pair.preorderAll qs)
    (hset : (!a.endsInNumber || b.late (Rule.late 20)) = true) (hexpr : q.rule = .expr) :
    Sited c d last q := by
  obtain ⟨k, e, hreach', hspace, hfirm, hmatch, hend⟩ := h
  refine ⟨k, e, hreach.trans ((Reaches.of_filler hskip).1.trans hreach'), ?_, hfirm, hmatch, hend⟩
  rcases Bool.or_eq_true_iff.mp hset with hnumber | hlate
  · rw [Bool.not_eq_true'] at hnumber
    exact (spaced_of_answer hnumber ha).trans ((Spaced.of_filler hskip).trans hspace)
  · have hlt := start_lt_of_late hb hlate hq hexpr
    rw [(span_of_answer_rule rfl rfl hmatch).1] at hlt
    obtain ⟨s, hs⟩ := Grammar.answer_reads ha
    obtain ⟨t, ht⟩ := Grammar.answer_reads hskip
    refine hspace.after (hs.trans ht) ?_
    rintro rfl
    exact Nat.lt_irrefl _ hlt

end Sited

/-- Every expression inside a match that begins at no filler has its site. -/
theorem sited_of_derives {e : Expr Rule} {c d : Cursor} {ps : List (Pair Rule)}
    (h : Derives e c ps d) (hsteady : e.isSteady = true) (hset : e.setsOff = true)
    (hfirm : IsFirm c.rest) {q : Pair Rule} (hq : q ∈ Pair.preorderAll ps)
    (hexpr : q.rule = .expr) : Sited c d e.endsInExpr q := by
  induction h with
  | text h | char hy h | start h | finish h | none hfail | done hfail | neg hfail =>
      exact nomatch hq
  | token htight h =>
      obtain rfl := (preorderAll_of_tight htight h hq).symm.trans hexpr
      exact nomatch htight
  | @rule r c d cs hloose hbody ih =>
      have hlexical := not_isLexical_of_isSteady hsteady hloose
      have hinside (hq : q ∈ Pair.preorderAll cs) : Sited c d r.endsInExpr q := by
        refine (ih (steady_body r r.mem_all hlexical) (setsOff_body r r.mem_all hlexical) hfirm
          hq).mono fun hends => ?_
        by_contra hr
        rw [endsInExpr_body r r.mem_all ((Bool.not_eq_true _).mp hr)] at hends
        exact nomatch hends
      split at hq
      · next hpair =>
          rw [Pair.preorderAll_singleton] at hq
          rcases List.mem_cons.mp hq with rfl | hq
          · obtain rfl : r = .expr := hexpr
            obtain ⟨n, hn⟩ := exists_skip d
            exact ⟨c, d, .refl c, .refl c, hfirm, (Derives.rule rfl hbody).answer,
              .inr ⟨rfl, n, hn, hn⟩⟩
          · exact hinside hq
      · exact hinside hq
  | @seq a b c d n e ps qs ha hskip hb iha ihb =>
      simp only [Expr.setsOff, Bool.and_eq_true] at hset
      obtain ⟨⟨⟨hseta, hsetb⟩, hspace⟩, hclose⟩ := hset
      obtain ⟨hsteadya, hsteadyb⟩ := Bool.and_eq_true_iff.mp hsteady
      rw [Pair.preorderAll_append, List.mem_append] at hq
      rcases hq with hq | hq
      · rcases Bool.or_eq_true_iff.mp hsteadya with hsteadya | htight
        · exact (iha hsteadya hseta hfirm hq).before hskip hclose hb.answer
        · rw [Bool.and_eq_true, decide_eq_true_eq] at htight
          obtain ⟨rfl, -⟩ := htight
          obtain ⟨o, ho⟩ := answer_of_tightOperators ha.answer
          rw [preorderAll_of_tight rfl ho hq] at hexpr
          exact nomatch hexpr
      · have hreach := steady_seq_first hsteady hfirm ha.answer hskip hb.answer
        refine ((ihb hsteadyb hsetb (Reaches.of_filler hskip).2 hq).after ha.answer hskip hreach hb
          hq hspace hexpr).mono fun hends => ?_
        rw [Expr.endsInExpr, hends, Bool.true_or]
  | first ha ih =>
      refine (ih (Bool.and_eq_true_iff.mp hsteady).1 (Bool.and_eq_true_iff.mp hset).1 hfirm
        hq).mono fun hends => ?_
      rw [Expr.endsInExpr, hends, Bool.true_or]
  | second hfail hb ih =>
      refine (ih (Bool.and_eq_true_iff.mp hsteady).2 (Bool.and_eq_true_iff.mp hset).2 hfirm
        hq).mono fun hends => ?_
      rw [Expr.endsInExpr, hends, Bool.or_true]
  | some ha ih => exact ih hsteady hset hfirm hq
  | last ha hskip hfail ih =>
      simp only [Expr.setsOff, Bool.and_eq_true] at hset
      exact ih hsteady hset.1.1 hfirm hq
  | @turn a c d n e ps qs ha hskip hrest hne ih ihrest =>
      have hset' := hset
      simp only [Expr.setsOff, Bool.and_eq_true, Bool.not_eq_true'] at hset'
      obtain ⟨⟨hseta, hends⟩, hspace⟩ := hset'
      rw [Pair.preorderAll_append, List.mem_append] at hq
      rcases hq with hq | hq
      · obtain ⟨m, m', hreach, hspace, hfirm, hmatch, hend⟩ := ih hsteady hseta hfirm hq
        refine ⟨m, m', hreach, hspace, hfirm, hmatch, .inl (hend.resolve_right fun h => ?_)⟩
        exact nomatch h.1.symm.trans hends
      · have hreach : Reaches c d := reaches_of_answer (e := a) hsteady (fun _ => hfirm) ha.answer
        exact (ihrest hsteady hset (Reaches.of_filler hskip).2 hq).after (b := .star a) ha.answer
          hskip
          hreach hrest hq hspace hexpr

end XiFront

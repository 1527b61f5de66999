import XiFront.Proofs.Grammar.Matching

namespace XiFront

open Peg

namespace Rule

def furtherSegment : Expr Rule :=
  .seq (.text [':', ':']) (.rule segment)

def access : Expr Rule :=
  .oneOf (.rule args) [.rule fieldAccess, .rule staticAccess, .rule indexAccess]

def castTo : Expr Rule :=
  .seq (.rule (kw .as_)) (.rule ty)

def furtherOperand (l : Level) : Expr Rule :=
  .seq (.oneOf (.rule (binary l.operators.1)) (l.operators.2.map fun o => .rule (binary o)))
    (operand l)

def assigned : Expr Rule :=
  .inOrder (symbol '=') [.neg (symbol '='), .rule (chain .logOr)]

def otherwise : Expr Rule :=
  .seq (.rule (kw .else_)) (.alt (.rule blockExpr) (.rule ifExpr))

def typeTrials : List (Expr Rule) :=
  [.rule arraySuffix, furtherSegment, .rule generics]

/-- What may prolong an operand of a level or of a tighter one. -/
def operandTrials (levels : List Level) : List (Expr Rule) :=
  levels.map furtherOperand ++ castTo :: access :: otherwise :: typeTrials

def exprTrials : List (Expr Rule) :=
  .rule expr :: assigned :: operandTrials Level.all

/-- What a match of a rule may try in vain at its end. -/
def trials : Rule → List (Expr Rule)
  | segment => [.rule generics]
  | path => [furtherSegment, .rule generics]
  | nonArrayType | ty | typeExpr | param | field => typeTrials
  | primaryExpr => otherwise :: typeTrials
  | callExpr | unaryExpr => access :: otherwise :: typeTrials
  | castExpr => operandTrials []
  | chain l => operandTrials (Level.all.dropWhile fun l' => decide (l' ≠ l))
  | assignExpr => assigned :: operandTrials Level.all
  | expr | exprWithoutBlock | breakExpr | returnExpr | letInit => exprTrials
  | exprWithBlock | ifExpr => [otherwise]
  | fieldInit => .seq (symbol ':') (.rule expr) :: exprTrials
  | exprStmt | stmt => [symbol ';', otherwise]
  | attrib => [.rule args]
  | impls => [.seq (symbol ',') (.rule path), furtherSegment, .rule generics]
  | enumField => [.inOrder (symbol '(') [.opt (.rule ty), symbol ')']]
  | _ => []

end Rule

def Peg.Expr.trials : Expr Rule → List (Expr Rule)
  | .rule r => r.trials
  | .seq a b => b.trials ++ if b.nullable Rule.isEmpty then a.trials else []
  | .alt a b => a.trials ++ b.trials
  | .opt a | .star a => a :: a.trials
  | .neg a => [a]
  | _ => []

theorem trials_body : ∀ r ∈ Rule.all, r.isLexical = false → r ≠ .file →
    ∀ s ∈ (Rule.production r).body.trials, s ∈ r.trials := by
  decide +kernel

/-- What does not begin with the sign. -/
def Rule.avoiding : Char → List (Expr Rule)
  | '(' => [.rule basicType, .rule (kw .upperSelf), .rule path, .rule exprWithBlock, .rule newExpr,
      .rule ident, .rule literalExpr, .rule (kw .lowerSelf), .rule (kw .continue_), .rule breakExpr,
      .rule returnExpr, .oneOf (.rule (unary .not)) [.rule (unary .neg), .rule (unary .pos)]]
  | ')' => .rule ty :: .rule param :: exprTrials
  | '[' => path.trials
  | ',' => typeTrials
  | '>' => .rule ident :: typeTrials
  | _ => []

theorem fails_of_sign {e : Expr Rule} {z : Char} (he : e ∈ Rule.avoiding z) {c d : Cursor}
    (hread : c.Reads [z] d) : FailsAt e c := by
  have hall : ∀ z ∈ ['(', ')', '[', ',', '>'], (isPlain z = true ∧ isWordChar z = false) ∧
      ∀ e ∈ Rule.avoiding z, e.avoids 20 (.sign z) = true := by
    decide +kernel
  obtain ⟨⟨hplain, hword⟩, havoids⟩ : (isPlain z = true ∧ isWordChar z = false) ∧
      e.avoids 20 (.sign z) = true := by
    have hz : z ∈ ['(', ')', '[', ',', '>'] := by
      unfold Rule.avoiding at he
      split at he
      case h_6 => exact absurd he List.not_mem_nil
      all_goals decide
    exact (hall z hz).imp_right fun h => h e he
  obtain ⟨hblank, hslash⟩ := isBlank_of_isPlain hplain
  have hfirm : IsFirm (z :: d.rest) := .cons hblank hslash
  exact Fails.of_avoids 20 havoids hfirm (Lead.ofText?_sign hword _) c hread.rest

/-- Whether an expression must fail where another reads something: they begin with different kinds
of token. -/
def Peg.Expr.clear (depth : Nat) (s b : Expr Rule) : Bool :=
  !s.nullable Rule.isEmpty && s.within Rule.isEmpty Rule.rank Rule.fillerRank grammar.depth &&
    decide (Lead.any ∉ b.leads (Rule.leads depth)) &&
    (s.leads (Rule.leads depth)).all fun l => decide (l ≠ .any ∧ l ∉ b.leads (Rule.leads depth))

theorem fails_of_clear {depth : Nat} {s b : Expr Rule} (h : s.clear depth b = true) {n e : Cursor}
    {qs : List (Pair Rule)} (hfirm : IsFirm n.rest) (hb : grammar.answer false b n = .ok qs e)
    (hne : e ≠ n) : grammar.answer false s n = .fail := by
  simp only [Expr.clear, Bool.and_eq_true, Bool.not_eq_true', decide_eq_true_eq,
    List.all_eq_true] at h
  obtain ⟨⟨⟨hnull, hfits⟩, hany⟩, hleads⟩ := h
  obtain ⟨fuel, hfuel⟩ := grammar.settles_rounds false b n
  obtain ⟨l, hl, hat⟩ := (lead_of_rounds hfirm
    ((hfuel fuel (Nat.le_refl fuel)).trans hb) depth).resolve_left hne
  have htext : Lead.ofText? n.rest = some l := hat.resolve_left fun hl' => hany (hl' ▸ hl)
  refine answer_eq_fail_of_lead hfirm hfits hnull depth fun l' hl' => ⟨(hleads l' hl').1, ?_⟩
  intro hlead
  apply (hleads l' hl').2
  rw [Option.some.inj (hlead.symm.trans htext)]
  exact hl

/-- Whether each part that a match may be prolonged by in vain is known to fail where the match goes
on, as `yields` tells. -/
def Peg.Expr.passes (leaf : Expr Rule → Bool) (part : Rule → Bool)
    (yields : Expr Rule → Expr Rule → Bool) : Expr Rule → Bool
  | .rule r => leaf (.rule r) || part r
  | .seq a b =>
      a.passes leaf part yields && b.passes leaf part yields && a.trials.all fun s => yields s b
  | .alt a b =>
      a.passes leaf part yields && b.passes leaf part yields &&
        (!b.nullable Rule.isEmpty && yields a b)
  | .opt a => a.passes leaf part yields
  | .star a => a.passes leaf part yields && a.trials.all fun s => yields s (.star a)
  | .neg _ => true
  | .more _ => false
  | e => leaf e

def Behind (B : Cursor → Cursor → Prop) (d d' : Cursor) : Prop :=
  ∃ n n', grammar.answer true filler d = .ok [] n ∧ grammar.answer true filler d' = .ok [] n' ∧
    B n n'

/-- What has to be known of related cursors so that derivations can be carried over.  `Sound` tells
the derivations that can be, and `special` the expressions that fail on the second text where the
first says so, though they begin with the same tokens as what comes next. -/
structure Passage where
  Begins : Cursor → Cursor → Prop
  Sound : Cursor → List (Pair Rule) → Cursor → Prop
  Same : List (Pair Rule) → List (Pair Rule) → Prop
  leaf : Expr Rule → Bool
  part : Rule → Bool
  special : Expr Rule → Expr Rule → Bool
  firm {c c' : Cursor} : Begins c c' → IsFirm c.rest ∧ IsFirm c'.rest
  injective {c d c' : Cursor} : Begins c c' → Begins d c' → c = d
  parts {c d n e : Cursor} {a b : Expr Rule} {ps qs : List (Pair Rule)} :
    Sound c (ps ++ qs) e → Derives a c ps d → grammar.answer true filler d = .ok [] n →
      Derives b n qs e → Sound c ps d ∧ Sound n qs e
  nil : Same [] []
  append {ps ps' qs qs' : List (Pair Rule)} : Same ps ps' → Same qs qs' →
    Same (ps ++ qs) (ps' ++ qs')
  node {r : Rule} {start stop start' stop' : Nat} {ps ps' : List (Pair Rule)} : part r = true →
    Same ps ps' → Same [.node r start stop ps] [.node r start' stop' ps']
  opens {r : Rule} : part r = true → (Rule.production r).tight = false ∧
    (Rule.production r).body.passes leaf part
      (fun s b => special s b || s.clear 20 b) = true ∧
    ∀ s ∈ (Rule.production r).body.trials, s ∈ r.trials
  leaves {e : Expr Rule} {c c' d : Cursor} {ps : List (Pair Rule)} : leaf e = true →
    Begins c c' → Derives e c ps d → Sound c ps d →
      ∃ ps' d', Derives e c' ps' d' ∧ Behind Begins d d' ∧ Same ps ps'
  rules {r : Rule} {c c' d : Cursor} {cs : List (Pair Rule)} : part r = true → Begins c c' →
    Derives (Rule.production r).body c cs d →
    Sound c (if (Rule.production r).leavesPair then [.node r c.offset d.offset cs] else cs) d →
      Sound c cs d ∨ ∃ ps' d', Derives (.rule r) c' ps' d' ∧ Behind Begins d d' ∧
        Same (if (Rule.production r).leavesPair then [.node r c.offset d.offset cs] else cs) ps'
  yields {s b : Expr Rule} {n n' e e' : Cursor} {qs qs' : List (Pair Rule)} :
    special s b = true → Begins n n' → FailsAt s n → Derives b n qs e → Sound n qs e → e ≠ n →
      Derives b n' qs' e' → e' ≠ n' → FailsAt s n'

namespace Passage

variable (k : Passage) {a b e s : Expr Rule} {c c' d n n' : Cursor} {ps qs : List (Pair Rule)}

def Calm (trials : List (Expr Rule)) (d : Cursor) : Prop :=
  ∀ n n', grammar.answer true filler d = .ok [] n → k.Begins n n' →
    ∀ s ∈ trials, FailsAt s n → FailsAt s n'

def Carried (e : Expr Rule) (c' : Cursor) (ps : List (Pair Rule)) (d : Cursor) : Prop :=
  ∃ ps' d', Derives e c' ps' d' ∧ Behind k.Begins d d' ∧ k.Same ps ps'

abbrev passes (e : Expr Rule) : Bool :=
  e.passes k.leaf k.part fun s b => k.special s b || s.clear 20 b

variable {k}

theorem Calm.mono {trials trials' : List (Expr Rule)} (h : k.Calm trials d)
    (hsub : ∀ s ∈ trials', s ∈ trials) : k.Calm trials' d :=
  fun n n' hn hbegins s hs => h n n' hn hbegins s (hsub s hs)

theorem behind (h : k.Begins c c') : Behind k.Begins c c' :=
  ⟨c, c', answer_filler_firm (k.firm h).1, answer_filler_firm (k.firm h).2, h⟩

theorem eq_of_behind {n n' e : Cursor} (hn : k.Begins n n') (he : Behind k.Begins e n')
    (hread : ∃ s, n.Reads s e) : e = n := by
  obtain ⟨m, m', hm, hm', hbegins⟩ := he
  obtain ⟨-, rfl⟩ := Reply.ok.inj ((answer_filler_firm (k.firm hn).2).symm.trans hm')
  obtain rfl := k.injective hn hbegins
  obtain ⟨s, hs⟩ := hread
  obtain ⟨t, ht⟩ := Grammar.answer_reads hm
  exact (hs.antisymm ht).symm

theorem fails_of_yields (h : (k.special s b || s.clear 20 b) = true) (hn : k.Begins n n')
    (hfail : FailsAt s n) (hb : Derives b n qs d) (hsound : k.Sound n qs d)
    (hcarried : k.Carried b n' qs d) (hnil : d = n → FailsAt s n') : FailsAt s n' := by
  by_cases hd : d = n
  · exact hnil hd
  obtain ⟨qs', d', hb', hend, -⟩ := hcarried
  have hd' : d' ≠ n' := by
    rintro rfl
    exact hd (eq_of_behind hn hend hb.reads)
  rcases Bool.or_eq_true_iff.mp h with h | h
  · exact k.yields h hn hfail hb hsound hd hb' hd'
  · exact fails_of_clear h (k.firm hn).2 hb'.answer hd'

/-- A derivation is carried over, if no part of it goes on longer behind its end. -/
theorem carried (h : Derives e c ps d) (he : k.passes e = true) (hc : k.Begins c c')
    (hsound : k.Sound c ps d) (hcalm : k.Calm e.trials d) : k.Carried e c' ps d := by
  have hstays {d : Cursor} (hd : IsFirm d.rest) : grammar.answer true filler d = .ok [] d :=
    answer_filler_firm hd
  have hsame {d n n₁ : Cursor} (hn : grammar.answer true filler d = .ok [] n)
      (hn₁ : grammar.answer true filler d = .ok [] n₁) : n₁ = n :=
    (Reply.ok.inj (hn₁.symm.trans hn)).2
  -- A sequence is carried over from its last part to its first: that the first goes on no longer
  -- is known once it is known what comes next on the second text.
  induction h generalizing c' with
  | text h => exact k.leaves he hc (.text h) hsound
  | char hy h => exact k.leaves he hc (.char hy h) hsound
  | start h => exact k.leaves he hc (.start h) hsound
  | finish h => exact k.leaves he hc (.finish h) hsound
  | token htight h =>
      rcases Bool.or_eq_true_iff.mp he with hleaf | hpart
      · exact k.leaves hleaf hc (.token htight h) hsound
      · exact nomatch (k.opens hpart).1.symm.trans htight
  | @rule r c d cs hloose hbody ih =>
      rcases Bool.or_eq_true_iff.mp he with hleaf | hpart
      · exact k.leaves hleaf hc (.rule hloose hbody) hsound
      rcases k.rules hpart hc hbody hsound with hinside | hwhole
      · obtain ⟨-, hpasses, htrials⟩ := k.opens hpart
        obtain ⟨cs', d', hbody', hend, hcs⟩ := ih hpasses hc hinside (hcalm.mono htrials)
        refine ⟨_, d', .rule hloose hbody', hend, ?_⟩
        split
        · exact k.node hpart hcs
        · exact hcs
      · exact hwhole
  | @seq a b c d n e ps qs ha hskip hb iha ihb =>
      obtain ⟨hpasses, hyields⟩ := Bool.and_eq_true_iff.mp he
      obtain ⟨hpa, hpb⟩ := Bool.and_eq_true_iff.mp hpasses
      obtain ⟨hsa, hsb⟩ := k.parts hsound ha hskip hb
      have hsecond {n' : Cursor} (hn : k.Begins n n') : k.Carried b n' qs e :=
        ihb hpb hn hsb (hcalm.mono fun s hs => List.mem_append_left _ hs)
      have hquiet : k.Calm a.trials d := by
        intro n₁ n' hn₁ hn s hs hfail
        obtain rfl := hsame hskip hn₁
        -- If the second part reads nothing, it is what comes behind the whole that counts.
        refine fails_of_yields (List.all_eq_true.mp hyields s hs) hn hfail hb hsb (hsecond hn) ?_
        rintro rfl
        cases hnull : b.nullable Rule.isEmpty with
        | true =>
            refine hcalm e n' (hstays (k.firm hn).1) hn s (List.mem_append_right _ ?_) hfail
            rw [if_pos hnull]
            exact hs
        | false =>
            obtain ⟨t, ht, hne⟩ := answer_reads_something hnull hb.answer
            exact absurd (ht.unique (.refl _)) hne
      obtain ⟨ps', d', ha', ⟨n₁, n', hn₁, hn', hn⟩, hps⟩ := iha hpa hc hsa hquiet
      obtain rfl := hsame hskip hn₁
      obtain ⟨qs', e', hb', hend, hqs⟩ := hsecond hn
      exact ⟨ps' ++ qs', e', .seq ha' hn' hb', hend, k.append hps hqs⟩
  | first ha ih =>
      obtain ⟨hpasses, -⟩ := Bool.and_eq_true_iff.mp he
      obtain ⟨ps', d', ha', hend, hps⟩ := ih (Bool.and_eq_true_iff.mp hpasses).1 hc hsound
        (hcalm.mono fun s hs => List.mem_append_left _ hs)
      exact ⟨ps', d', .first ha', hend, hps⟩
  | second hfail hb ih =>
      obtain ⟨hpasses, hyields⟩ := Bool.and_eq_true_iff.mp he
      obtain ⟨hnull, hyields⟩ := Bool.and_eq_true_iff.mp hyields
      have hcarried := ih (Bool.and_eq_true_iff.mp hpasses).2 hc hsound
        (hcalm.mono fun s hs => List.mem_append_right _ hs)
      have hfail' := fails_of_yields hyields hc hfail hb hsound hcarried (by
        rintro rfl
        obtain ⟨t, ht, hne⟩ := answer_reads_something ((Bool.not_eq_true' _).mp hnull) hb.answer
        exact absurd (ht.unique (.refl _)) hne)
      obtain ⟨ps', d', hb', hend, hps⟩ := hcarried
      exact ⟨ps', d', .second hfail' hb', hend, hps⟩
  | some ha ih =>
      obtain ⟨ps', d', ha', hend, hps⟩ := ih he hc hsound
        (hcalm.mono fun s hs => List.mem_cons_of_mem _ hs)
      exact ⟨ps', d', .some ha', hend, hps⟩
  | @none a c hfail =>
      have hfail' := hcalm c c' (hstays (k.firm hc).1) hc a List.mem_cons_self hfail
      exact ⟨[], c', .none hfail', behind hc, k.nil⟩
  | @done a c hfail =>
      have hfail' := hcalm c c' (hstays (k.firm hc).1) hc a List.mem_cons_self hfail
      exact ⟨[], c', .done hfail', behind hc, k.nil⟩
  | @last a c d n ps ha hskip hfail ih =>
      obtain ⟨hpasses, -⟩ := Bool.and_eq_true_iff.mp he
      obtain ⟨ps', d', ha', hend, hps⟩ := ih hpasses hc hsound
        (hcalm.mono fun s hs => List.mem_cons_of_mem _ hs)
      obtain ⟨n₁, n', hn₁, hn', hn⟩ := hend
      have hfail' := hcalm n₁ n' hn₁ hn a List.mem_cons_self (hsame hskip hn₁ ▸ hfail)
      exact ⟨ps', d', .last ha' hn' hfail', ⟨n₁, n', hn₁, hn', hn⟩, hps⟩
  | @turn a c d n e ps qs ha hskip hrest hne ih ihrest =>
      obtain ⟨hpasses, hyields⟩ := Bool.and_eq_true_iff.mp he
      obtain ⟨hsa, hsrest⟩ := k.parts hsound ha hskip hrest
      have hnext {n' : Cursor} (hn : k.Begins n n') : k.Carried (.star a) n' qs e :=
        ihrest he hn hsrest hcalm
      have hquiet : k.Calm a.trials d := by
        intro n₁ n' hn₁ hn s hs hfail
        obtain rfl := hsame hskip hn₁
        exact fails_of_yields (List.all_eq_true.mp hyields s hs) hn hfail hrest hsrest (hnext hn)
          fun h => absurd h hne
      obtain ⟨ps', d', ha', ⟨n₁, n', hn₁, hn', hn⟩, hps⟩ := ih hpasses hc hsa hquiet
      obtain rfl := hsame hskip hn₁
      obtain ⟨qs', e', hrest', hend, hqs⟩ := hnext hn
      refine ⟨ps' ++ qs', e', .turn ha' hn' hrest' ?_, hend, k.append hps hqs⟩
      rintro rfl
      exact hne (eq_of_behind hn hend hrest.reads)
  | @neg a c hfail =>
      have hfail' := hcalm c c' (hstays (k.firm hc).1) hc a List.mem_cons_self hfail
      exact ⟨[], c', .neg hfail', behind hc, k.nil⟩

end Passage

end XiFront

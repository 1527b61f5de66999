import XiFront.Proofs.Grammar.Cut
import XiFront.Proofs.Peg.Outlook

/-!
What a match reads.  A match reads whole pieces, with a gap behind them at most.  An operator before
an unclosed comment would break this rule, but no operand begins with a star.
-/

namespace XiFront

open Peg

def Trail (rest w : List Char) : Prop :=
  ∃ v a, w = v ++ a ∧ Cut (a ++ rest) v ∧ (a = [] ∨ IsGap a rest)

namespace Trail

variable {rest w v : List Char}

theorem of_cut (h : Cut rest w) : Trail rest w :=
  ⟨w, [], (List.append_nil w).symm, h, .inl rfl⟩

theorem of_gap (h : IsGap w rest) : Trail rest w :=
  ⟨[], w, rfl, .nil, .inr h⟩

theorem append (h : Trail (v ++ rest) w) (h' : Trail rest v) : Trail rest (w ++ v) := by
  obtain ⟨w, a, rfl, hw, ha⟩ := h
  obtain ⟨v, b, rfl, hv, hb⟩ := h'
  by_cases hnil : a = []
  · subst hnil
    refine ⟨w ++ v, b, by simp only [List.append_nil, List.append_assoc], ?_, hb⟩
    rw [List.nil_append, List.append_assoc] at hw
    exact hw.append hv
  have hgap := ha.resolve_left hnil
  rw [List.append_assoc] at hgap
  by_cases hv' : v = []
  · subst hv'
    rcases hb with rfl | hb
    · refine ⟨w, a, by simp, ?_, .inr hgap⟩
      simpa using hw
    · by_cases hb' : b = []
      · subst hb'
        refine ⟨w, a, by simp, ?_, .inr hgap⟩
        simpa using hw
      · exact absurd hgap.firm (hb.not_firm hb')
  · refine ⟨w ++ (a ++ v), b, by simp only [List.append_assoc], ?_, hb⟩
    apply Cut.append
    · simpa only [List.append_assoc] using hw
    · exact .gap hnil hv' hgap hv

/-- In front of what is not firm, no gap can end. -/
theorem cut (h : Trail rest w) (hrest : ¬IsFirm rest) : Cut rest w := by
  obtain ⟨w, a, rfl, hw, rfl | ha⟩ := h
  · rw [List.append_nil]
    exact hw
  · exact absurd ha.firm hrest

end Trail

namespace Rule

/-- The rules that cannot match in front of a star. -/
def refusesStar (r : Rule) : Bool :=
  decide (r ∉ [binary .mul, character, regular, endOfInput, file])

theorem refusesStar_body : ∀ r ∈ all, r.refusesStar = true →
    (production r).body.outlook (some '*') refusesStar = .fails := by
  decide +kernel

end Rule

theorem castExpr_ne_ok {c c' : Cursor} {ps : List (Pair Rule)} (hc : c.rest.head? = some '*') :
    grammar.answer false (.rule .castExpr) c ≠ .ok ps c' := by
  obtain ⟨r, hr⟩ := List.head?_eq_some_iff.mp hc
  have hbarred : grammar.Barred c Rule.refusesStar := by
    constructor
    · apply answer_filler_firm
      rw [hr]
      exact .cons rfl (by decide)
    · intro r hr
      rw [hc]
      exact .inr (Rule.refusesStar_body r r.mem_all hr)
  apply hbarred.answer_ne_ok
  rw [hc]
  rfl

/-- The operators in front of which an operand is a cast. -/
def tightOperators : Expr Rule :=
  .oneOf (.rule (.binary .mul)) [.rule (.binary .div), .rule (.binary .mod)]

/-- Whether a match reads whole pieces, given that it begins at one.  After a division that is known
only once its operand is read. -/
def Peg.Expr.isSteady : Expr Rule → Bool
  | .text chars => chars.all isPlain
  | .char _ => false
  | .start | .finish | .neg _ => true
  | .rule r => r.isToken && decide (r ≠ .binary .div) || !r.isLexical
  | .seq a b =>
      (a.isSteady || decide (a = tightOperators) && decide (b = .rule .castExpr)) && b.isSteady
  | .alt a b => a.isSteady && b.isSteady
  | .opt a | .star a | .more a => a.isSteady

theorem steady_body : ∀ r ∈ Rule.all, r.isLexical = false →
    (Rule.production r).body.isSteady = true := by
  decide +kernel

theorem not_isLexical_of_isSteady {r : Rule} (h : (Expr.rule r).isSteady = true)
    (hloose : (grammar.production r).tight = false) : r.isLexical = false := by
  rcases Bool.or_eq_true_iff.mp h with hr | hr
  · have htight := Rule.tight_of_isToken (Bool.and_eq_true_iff.mp hr).1
    exact nomatch htight.symm.trans hloose
  · exact (Bool.not_eq_true' _).mp hr

/-- Between two cursors lie whole pieces, and perhaps a gap after them. -/
def Reaches (c c' : Cursor) : Prop :=
  ∃ w, c.Reads w c' ∧ Trail c'.rest w

namespace Reaches

variable {c c₁ c₂ : Cursor}

theorem refl (c : Cursor) : Reaches c c :=
  ⟨[], .refl c, .of_cut .nil⟩

theorem trans (h : Reaches c c₁) (h' : Reaches c₁ c₂) : Reaches c c₂ := by
  obtain ⟨w, hw, htrail⟩ := h
  obtain ⟨v, hv, htrail'⟩ := h'
  rw [hv.rest] at htrail
  exact ⟨w ++ v, hw.trans hv, htrail.append htrail'⟩

theorem of_filler {ps : List (Pair Rule)} (h : grammar.answer true filler c = .ok ps c₁) :
    Reaches c c₁ ∧ IsFirm c₁.rest := by
  obtain ⟨a, ha⟩ := Grammar.takes_of_answer h
  obtain ⟨hread, hgap⟩ := takes_filler.mp ha
  exact ⟨⟨a, hread, .of_gap hgap⟩, hgap.firm⟩

theorem of_plain {s : List Char} (h : c.Reads s c₁) (hs : ∀ z ∈ s, isPlain z = true) :
    Reaches c c₁ := by
  refine ⟨s, h, .of_cut ?_⟩
  have hcut := Cut.plains hs (.nil : Cut c₁.rest [])
  rwa [List.append_nil] at hcut

theorem of_token {r : Rule} (hr : r.isToken = true) (hdiv : r ≠ .binary .div)
    {ps : List (Pair Rule)} (h : grammar.answer true (.rule r) c = .ok ps c₁) :
    Reaches c c₁ := by
  obtain ⟨s, hs⟩ := Grammar.takes_of_answer h
  rcases Rule.isToken_cases hr with hunquoted | rfl | ⟨q, hq⟩
  · exact of_plain hs.2 (unquoted_reads_plain hunquoted hs)
  · exact absurd rfl hdiv
  · obtain ⟨s', rfl, hspans⟩ : ∃ s', s = q :: s' ∧ ∀ rest, Spans (.rule r) (q :: s') rest := by
      rcases Rule.quote?_eq_some_iff.mp hq with ⟨rfl, rfl⟩ | ⟨rfl, rfl⟩
      · have hspans := Escape.spans_strLiteral hs
        obtain ⟨is, body, rfl, -⟩ := Escape.takes_strLiteral hs
        exact ⟨_, rfl, hspans⟩
      · have hspans := Escape.spans_charLiteral hs
        obtain ⟨i, rfl, -⟩ := Escape.takes_charLiteral hs
        exact ⟨_, rfl, hspans⟩
    refine ⟨_, hs.2, .of_cut ?_⟩
    have hcut := Cut.literal hq hspans (.nil : Cut c₁.rest [])
    rwa [List.append_nil] at hcut

theorem of_loose_token {r : Rule} (hr : r.isToken = true) (hdiv : r ≠ .binary .div)
    {ps : List (Pair Rule)} (h : grammar.answer false (.rule r) c = .ok ps c₁) :
    Reaches c c₁ := by
  have htight : (grammar.production r).tight = true := Rule.tight_of_isToken hr
  rw [Grammar.answer_rule_loose, htight] at h
  obtain ⟨cs, hcs, -⟩ := Reply.close_eq_ok_iff.mp h
  rw [← Grammar.answer_rule_tight] at hcs
  exact of_token hr hdiv hcs

theorem of_tightOperators {ps qs rs : List (Pair Rule)} {c₃ : Cursor} (hfirm : IsFirm c.rest)
    (hfirst : grammar.answer false tightOperators c = .ok ps c₁)
    (hskip : grammar.answer true filler c₁ = .ok qs c₂)
    (hsecond : grammar.answer false (.rule .castExpr) c₂ = .ok rs c₃) : Reaches c c₁ := by
  rw [tightOperators, Expr.oneOf_cons, Grammar.answer_alt, Reply.resume_eq_ok_iff] at hfirst
  rcases hfirst with ⟨-, hfirst⟩ | ⟨_, _, hmul, hfirst⟩
  · rw [Expr.oneOf_cons, Grammar.answer_alt, Reply.resume_eq_ok_iff] at hfirst
    rcases hfirst with ⟨-, hmod⟩ | ⟨_, _, hdiv, hfirst⟩
    · exact of_loose_token rfl (by decide) hmod
    · have htext : grammar.answer true (.text ['/']) c = .ok [] c₁ := by
        rw [hfirst, Grammar.answer_rule_loose] at hdiv
        obtain ⟨cs, hcs, -⟩ := Reply.close_eq_ok_iff.mp hdiv
        cases Grammar.answer_tight hcs
        exact hcs
      have hread : c.Reads ['/'] c₁ := (Grammar.answer_text_eq_ok_iff.mp htext).2
      refine ⟨['/'], hread, .of_cut (.slash ?_ .nil)⟩
-- A slash behind it would open a comment; a star would begin the operand, and none begins so.
      intro z hz
      obtain ⟨r, hr⟩ := List.head?_eq_some_iff.mp hz
      rw [List.nil_append] at hr
      constructor
      · rintro rfl
        apply hfirm.comment
        exact .inl ⟨r, by rw [hread.rest, hr]; rfl⟩
      · rintro rfl
        have hstar : IsFirm c₁.rest := by
          rw [hr]
          exact .cons rfl (by decide)
        have hstays := (answer_filler_firm hstar).symm.trans hskip
        obtain ⟨-, rfl⟩ := Reply.ok.inj hstays
        exact castExpr_ne_ok (by rw [hr]; rfl) hsecond
  · rw [hfirst] at hmul
    exact of_loose_token rfl (by decide) hmul

end Reaches

theorem reaches_of_rounds {fuel : Nat} {e : Expr Rule} (he : e.isSteady = true) {c c' : Cursor}
    (hfirm : (∀ a, e ≠ .more a) → IsFirm c.rest) {ps : List (Pair Rule)}
    (h : grammar.rounds fuel false e c = .ok ps c') : Reaches c c' := by
  induction fuel generalizing e c c' ps with
  | zero => exact nomatch h
  | succ fuel ih =>
      have hcases := Grammar.round_eq_ok h
      have hskip {c₁ c₂ : Cursor} {qs : List (Pair Rule)}
          (h : grammar.skip (grammar.rounds fuel) false c₁ = .ok qs c₂) :
          Reaches c₁ c₂ ∧ IsFirm c₂.rest := Reaches.of_filler (Grammar.answer_of_rounds h)
      cases e with
      | text chars => exact .of_plain hcases.2 (List.all_eq_true.mp he)
      | char set => exact nomatch he
      | start =>
          obtain ⟨-, rfl, -⟩ := hcases
          exact .refl c'
      | finish =>
          obtain ⟨-, rfl, -⟩ := hcases
          exact .refl c'
      | neg a =>
          obtain ⟨-, -, rfl⟩ := hcases
          exact .refl c'
      | rule r =>
          have hfirm' := hfirm nofun
          obtain ⟨cs, hcs, -⟩ := hcases
          rcases Bool.or_eq_true_iff.mp he with hr | hr
          · rw [Bool.and_eq_true, decide_eq_true_eq] at hr
            exact .of_loose_token hr.1 hr.2 (Grammar.answer_of_rounds h)
          · rw [Bool.not_eq_true'] at hr
            have hloose : (grammar.production r).tight = false := Rule.loose_of_isLexical hr
            rw [hloose] at hcs
            exact ih (steady_body r r.mem_all hr) (fun _ => hfirm') hcs
      | seq a b =>
          have hfirm' := hfirm nofun
          obtain ⟨ps₁, c₁, ps₂, c₂, ps₃, h₁, h₂, h₃, -⟩ := hcases
          obtain ⟨ha, hb⟩ := Bool.and_eq_true_iff.mp he
          have hfirst : Reaches c c₁ := by
            rcases Bool.or_eq_true_iff.mp ha with ha | ha
            · exact ih ha (fun _ => hfirm') h₁
-- The one operator that could open a comment: what follows it tells that it does not.
            · rw [Bool.and_eq_true, decide_eq_true_eq, decide_eq_true_eq] at ha
              obtain ⟨rfl, rfl⟩ := ha
              exact .of_tightOperators hfirm' (Grammar.answer_of_rounds h₁)
                (Grammar.answer_of_rounds h₂) (Grammar.answer_of_rounds h₃)
          exact hfirst.trans ((hskip h₂).1.trans (ih hb (fun _ => (hskip h₂).2) h₃))
      | alt a b =>
          have hfirm' := hfirm nofun
          obtain ⟨ha, hb⟩ := Bool.and_eq_true_iff.mp he
          rcases hcases with h₁ | ⟨-, h₁⟩
          · exact ih ha (fun _ => hfirm') h₁
          · exact ih hb (fun _ => hfirm') h₁
      | opt a =>
          have hfirm' := hfirm nofun
          rcases hcases with h₁ | ⟨-, -, rfl⟩
          · exact ih (e := a) he (fun _ => hfirm') h₁
          · exact .refl c'
      | star a =>
          have hfirm' := hfirm nofun
          rcases hcases with ⟨ps₁, c₁, ps₂, h₁, h₂, -⟩ | ⟨-, -, rfl⟩
          · exact (ih (e := a) he (fun _ => hfirm') h₁).trans
              (ih (e := .more a) he (fun hne => absurd rfl (hne a)) h₂)
          · exact .refl c'
      | more a =>
          rcases hcases with ⟨ps₁, c₁, ps₂, c₂, ps₃, h₁, h₂, h₃, -⟩ | ⟨-, rfl⟩
          · have hbody := ih (e := a) he (fun _ => (hskip h₁).2) h₂
            exact (hskip h₁).1.trans (hbody.trans (ih (e := .more a) he (fun hne => absurd rfl (hne a)) h₃))
          · exact .refl c'

theorem reaches_of_answer {e : Expr Rule} (he : e.isSteady = true) {c c' : Cursor}
    (hfirm : (∀ a, e ≠ .more a) → IsFirm c.rest) {ps : List (Pair Rule)}
    (h : grammar.answer false e c = .ok ps c') : Reaches c c' := by
  obtain ⟨n, hn⟩ := grammar.settles_rounds false e c
  exact reaches_of_rounds he hfirm ((hn n (Nat.le_refl n)).trans h)

theorem steady_seq_first {a b : Expr Rule} (he : (Expr.seq a b).isSteady = true) {c c₁ c₂ c₃ : Cursor}
    {ps qs rs : List (Pair Rule)} (hfirm : IsFirm c.rest)
    (hfirst : grammar.answer false a c = .ok ps c₁)
    (hskip : grammar.answer true filler c₁ = .ok qs c₂)
    (hsecond : grammar.answer false b c₂ = .ok rs c₃) : Reaches c c₁ := by
  rcases Bool.or_eq_true_iff.mp (Bool.and_eq_true_iff.mp he).1 with ha | ha
  · exact reaches_of_answer ha (fun _ => hfirm) hfirst
  · rw [Bool.and_eq_true, decide_eq_true_eq, decide_eq_true_eq] at ha
    obtain ⟨rfl, rfl⟩ := ha
    exact .of_tightOperators hfirm hfirst hskip hsecond

theorem answer_start_ofText (source : Source) :
    grammar.answer false .start (.ofText source) = .ok [] (.ofText source) := by
  rw [Grammar.answer_start]
  rfl

theorem answer_file_eq_ok {source : Source} {ps : List (Pair Rule)} {after : Cursor} :
    grammar.answer false (.rule .file) (.ofText source) = .ok ps after ↔
      ∃ c cs, grammar.answer true filler (.ofText source) = .ok [] c ∧
        grammar.answer false (.seq (.star (.rule .item)) (.rule .endOfInput)) c = .ok cs after ∧
        ps = [.node .file 0 after.offset cs] := by
  have hbody : (grammar.production .file).body =
      .seq .start (.seq (.star (.rule .item)) (.rule .endOfInput)) := rfl
  obtain ⟨s, c, hc⟩ := exists_takes_filler (.ofText source)
  have hskip : grammar.answer true grammar.filler (.ofText source) = .ok [] c := hc.1
  rw [Grammar.answer_rule_loose, Reply.close_eq_ok_iff, hbody]
  have hbodyAnswer : grammar.answer (grammar.production .file).tight
      (.seq .start (.seq (.star (.rule .item)) (.rule .endOfInput))) (.ofText source) =
      grammar.answer false (.seq (.star (.rule .item)) (.rule .endOfInput)) c := by
    have hloose : (grammar.production .file).tight = false := rfl
    rw [hloose, Grammar.answer_seq, answer_start_ofText, Reply.resume_ok, Grammar.skip_loose, hskip,
      Reply.resume_ok]
    cases grammar.answer false (.seq (.star (.rule .item)) (.rule .endOfInput)) c <;> rfl
  rw [hbodyAnswer]
  constructor
  · rintro ⟨cs, hcs, rfl⟩
    exact ⟨c, cs, hc.1, hcs, rfl⟩
  · rintro ⟨c', cs, hc', hcs, rfl⟩
    obtain ⟨-, rfl⟩ := Reply.ok.inj (hc.1.symm.trans hc')
    exact ⟨cs, hcs, rfl⟩

theorem answer_file_agrees (k : Likeness grammar false)
    (hbuilt : (Expr.seq (.star (.rule .item)) (.rule .endOfInput)).built k.leaf k.part = true)
    {s s' : Source} (hends : k.Ends (.ofText s) (.ofText s')) {p : Pair Rule} {after : Cursor}
    (hfile : grammar.answer false (.rule .file) (.ofText s) = .ok [p] after) :
    ∃ cs cs' after', p = .node .file 0 after.offset cs ∧
      grammar.answer false (.rule .file) (.ofText s') =
        .ok [.node .file 0 after'.offset cs'] after' ∧ List.Forall₂ k.Alike cs cs' := by
  obtain ⟨c, cs, hskip, hitems, hp⟩ := answer_file_eq_ok.mp hfile
  cases hp
  obtain ⟨_, c', hskip', hnil, hbegins⟩ := (k.skips hends).exists_ok hskip
  cases hnil
  obtain ⟨cs', after', hitems', hcs, -⟩ := (k.agree hbuilt c c' hbegins).exists_ok hitems
  exact ⟨cs, cs', after', rfl, answer_file_eq_ok.mpr ⟨c', cs', hskip', hitems', rfl⟩, hcs⟩

end XiFront

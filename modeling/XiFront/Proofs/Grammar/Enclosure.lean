import XiFront.Proofs.Grammar.Nesting

namespace XiFront

open Peg

theorem Peg.Expr.nests_add {e : Expr Rule} {i j : Nat} (h : e.nests i = some j) (k : Nat) :
    e.nests (i + k) = some (j + k) := by
  induction e generalizing i j with
  | text chars =>
      induction chars generalizing i with
      | nil =>
          cases h
          rfl
      | cons z chars ih =>
          obtain ⟨hz, m, hm, hrest⟩ := nests_text_cons.mp h
          exact nests_text_cons.mpr ⟨hz, m + k, nesting_add hm k, ih hrest⟩
  | char set => exact nomatch h
  | start => exact nomatch h
  | finish =>
      cases h
      rfl
  | rule r =>
      obtain ⟨hr, ⟨⟩⟩ := Option.ite_none_right_eq_some.mp h
      exact if_pos hr
  | seq a b iha ihb =>
      obtain ⟨m, ha, hb⟩ := Option.bind_eq_some_iff.mp h
      exact Option.bind_eq_some_iff.mpr ⟨m + k, iha ha, ihb hb⟩
  | alt a b iha ihb =>
      obtain ⟨hsame, ha⟩ := Option.ite_none_right_eq_some.mp h
      have ha' := iha ha
      exact (if_pos (ha'.trans (ihb (hsame.symm.trans ha)).symm)).trans ha'
  | opt a ih | star a ih | more a ih =>
      obtain ⟨ha, ⟨⟩⟩ := Option.ite_none_right_eq_some.mp h
      exact if_pos (ih ha)
  | neg a ih =>
      obtain ⟨m, ha, ⟨⟩⟩ := Option.map_eq_some_iff.mp h
      exact Option.map_eq_some_iff.mpr ⟨m + k, ih ha, rfl⟩

namespace Pieces

variable {w r s t : List Char} {c d : Cursor} {i j : Nat}

theorem exists_append (h : Pieces .brackets (t, i) (r, j)) : ∃ v, t = v ++ r := by
  obtain ⟨v, hv⟩ := h.suffix
  exact ⟨v, hv.symm⟩

theorem after_flat (h : Pieces .brackets (s ++ (w ++ t), i) (t, j))
    (hplain : ∀ z ∈ s, isPlain z = true)
    (hflat : ∀ z ∈ s, z ∉ marks) : Pieces .brackets (w ++ t, i) (t, j) := by
  induction s with
  | nil => exact h
  | cons z s ih =>
      rw [List.forall_mem_cons] at hplain hflat
      rw [← List.append_assoc] at h
      obtain ⟨p, hfirst, hrest⟩ := h.exists_first (by simp) (Nat.le_refl _)
      obtain ⟨htail, hdepth⟩ := hfirst.of_plain hplain.1
      have hp : p = (s ++ (w ++ t), i) :=
        Prod.ext (htail.trans (List.append_assoc ..))
          (Option.some.inj (hdepth.symm.trans (Tally.brackets.sign_of_not_mark hflat.1 i)))
      exact ih (hp ▸ hrest) hplain.2 hflat.2

/-- Signs are read as they nest; so the bracket at the end is not reached. -/
theorem after_text {chars : List Char} (h : Pieces .brackets (w ++ ')' :: r, i) (')' :: r, 0))
    (hn : (Expr.text chars : Expr Rule).nests i = some j) (hread : w ++ ')' :: r = chars ++ t) :
    ∃ v, w = chars ++ v ∧ t = v ++ ')' :: r ∧
      Pieces .brackets (v ++ ')' :: r, j) (')' :: r, 0) := by
  induction chars generalizing w i with
  | nil =>
      cases hn
      exact ⟨w, rfl, hread.symm, h⟩
  | cons z chars ih =>
      obtain ⟨hz, k, hk, hrest⟩ := nests_text_cons.mp hn
      cases w with
      | nil =>
          obtain ⟨rfl, -⟩ := List.cons.inj hread
          cases h.eq_of_length (Nat.le_refl _)
          exact nomatch hk
      | cons y w =>
          obtain ⟨rfl, htail⟩ := List.cons.inj hread
          obtain ⟨⟨u, k'⟩, hfirst, hpieces⟩ := h.exists_first nofun (Nat.le_refl _)
          obtain ⟨rfl, hk'⟩ := hfirst.of_plain hz
          cases hk.symm.trans hk'
          obtain ⟨v, rfl, rfl, hv⟩ := ih hpieces hrest htail
          exact ⟨v, rfl, rfl, hv⟩

theorem after_token (h : Pieces .brackets (w ++ ')' :: r, i) (')' :: r, 0))
    (hc : c.rest = w ++ ')' :: r)
    (hfirm : IsFirm c.rest) {rule : Rule} (hr : rule.isToken = true)
    (htoken : grammar.Takes (.rule rule) c s d) :
    ∃ v, w = s ++ v ∧ d.rest = v ++ ')' :: r ∧
      Pieces .brackets (v ++ ')' :: r, i) (')' :: r, 0) := by
  have hread := hc.symm.trans htoken.2.rest
  have hfirst {z : Char} {s' : List Char} (hs : s = z :: s') (hz : z ≠ ')')
      (hstep : ∀ p, Piece .brackets (w ++ ')' :: r, i) p → p = (d.rest, i)) :
      ∃ v, w = s ++ v ∧ d.rest = v ++ ')' :: r ∧
        Pieces .brackets (v ++ ')' :: r, i) (')' :: r, 0) := by
    have hw : w ≠ [] := by
      rintro rfl
      rw [hs] at hread
      exact hz (List.cons.inj hread).1.symm
    obtain ⟨p, hpiece, hrest⟩ := h.exists_first hw (Nat.le_refl _)
    obtain rfl := hstep p hpiece
    obtain ⟨v, hv⟩ := hrest.exists_append
    rw [hv, ← List.append_assoc] at hread
    exact ⟨v, List.append_cancel_right hread, hv, hv ▸ hrest⟩
  rcases Rule.isToken_cases hr with hunquoted | rfl | ⟨q, hq⟩
  · have hflat := unquoted_reads_flat hunquoted htoken
    obtain ⟨v, rfl, hv⟩ := append_of_head hread.symm fun z hz hmem => by
      cases Option.some.inj hz
      exact hflat _ hmem (by decide)
    refine ⟨v, rfl, hv, ?_⟩
    rw [List.append_assoc] at h
    exact h.after_flat (unquoted_reads_plain hunquoted htoken) hflat
  · obtain ⟨rfl, -⟩ := Grammar.takes_text.mp (Grammar.takes_rule.mp htoken)
    refine hfirst rfl (by decide) fun p hp => ?_
    rw [hc, hread] at hfirm
    rw [hread] at hp
    exact hp.of_slash hfirm
  · obtain ⟨s', rfl, hspans⟩ := takes_quoted hq htoken
    refine hfirst rfl ?_ fun p hp => ?_
    · rintro rfl
      exact nomatch (Rule.quote?_eq_some hq).1
    · rw [hread] at hp
      exact hp.of_literal hq hspans

theorem firm (h : Pieces .brackets (w ++ ')' :: r, i) (')' :: r, 0))
    (hfirm : IsFirm (w ++ ')' :: r))
    (r' : List Char) : IsFirm (w ++ ')' :: r') := by
  cases w with
  | nil => exact .cons rfl (by decide)
  | cons z w =>
      obtain ⟨p, hfirst, -⟩ := h.exists_first nofun (Nat.le_refl _)
      rw [List.cons_append] at hfirst hfirm ⊢
      generalize hu : z :: (w ++ ')' :: r) = u at hfirst hfirm
      cases hfirst with
      | sign hz _ =>
          obtain ⟨rfl, -⟩ := List.cons.inj hu
          exact .cons (isBlank_of_isPlain hz).1 (isBlank_of_isPlain hz).2
      | slash hnext =>
          obtain ⟨rfl, rfl⟩ := List.cons.inj hu
          refine .slash fun y hy => hnext y ?_
          cases w <;> exact hy
      | literal hr _ =>
          obtain ⟨rfl, -⟩ := List.cons.inj hu
          obtain ⟨-, hblank, hslash⟩ := Rule.quote?_eq_some hr
          exact .cons hblank hslash
      | gap ha hgap => exact absurd hfirm (hgap.not_firm ha)

theorem reclose (h : Pieces .brackets (w ++ ')' :: r, i) (')' :: r, 0)) (r' : List Char) :
    Pieces .brackets (w ++ ')' :: r', i) (')' :: r', 0) := by
  generalize hp : (w ++ ')' :: r, i) = p at h
  induction h using Relation.ReflTransGen.head_induction_on generalizing w i with
  | refl =>
      obtain ⟨hw, rfl⟩ := Prod.mk.inj hp
      obtain rfl := List.append_left_eq_self.mp hw
      exact .refl _
  | @head _ p' hstep hrest ih =>
      subst hp
      obtain ⟨t, k⟩ := p'
      obtain ⟨v, rfl⟩ := exists_append hrest
      refine .trans (.step ?_) (ih rfl)
      generalize hu : w ++ ')' :: r = u at hstep
      cases hstep with
      | sign hz hj =>
          obtain rfl : w = _ :: v := List.append_cancel_right hu
          exact .sign hz hj
      | slash hnext =>
          obtain rfl : w = _ :: v := List.append_cancel_right hu
          refine .slash fun y hy => hnext y ?_
          cases v <;> exact hy
      | @literal _ q s _ _ hr hs =>
          rw [← List.append_assoc] at hu
          obtain rfl : w = q :: (s ++ v) := List.append_cancel_right hu
          rw [List.cons_append, List.append_assoc]
          exact .literal hr hs
      | @gap a _ _ ha hgap =>
          rw [← List.append_assoc] at hu
          obtain rfl := List.append_cancel_right hu
          rw [List.append_assoc]
          exact .gap ha (hgap.congr (Pieces.firm hrest hgap.firm r') (by cases v <;> rfl))

end Pieces

/-- The same pieces come next, up to a bracket behind which the texts may differ; so many brackets
have been opened inside. -/
def Enclosed (r r' : List Char) (i : Nat) (c c' : Cursor) : Prop :=
  ∃ w, c.rest = w ++ ')' :: r ∧ c'.rest = w ++ ')' :: r' ∧
    Pieces .brackets (w ++ ')' :: r, i) (')' :: r, 0)

namespace Enclosed

variable {r r' : List Char} {c c' d n : Cursor} {i j : Nat}

theorem symm (h : Enclosed r r' i c c') : Enclosed r' r i c' c := by
  obtain ⟨w, hc, hc', hw⟩ := h
  exact ⟨w, hc', hc, hw.reclose r'⟩

theorem skips (h : Enclosed r r' i c c') (hskip : grammar.answer true filler c = .ok [] n) :
    ∃ n', grammar.answer true filler c' = .ok [] n' ∧ Enclosed r r' i n n' := by
  obtain ⟨a, ha⟩ := Grammar.takes_of_answer hskip
  obtain ⟨hread, hgap⟩ := takes_filler.mp ha
  by_cases hne : a = []
  · subst hne
    obtain rfl := hread.eq_of_nil
    obtain ⟨w, hc, hc', hw⟩ := h
    refine ⟨c', answer_filler_firm ?_, w, hc, hc', hw⟩
    rw [hc']
    exact hw.firm (hc ▸ hgap.firm) r'
  · obtain ⟨w, hc, hc', hw⟩ := h
    have hsplit := hc.symm.trans hread.rest
    have hne' : w ≠ [] := by
      rintro rfl
      have hfirm : IsFirm (')' :: r) := .cons rfl (by decide)
      rw [List.nil_append] at hsplit
      rw [hsplit] at hfirm
      exact hgap.not_firm hne hfirm
    obtain ⟨p, hfirst, hrest⟩ := hw.exists_first hne' (Nat.le_refl _)
    rw [hsplit] at hfirst
    obtain rfl := hfirst.of_gap hne hgap
    obtain ⟨v, hv⟩ := hrest.exists_append
    rw [hv] at hrest hgap
    rw [hv, ← List.append_assoc] at hsplit
    obtain rfl := List.append_cancel_right hsplit
    have hgap' : IsGap a (v ++ ')' :: r') :=
      hgap.congr (hrest.firm hgap.firm r') (by cases v <;> rfl)
    have hnew : grammar.Takes filler c' a
        ⟨v ++ ')' :: r', c'.offset + Source.byteLength a⟩ :=
      takes_filler.mpr ⟨⟨by rw [hc', List.append_assoc], rfl⟩, hgap'⟩
    exact ⟨_, hnew.1, v, hv, rfl, hrest⟩

theorem reads_text (h : Enclosed r r' i c c') {chars : List Char}
    (hn : (Expr.text chars : Expr Rule).nests i = some j) (hread : c.Reads chars d) :
    ∃ d', c'.Reads chars d' ∧ Enclosed r r' j d d' := by
  obtain ⟨w, hc, hc', hw⟩ := h
  obtain ⟨v, rfl, hd, hv⟩ := hw.after_text hn (hc.symm.trans hread.rest)
  rw [List.append_assoc] at hc'
  exact ⟨⟨v ++ ')' :: r', c'.offset + Source.byteLength chars⟩, ⟨hc', rfl⟩, v, hd, rfl, hv⟩

theorem reads_token (h : Enclosed r r' i c c') (hfirm : IsFirm c.rest) {rule : Rule}
    (hr : rule.isToken = true) {s : Source} (hs : grammar.Takes (.rule rule) c s d) :
    ∃ d', grammar.Takes (.rule rule) c' s d' ∧ Enclosed r r' i d d' := by
  obtain ⟨w, hc, hc', hw⟩ := h
  obtain ⟨v, rfl, hd, hv⟩ := hw.after_token hc hfirm hr hs
  have hquiet : Quiet (')' :: r') := by
    rintro z ⟨⟩
    rfl
  have hs' := hquiet.spans_token hr hs hd c'.offset
  rw [← List.append_assoc, ← hc'] at hs'
  exact ⟨_, hs', v, hd, rfl, hv⟩

theorem agrees_of_ok {P : Pair Rule → Pair Rule → Prop} {E : Cursor → Cursor → Prop}
    {first second : Reply Rule} (hstuck : second ≠ .stuck)
    (h : ∀ ps d, first = .ok ps d → ∃ ps' d', second = .ok ps' d' ∧ List.Forall₂ P ps ps' ∧ E d d')
    (h' : ∀ ps' d', second = .ok ps' d' → first ≠ .fail) : first.Agrees P E second := by
  cases first with
  | stuck => trivial
  | fail =>
      cases second with
      | stuck => exact absurd rfl hstuck
      | fail => exact .fails
      | ok ps' d' => exact absurd rfl (h' ps' d' rfl)
  | ok ps d => exact h ps d rfl

theorem text_agrees (h : Enclosed r r' i c c') {chars : List Char}
    (hn : (Expr.text chars : Expr Rule).nests i = some j) :
    (grammar.answer false (.text chars) c).Agrees (fun _ _ => True) (Enclosed r r' j)
      (grammar.answer false (.text chars) c') := by
  refine agrees_of_ok ?_ (fun ps d hok => ?_) fun ps' d' hok hfail => ?_
  · rw [Grammar.answer_text]
    cases c'.text? chars <;> exact nofun
  · obtain ⟨rfl, hread⟩ := Grammar.answer_text_eq_ok_iff.mp hok
    obtain ⟨d', hread', hd⟩ := h.reads_text hn hread
    exact ⟨[], d', Grammar.answer_text_eq_ok_iff.mpr ⟨rfl, hread'⟩, .nil, hd⟩
  · obtain ⟨d, hread, -⟩ := h.symm.reads_text hn (Grammar.answer_text_eq_ok_iff.mp hok).2
    exact nomatch hfail.symm.trans (Grammar.answer_text_eq_ok_iff.mpr ⟨rfl, hread⟩)

theorem token_agrees (h : Enclosed r r' i c c') (hfirm : IsFirm c.rest) (hfirm' : IsFirm c'.rest)
    {rule : Rule} (hr : rule.isToken = true) :
    (grammar.answer false (.rule rule) c).Agrees (fun _ _ => True) (Enclosed r r' i)
      (grammar.answer false (.rule rule) c') := by
  refine agrees_of_ok (answer_rule_ne_stuck rule c') (fun ps d hok => ?_) fun ps' d' hok hfail => ?_
  · obtain ⟨⟨s, hs⟩, rfl⟩ := (answer_token_iff hr).mp hok
    obtain ⟨d', hs', hd⟩ := h.reads_token hfirm hr hs
    exact ⟨_, d', (answer_token_iff hr).mpr ⟨⟨s, hs'⟩, rfl⟩, .cons trivial .nil, hd⟩
  · obtain ⟨⟨s, hs⟩, -⟩ := (answer_token_iff hr).mp hok
    obtain ⟨d, hs', -⟩ := h.symm.reads_token hfirm' hr hs
    exact nomatch hfail.symm.trans ((answer_token_iff hr).mpr ⟨⟨s, hs'⟩, rfl⟩)

theorem skip_agrees (fuel : Nat) (h : Enclosed r r' i c c') :
    (grammar.skip (grammar.rounds fuel) false c).Agrees (fun _ _ => True)
      (fun d d' => IsFirm d.rest ∧ IsFirm d'.rest ∧ Enclosed r r' i d d')
      (grammar.skip grammar.answer false c') := by
  obtain ⟨n, hn⟩ := exists_skip c
  obtain ⟨n', hn', hinside⟩ := h.skips hn
  have hn₁ : grammar.answer true grammar.filler c = .ok [] n := hn
  have hn₁' : grammar.answer true grammar.filler c' = .ok [] n' := hn'
  refine Reply.Agrees.of_refines ?_ (grammar.rounds_refines_answer fuel true grammar.filler c)
  rw [hn₁, Grammar.skip_loose, hn₁']
  exact .matches_ .nil ⟨(Reaches.of_filler hn).2, (Reaches.of_filler hn').2, hinside⟩

/-- Inside the brackets every expression that nests is matched alike. -/
theorem agrees_rounds (fuel : Nat) {e : Expr Rule} (hn : e.nests i = some j)
    (h : Enclosed r r' i c c')
    (hfirm : (∀ a, e ≠ .more a) → IsFirm c.rest ∧ IsFirm c'.rest) :
    (grammar.rounds fuel false e c).Agrees (fun _ _ => True) (Enclosed r r' j)
      (grammar.answer false e c') := by
  induction fuel generalizing e i j c c' with
  | zero => trivial
  | succ fuel ih =>
      -- Only a further turn is tried in front of filler; everything else begins behind it.
      have hleaf (hagrees : (grammar.answer false e c).Agrees (fun _ _ => True) (Enclosed r r' j)
          (grammar.answer false e c')) :
          (grammar.rounds (fuel + 1) false e c).Agrees (fun _ _ => True) (Enclosed r r' j)
            (grammar.answer false e c') :=
        hagrees.of_refines (grammar.rounds_refines_answer _ false e c)
      have hpart {a : Expr Rule} {k : Nat} (ha : a.nests i = some k)
          (hne : ∀ a, e ≠ .more a) := ih (e := a) ha h fun _ => hfirm hne
      have hmore {a : Expr Rule} {i : Nat} {c c' : Cursor} (ha : a.nests i = some i)
          (h : Enclosed r r' i c c') :=
        ih (e := .more a) (if_pos ha) h fun hne => absurd rfl (hne a)
      cases e with
      | text chars => exact hleaf (h.text_agrees hn)
      | char set => exact nomatch hn
      | start => exact nomatch hn
      | finish =>
          cases hn
          obtain ⟨w, hc, hc', -⟩ := h
          apply hleaf
          rw [Grammar.answer_finish, Grammar.answer_finish, hc, hc', if_neg (by simp),
            if_neg (by simp)]
          exact .fails
      | rule rule =>
          obtain ⟨⟨hfile, hr⟩, ⟨⟩⟩ := Option.ite_none_right_eq_some.mp hn
          obtain ⟨hfirm, hfirm'⟩ := hfirm nofun
          rcases Bool.or_eq_true_iff.mp hr with hr | hr
          · exact hleaf (h.token_agrees hfirm hfirm' hr)
          · rw [Bool.not_eq_true'] at hr
            have hloose : (grammar.production rule).tight = false := Rule.loose_of_isLexical hr
            have hbody := Expr.nests_add (nests_body rule rule.mem_all hr hfile) i
            rw [Nat.zero_add] at hbody
            rw [Grammar.answer_rule_loose, Grammar.rounds_rule_loose, hloose]
            exact (hpart hbody nofun).close fun _ _ _ _ _ _ _ => trivial
      | seq a b =>
          obtain ⟨k, ha, hb⟩ := Option.bind_eq_some_iff.mp hn
          rw [Grammar.answer_eq_round, Grammar.rounds_succ]
          refine (hpart ha nofun).resume (fun ps ps' d d' hps hd => ?_) .fails
          refine (hd.skip_agrees fuel).resume (fun _ _ n n' _ hn => ?_) .fails
          exact (ih hb hn.2.2 fun _ => ⟨hn.1, hn.2.1⟩).prepend hps
      | alt a b =>
          obtain ⟨hsame, ha⟩ := Option.ite_none_right_eq_some.mp hn
          rw [Grammar.answer_eq_round, Grammar.rounds_succ]
          exact (hpart ha nofun).resume (fun ps ps' d d' hps hd => .matches_ hps hd)
            (hpart (hsame.symm.trans ha) nofun)
      | opt a =>
          obtain ⟨ha, ⟨⟩⟩ := Option.ite_none_right_eq_some.mp hn
          rw [Grammar.answer_eq_round, Grammar.rounds_succ]
          exact (hpart ha nofun).resume (fun ps ps' d d' hps hd => .matches_ hps hd)
            (.matches_ .nil h)
      | star a =>
          obtain ⟨ha, ⟨⟩⟩ := Option.ite_none_right_eq_some.mp hn
          rw [Grammar.answer_eq_round, Grammar.rounds_succ]
          exact (hpart ha nofun).resume (fun ps ps' d d' hps hd => (hmore ha hd).prepend hps)
            (.matches_ .nil h)
      | more a =>
          obtain ⟨ha, ⟨⟩⟩ := Option.ite_none_right_eq_some.mp hn
          rw [Grammar.answer_eq_round, Grammar.rounds_succ]
          refine (h.skip_agrees fuel).resume (fun _ _ n n' _ hn => ?_) (.matches_ .nil h)
          refine (ih ha hn.2.2 fun _ => ⟨hn.1, hn.2.1⟩).resume (fun ps ps' d d' hps hd => ?_)
            (.matches_ .nil h)
          exact (hmore ha hd).prepend hps
      | neg a =>
          obtain ⟨k, ha, ⟨⟩⟩ := Option.map_eq_some_iff.mp hn
          rw [Grammar.answer_eq_round, Grammar.rounds_succ]
          exact (hpart ha nofun).resume (fun _ _ _ _ _ _ => .fails) (.matches_ .nil h)

theorem exists_ok (h : Enclosed r r' i c c') (hfirm : IsFirm c.rest) (hfirm' : IsFirm c'.rest)
    {e : Expr Rule} (hn : e.nests i = some j) {ps : List (Pair Rule)}
    (hok : grammar.answer false e c = .ok ps d) :
    ∃ ps' d', grammar.answer false e c' = .ok ps' d' ∧ Enclosed r r' j d d' := by
  obtain ⟨fuel, hfuel⟩ := grammar.settles_rounds false e c
  have hagrees := agrees_rounds fuel hn h fun _ => ⟨hfirm, hfirm'⟩
  obtain ⟨ps', d', hok', -, hd⟩ := hagrees.exists_ok ((hfuel fuel (Nat.le_refl fuel)).trans hok)
  exact ⟨ps', d', hok', hd⟩

end Enclosed

end XiFront

import XiFront.Proofs.Grammar.Nesting
import XiFront.Proofs.Grammar.Passage

namespace XiFront

open Peg

/-- Nothing that may prolong a type comes next. -/
def EndsType (c : Cursor) : Prop :=
  ∀ s ∈ Rule.typeTrials, FailsAt s c

theorem EndsType.of_sign {z : Char} (hz : z ∈ [',', ')', '>']) {c d : Cursor}
    (h : c.Reads [z] d) : EndsType c := by
  have hsub : ∀ z ∈ [',', ')', '>'], ∀ s ∈ Rule.typeTrials, s ∈ Rule.avoiding z := by
    decide
  exact fun s hs => fails_of_sign (hsub z hz s hs) h

theorem matches_ty_iff {c e : Cursor} : Matches (.rule .ty) c e ↔
    ∃ m n, Matches (.rule .nonArrayType) c m ∧ grammar.answer true filler m = .ok [] n ∧
      Matches (.opt (.rule .arraySuffix)) n e := by
  rw [Matches.rule_iff rfl]
  exact Matches.seq_iff

theorem matches_nonArrayType_iff {c d : Cursor} :
    Matches (.rule .nonArrayType) c d ↔ Matches (.rule .basicType) c d ∨
      FailsAt (.rule .basicType) c ∧ (Matches (.rule (.kw .upperSelf)) c d ∨
        FailsAt (.rule (.kw .upperSelf)) c ∧ (Matches (.rule .path) c d ∨
          FailsAt (.rule .path) c ∧ Matches (.rule .tupleType) c d)) := by
  rw [Matches.rule_iff rfl, ← Matches.alt_iff, ← Matches.alt_iff, ← Matches.alt_iff]
  rfl

theorem basicType_fails_of {c c' : Cursor}
    (h : ∀ k, FailsAt (.rule (.kw k)) c → FailsAt (.rule (.kw k)) c')
    (hfail : FailsAt (.rule .basicType) c) : FailsAt (.rule .basicType) c' := by
  rw [fails_rule_iff rfl] at hfail ⊢
  refine answer_oneOf_eq_fail_iff.mpr fun e he => ?_
  obtain ⟨k, rfl⟩ : ∃ k, e = .rule (.kw k) := by
    rcases List.mem_cons.mp he with rfl | he
    · exact ⟨_, rfl⟩
    · obtain ⟨s, -, rfl⟩ := List.mem_map.mp he
      exact ⟨_, rfl⟩
  exact h k (answer_oneOf_eq_fail_iff.mp hfail _ he)

/-- Types with commas between them. -/
inductive Types : Cursor → Cursor → Prop
  | one {c d : Cursor} (h : Matches (.rule .ty) c d) : Types c d
  | cons {c d n m k e : Cursor} (h : Matches (.rule .ty) c d)
      (hskip : grammar.answer true filler d = .ok [] n) (hcomma : n.Reads [','] m)
      (hnext : grammar.answer true filler m = .ok [] k) (hrest : Types k e) : Types c e

namespace Types

variable {b c d e n m k : Cursor}

theorem reads (h : Types c d) : ∃ s, c.Reads s d := by
  induction h with
  | one h => exact h.reads
  | cons h hskip hcomma hnext _ ih =>
      obtain ⟨s, hs⟩ := h.reads
      obtain ⟨t, ht⟩ := Grammar.answer_reads hskip
      obtain ⟨u, hu⟩ := Grammar.answer_reads hnext
      obtain ⟨v, hv⟩ := ih
      exact ⟨_, hs.trans (ht.trans (hcomma.trans (hu.trans hv)))⟩

theorem pieces (h : Types c d) (hfirm : IsFirm c.rest) (i : Nat) :
    Pieces .brackets (c.rest, i) (d.rest, i) := by
  have hty {c d : Cursor} (h : Matches (.rule .ty) c d) (hfirm : IsFirm c.rest) :
      Pieces .brackets (c.rest, i) (d.rest, i) := by
    obtain ⟨ps, hok⟩ := h
    exact .of_derives (.of_rule hok) rfl (if_pos (by decide)) hfirm
  induction h with
  | one h => exact hty h hfirm
  | @cons c d n m k e h hskip hcomma hnext _ ih =>
      have hsign : Pieces .brackets (n.rest, i) (m.rest, i) := by
        rw [hcomma.rest]
        exact .step (.sign rfl rfl)
      exact (hty h hfirm).trans ((Pieces.of_filler hskip i).trans (hsign.trans
        ((Pieces.of_filler hnext i).trans (ih (Reaches.of_filler hnext).2))))

theorem commas (h : Types c d) (hfirm : IsFirm c.rest) (i : Bool) :
    ∃ j, Pieces .commas (c.rest, i) (d.rest, j) := by
  have hty {c d : Cursor} (h : Matches (.rule .ty) c d) (hfirm : IsFirm c.rest) (i : Bool) :
      ∃ j, Pieces .commas (c.rest, i) (d.rest, j) := by
    obtain ⟨ps, hok⟩ := h
    obtain ⟨j, hj, -⟩ := Pieces.commas_of_derives (.of_rule hok) rfl hfirm i
    exact ⟨j, hj⟩
  induction h generalizing i with
  | one h => exact hty h hfirm i
  | @cons c d n m k e h hskip hcomma hnext _ ih =>
      obtain ⟨j, hj⟩ := hty h hfirm i
      obtain ⟨j', hj'⟩ := ih (Reaches.of_filler hnext).2 true
      have hsign : Pieces .commas (n.rest, j) (m.rest, true) := by
        rw [hcomma.rest]
        exact .step (.sign rfl rfl)
      exact ⟨j', hj.trans ((Pieces.of_filler hskip j).trans (hsign.trans
        ((Pieces.of_filler hnext true).trans hj')))⟩

theorem append (h : Types c d) (hskip : grammar.answer true filler d = .ok [] n)
    (hcomma : n.Reads [','] m) (hnext : grammar.answer true filler m = .ok [] k)
    (h' : Types k e) : Types c e := by
  induction h with
  | one h => exact .cons h hskip hcomma hnext h'
  | cons h hskip₁ hcomma₁ hnext₁ _ ih => exact .cons h hskip₁ hcomma₁ hnext₁ (ih hskip)

def further : Expr Rule :=
  .seq (Rule.symbol ',') (.rule .ty)

theorem star_further (h : Types c e) (hskip : grammar.answer true filler e = .ok [] n)
    (hn : FailsAt (Rule.symbol ',') n) :
    ∃ d m e', Matches (.rule .ty) c d ∧ grammar.answer true filler d = .ok [] m ∧
      Matches (.star further) m e' ∧ grammar.answer true filler e' = .ok [] n := by
  induction h with
  | one h => exact ⟨_, n, n, h, hskip, .star_of_fails (fails_seq_first hn), firm_of_filler hskip⟩
  | cons h hskip₁ hcomma hnext _ ih =>
      obtain ⟨d', m', e', hty, hskip', hstar, hend⟩ := ih hskip
      have hfurther := Matches.seq_iff.mpr ⟨_, _, Matches.text_iff.mpr hcomma, hnext, hty⟩
      obtain ⟨e'', hstar', hend'⟩ := Matches.star_turn hfurther hskip' hstar
      exact ⟨_, _, e'', h, hskip₁, hstar', hend' hend⟩

theorem of_star_further (hstar : Matches (.star further) m e) (h : Matches (.rule .ty) c d)
    (hskip : grammar.answer true filler d = .ok [] m) :
    ∃ e', Types c e' ∧
      ∀ {n}, grammar.answer true filler e = .ok [] n →
        grammar.answer true filler e' = .ok [] n := by
  obtain ⟨ps, hstar⟩ := hstar
  have hderives := Derives.of_answer (by decide) hstar
  clear hstar
  generalize hs : Expr.star further = s at hderives
  induction hderives generalizing c d with
  | done hfail =>
      refine ⟨d, .one h, fun hn => ?_⟩
      obtain ⟨-, rfl⟩ := Reply.ok.inj (hn.symm.trans (firm_of_filler hskip))
      exact hskip
  | last ha _ _ _ =>
      cases hs
      obtain ⟨m', k, hcomma, hnext, hty⟩ := Matches.seq_iff.mp ⟨_, ha.answer⟩
      exact ⟨_, .cons h hskip (Matches.text_iff.mp hcomma) hnext (.one hty), id⟩
  | turn ha hskip' hrest _ _ ih =>
      cases hs
      obtain ⟨m', k, hcomma, hnext, hty⟩ := Matches.seq_iff.mp ⟨_, ha.answer⟩
      obtain ⟨e', htypes, hend⟩ := ih hty hskip' rfl
      exact ⟨e', .cons h hskip (Matches.text_iff.mp hcomma) hnext htypes, hend⟩
  | _ => exact nomatch hs

end Types

theorem matches_generics_iff {c e : Cursor} :
    Matches (.rule .generics) c e ↔
      ∃ a b d n, c.Reads ['<'] a ∧ grammar.answer true filler a = .ok [] b ∧ Types b d ∧
        grammar.answer true filler d = .ok [] n ∧ n.Reads ['>'] e := by
  have hbody : (Rule.production .generics).body =
      .seq (Rule.symbol '<') (.seq (.rule .ty) (.seq
        (.star Types.further) (Rule.symbol '>'))) := rfl
  rw [Matches.rule_iff rfl, hbody]
  constructor
  · intro h
    obtain ⟨a, b, hopen, hskip, h⟩ := Matches.seq_iff.mp h
    obtain ⟨d, m, hty, hskip₁, h⟩ := Matches.seq_iff.mp h
    obtain ⟨e', n, hstar, hskip₂, hclose⟩ := Matches.seq_iff.mp h
    obtain ⟨d', htypes, hend⟩ := Types.of_star_further hstar hty hskip₁
    exact ⟨a, b, d', n, Matches.text_iff.mp hopen, hskip, htypes, hend hskip₂,
      Matches.text_iff.mp hclose⟩
  · rintro ⟨a, b, d, n, hopen, hskip, htypes, hend, hclose⟩
    obtain ⟨d', m, e', hty, hskip₁, hstar, hskip₂⟩ :=
      htypes.star_further hend (fails_symbol (by decide) hclose)
    exact Matches.seq_iff.mpr ⟨a, b, Matches.text_iff.mpr hopen, hskip, Matches.seq_iff.mpr
      ⟨d', m, hty, hskip₁, Matches.seq_iff.mpr ⟨e', n, hstar, hskip₂, Matches.text_iff.mpr hclose⟩⟩⟩

namespace Types

variable {b c d e n m k : Cursor}

def member : Expr Rule :=
  .seq (.rule .ty) (Rule.symbol ',')

theorem star_member (h : Types c e) (hskip : grammar.answer true filler e = .ok [] n)
    (hn : FailsAt (Rule.symbol ',') n) (hc : grammar.answer true filler c = .ok [] c) :
    ∃ d m e', Matches (.star member) c d ∧ grammar.answer true filler d = .ok [] m ∧
      Matches (.opt (.rule .ty)) m e' ∧ grammar.answer true filler e' = .ok [] n := by
  induction h with
  | one h =>
      exact ⟨_, _, _, .star_of_fails (fails_seq_second h hskip hn), hc,
        Matches.opt_iff.mpr (.inl h), hskip⟩
  | cons h hskip₁ hcomma hnext _ ih =>
      obtain ⟨d', m', e', hstar, hskip', hopt, hend⟩ := ih hskip (firm_of_filler hnext)
      have hmember := Matches.seq_iff.mpr ⟨_, _, h, hskip₁, Matches.text_iff.mpr hcomma⟩
      obtain ⟨d'', hstar', hend'⟩ := Matches.star_turn hmember hnext hstar
      exact ⟨d'', m', e', hstar', hend' hskip', hopt, hend⟩

theorem star_member_comma (h : Types c e) (hskip : grammar.answer true filler e = .ok [] n)
    (hcomma : n.Reads [','] m) (hnext : grammar.answer true filler m = .ok [] k)
    (hk : FailsAt (.rule .ty) k) :
    ∃ d, Matches (.star member) c d ∧ grammar.answer true filler d = .ok [] k := by
  induction h with
  | one h =>
      have hmember := Matches.seq_iff.mpr ⟨_, _, h, hskip, Matches.text_iff.mpr hcomma⟩
      obtain ⟨d, hstar, hend⟩ :=
        Matches.star_turn hmember hnext (.star_of_fails (fails_seq_first hk))
      exact ⟨d, hstar, hend (firm_of_filler hnext)⟩
  | cons h hskip₁ hcomma₁ hnext₁ _ ih =>
      obtain ⟨d', hstar, hend⟩ := ih hskip
      have hmember := Matches.seq_iff.mpr ⟨_, _, h, hskip₁, Matches.text_iff.mpr hcomma₁⟩
      obtain ⟨d, hstar', hend'⟩ := Matches.star_turn hmember hnext₁ hstar
      exact ⟨d, hstar', hend' hend⟩

theorem of_star_member (hstar : Matches (.star member) c d)
    (hskip : grammar.answer true filler d = .ok [] k)
    (hc : grammar.answer true filler c = .ok [] c) :
    k = c ∨ ∃ e n m, Types c e ∧ grammar.answer true filler e = .ok [] n ∧ n.Reads [','] m ∧
      grammar.answer true filler m = .ok [] k := by
  obtain ⟨ps, hstar⟩ := hstar
  have hderives := Derives.of_answer (by decide) hstar
  clear hstar
  generalize hs : Expr.star member = s at hderives
  induction hderives with
  | done hfail => exact .inl (Reply.ok.inj (hskip.symm.trans hc)).2
  | last ha _ _ _ =>
      cases hs
      obtain ⟨e, n, hty, hnext, hcomma⟩ := Matches.seq_iff.mp ⟨_, ha.answer⟩
      exact .inr ⟨e, n, _, .one hty, hnext, Matches.text_iff.mp hcomma, hskip⟩
  | turn ha hskip' _ _ _ ih =>
      cases hs
      obtain ⟨e, n, hty, hnext, hcomma⟩ := Matches.seq_iff.mp ⟨_, ha.answer⟩
      rcases ih hskip (firm_of_filler hskip') rfl with rfl | ⟨e', n', m', htypes, hrest⟩
      · exact .inr ⟨e, n, _, .one hty, hnext, Matches.text_iff.mp hcomma, hskip'⟩
      · exact .inr ⟨e', n', m', .cons hty hnext (Matches.text_iff.mp hcomma) hskip' htypes, hrest⟩
  | _ => exact nomatch hs

end Types

/-- A tuple type is empty or has types with commas between them, perhaps with a comma at the end. -/
theorem matches_tupleType_iff {c e : Cursor} :
    Matches (.rule .tupleType) c e ↔
      ∃ a b, c.Reads ['('] a ∧ grammar.answer true filler a = .ok [] b ∧
        (b.Reads [')'] e ∨ ∃ d n, Types b d ∧ grammar.answer true filler d = .ok [] n ∧
          (n.Reads [')'] e ∨ ∃ m k, n.Reads [','] m ∧ grammar.answer true filler m = .ok [] k ∧
            k.Reads [')'] e)) := by
  have hbody : (Rule.production .tupleType).body =
      .seq (Rule.symbol '(') (.seq (.star Types.member)
        (.seq (.opt (.rule .ty)) (Rule.symbol ')'))) := rfl
  have hfails {k e : Cursor} (h : k.Reads [')'] e) : FailsAt (.rule .ty) k :=
    fails_of_sign List.mem_cons_self h
  rw [Matches.rule_iff rfl, hbody]
  constructor
  · intro h
    obtain ⟨a, b, hopen, hskip, h⟩ := Matches.seq_iff.mp h
    obtain ⟨d, m, hstar, hskip₁, h⟩ := Matches.seq_iff.mp h
    obtain ⟨e', n, hopt, hskip₂, hclose⟩ := Matches.seq_iff.mp h
    have hclose := Matches.text_iff.mp hclose
    have hmembers := Types.of_star_member hstar hskip₁ (firm_of_filler hskip)
    refine ⟨a, b, Matches.text_iff.mp hopen, hskip, ?_⟩
    rcases Matches.opt_iff.mp hopt with hty | ⟨-, rfl⟩
    · right
      rcases hmembers with rfl | ⟨d', n', m', htypes, hskip', hcomma, hnext⟩
      · exact ⟨e', n, .one hty, hskip₂, .inl hclose⟩
      · exact ⟨e', n, htypes.append hskip' hcomma hnext (.one hty), hskip₂, .inl hclose⟩
    · obtain ⟨-, rfl⟩ := Reply.ok.inj (hskip₂.symm.trans (firm_of_filler hskip₁))
      rcases hmembers with rfl | ⟨d', n', m', htypes, hskip', hcomma, hnext⟩
      · exact .inl hclose
      · exact .inr ⟨d', n', htypes, hskip', .inr ⟨m', n, hcomma, hnext, hclose⟩⟩
  · rintro ⟨a, b, hopen, hskip, h⟩
    have hb := firm_of_filler hskip
    refine Matches.seq_iff.mpr ⟨a, b, Matches.text_iff.mpr hopen, hskip, ?_⟩
    rcases h with hclose | ⟨d, n, htypes, hend, hclose | ⟨m, k, hcomma, hnext, hclose⟩⟩
    · have hty := hfails hclose
      exact Matches.seq_iff.mpr ⟨b, b, .star_of_fails (fails_seq_first hty), hb,
        Matches.seq_iff.mpr ⟨b, b, Matches.opt_iff.mpr (.inr ⟨hty, rfl⟩), hb,
          Matches.text_iff.mpr hclose⟩⟩
    · obtain ⟨d', m', e', hstar, hskip', hopt, hend'⟩ :=
        htypes.star_member hend (fails_symbol (by decide) hclose) hb
      exact Matches.seq_iff.mpr ⟨d', m', hstar, hskip',
        Matches.seq_iff.mpr ⟨e', n, hopt, hend', Matches.text_iff.mpr hclose⟩⟩
    · have hty := hfails hclose
      obtain ⟨d', hstar, hskip'⟩ := htypes.star_member_comma hend hcomma hnext hty
      exact Matches.seq_iff.mpr ⟨d', k, hstar, hskip',
        Matches.seq_iff.mpr ⟨k, k, Matches.opt_iff.mpr (.inr ⟨hty, rfl⟩), firm_of_filler hnext,
          Matches.text_iff.mpr hclose⟩⟩

theorem pieces_of_tupleType {c e : Cursor} (h : Matches (.rule .tupleType) c e) :
    ∃ a n : Cursor, c.Reads ['('] a ∧ n.Reads [')'] e ∧
      Pieces .brackets (a.rest, 0) (n.rest, 0) := by
  obtain ⟨a, b, hopen, hskip, hrest⟩ := matches_tupleType_iff.mp h
  have hfirst := Pieces.of_filler (k := .brackets) hskip 0
  have hfirm := (Reaches.of_filler hskip).2
  rcases hrest with hclose | ⟨d, n, htypes, hend, hclose | ⟨m, k, hcomma, hnext, hclose⟩⟩
  · exact ⟨a, b, hopen, hclose, hfirst⟩
  · exact ⟨a, n, hopen, hclose, hfirst.trans ((htypes.pieces hfirm 0).trans (.of_filler hend 0))⟩
  · have hsign : Pieces .brackets (n.rest, 0) (m.rest, 0) := by
      rw [hcomma.rest]
      exact .step (.sign rfl rfl)
    exact ⟨a, k, hopen, hclose, hfirst.trans ((htypes.pieces hfirm 0).trans
      ((Pieces.of_filler hend 0).trans (hsign.trans (.of_filler hnext 0))))⟩

theorem tupleType_of_paren {c a m : Cursor} (h : Matches (.rule .nonArrayType) c m)
    (hopen : c.Reads ['('] a) : Matches (.rule .tupleType) c m := by
  have hfails {r : Rule} (hr : .rule r ∈ Rule.avoiding '(') : FailsAt (.rule r) c :=
    fails_of_sign hr hopen
  rcases matches_nonArrayType_iff.mp h with h | ⟨-, h | ⟨-, h | ⟨-, h⟩⟩⟩
  · exact absurd (hfails (by decide)) h.not_fails
  · exact absurd (hfails (by decide)) h.not_fails
  · exact absurd (hfails (by decide)) h.not_fails
  · exact h

end XiFront

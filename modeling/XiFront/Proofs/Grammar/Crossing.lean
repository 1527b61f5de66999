import XiFront.Proofs.Grammar.Choices
import XiFront.Proofs.Grammar.Enclosure
import XiFront.Proofs.Grammar.Site
import XiFront.Proofs.Grammar.TypeFork
import XiFront.Proofs.Parse.Concatenation

namespace XiFront

open Peg

theorem fails_of_rest {r : Rule} (hr : (!r.isLexical && decide (r ≠ .file)) = true) {c c' : Cursor}
    (h : c.rest = c'.rest) (hfail : FailsAt (.rule r) c) : FailsAt (.rule r) c' := by
  have hagrees (c : Cursor) := (further c.offset).agree (e := .rule r)
    (Bool.or_eq_true_iff.mpr (.inr hr))
    ⟨c.rest, 0⟩ c ⟨rfl, (Nat.zero_add _).symm⟩
  have hbase : grammar.answer false (.rule r) ⟨c.rest, 0⟩ = .fail := by
    apply Grammar.eq_fail_of_ne_ok (answer_rule_ne_stuck r _)
    intro ps d hok
    obtain ⟨_, _, hok', -⟩ := (hagrees c).exists_ok hok
    exact nomatch hfail.symm.trans hok'
  rw [h] at hbase
  exact (hagrees c').eq_fail hbase

namespace Rule

/-- What fails on the second text wherever it fails on the first. -/
def retold : List (Expr Rule) :=
  [.rule (kw .upperSelf), .rule basicType, .rule ident, .rule floatLiteral] ++ typeTrials

end Rule

namespace Fork

variable {f : Fork} {c c' d d' n n' e e' : Cursor} {s b : Expr Rule} {qs qs' : List (Pair Rule)}

theorem Begins.name_fails (h : f.Begins c c') {e : Expr Rule} (he : e.isNamePart = true)
    (hfail : FailsAt e c) : FailsAt e c' := by
  refine fails_of_not_matches (written_of_isNamePart he) fun d' ⟨ps', hok⟩ => ?_
  obtain ⟨ps, d, hok', -⟩ := h.name_back he hok
  exact nomatch hfail.symm.trans hok'

theorem Begins.basicType_fails (h : f.Begins c c') (hfail : FailsAt (.rule .basicType) c) :
    FailsAt (.rule .basicType) c' :=
  basicType_fails_of (fun k => h.name_fails (decide_eq_true (by simp [Rule.words, k.mem_all])))
    hfail

theorem Begins.float_fails (h : f.Begins c c') (hfail : FailsAt (.rule .floatLiteral) c) :
    FailsAt (.rule .floatLiteral) c' := by
  rw [fails_tight_iff rfl] at hfail ⊢
  rw [show c = ⟨c.rest, c.offset⟩ from rfl, answer_floatLiteral_eq_fail_iff] at hfail
  rw [show c' = ⟨c'.rest, c'.offset⟩ from rfl, answer_floatLiteral_eq_fail_iff]
  obtain ⟨-, -, ⟨w, -, -, -, hc, hc'⟩ | ⟨-, hc'⟩ | ⟨hrest, -⟩⟩ := h
  · rw [hc] at hfail
    rw [hc']
    by_contra hopens
    rw [Bool.not_eq_false] at hopens
    exact nomatch hfail.symm.trans (f.quiet.opensFloat hopens)
  · obtain ⟨z, hz, hparen⟩ := f.paren
    rw [hc', opensFloat, hz]
    rcases hparen with rfl | rfl <;> rfl
  · rw [← hrest]
    exact hfail

theorem Begins.furtherSegment_fails (h : f.Begins c c') (hfail : FailsAt Rule.furtherSegment c) :
    FailsAt Rule.furtherSegment c' := by
  have hsegment {n : Cursor} : FailsAt (.rule .segment) n ↔ FailsAt
      (.oneOf (.rule .ident) [.rule .basicType, .rule (.kw .upperSelf)]) n := by
    rw [fails_rule_iff rfl]
    exact fails_seq_iff not_fails_opt
  refine fails_of_not_matches rfl fun d' hmatch => ?_
  obtain ⟨a', n', ⟨_, hsign⟩, hskip, hname⟩ := Matches.seq_iff.mp hmatch
  obtain ⟨ps, a, hsign', n, n₁', hn, hn', hbegins⟩ := h.name_back (by decide) hsign
  obtain ⟨-, rfl⟩ := Reply.ok.inj (hskip.symm.trans hn')
  have hnone : FailsAt (.rule .segment) n := by
    refine fails_of_not_matches rfl fun e hname => ?_
    exact (Matches.seq_iff.mpr ⟨a, n, ⟨ps, hsign'⟩, hn, hname⟩).not_fails hfail
  refine hname.not_fails (hsegment.mpr ?_)
  have hall := hsegment.mp hnone
  rw [FailsAt, answer_oneOf_eq_fail_iff] at hall ⊢
  intro e he
  have hfail := hall e he
  simp only [List.mem_cons, List.not_mem_nil, or_false] at he
  rcases he with rfl | rfl | rfl
  · exact hbegins.name_fails (by decide) hfail
  · exact hbegins.basicType_fails hfail
  · exact hbegins.name_fails (by decide) hfail

theorem Doorway.retold_fails (hdoor : f.Doorway) (h : f.Begins c c') (hs : s ∈ Rule.retold)
    (hfail : FailsAt s c) : FailsAt s c' := by
  simp only [Rule.retold, Rule.typeTrials, List.cons_append, List.nil_append, List.mem_cons,
    List.not_mem_nil, or_false] at hs
  rcases hs with rfl | rfl | rfl | rfl | rfl | rfl | rfl
  · exact h.name_fails (by decide) hfail
  · exact h.basicType_fails hfail
  · exact h.name_fails (by decide) hfail
  · exact h.float_fails hfail
  · refine fails_of_not_matches rfl fun d' hsuffix => ?_
    obtain ⟨d, hd, -⟩ := h.arraySuffix_back hsuffix
    exact hd.not_fails hfail
  · exact h.furtherSegment_fails hfail
  · exact hdoor.generics_fail h hfail

theorem Begins.lead_eq (h : f.Begins c c') (hat : ¬f.At c c') :
    Lead.ofText? c'.rest = Lead.ofText? c.rest := by
  obtain ⟨-, -, ⟨w, hne, -, hw, hc, hc'⟩ | hat' | ⟨hrest, -⟩⟩ := h
  · have hold := takeWhile_parted hne (f.parted hw)
    have hnew := takeWhile_parted hne (f.quiet.parted w)
    rw [hc, hc']
    obtain ⟨z, w, rfl⟩ := List.exists_cons_of_ne_nil hne
    rw [List.cons_append] at hold hnew ⊢
    rw [List.cons_append, Lead.ofText?, Lead.ofText?, hold, hnew]
  · exact absurd hat' hat
  · rw [hrest]

theorem At.lead (h : f.At c c') : Lead.ofText? c'.rest ∈ [some (.sign '('), some (.sign ')')] := by
  obtain ⟨z, hz, hparen⟩ := f.paren
  obtain ⟨t, ht⟩ := List.head?_eq_some_iff.mp hz
  rw [h.2, ht]
  rcases hparen with rfl | rfl
  · rw [Lead.ofText?_sign (by decide)]
    decide
  · rw [Lead.ofText?_sign (by decide)]
    decide

theorem Begins.exists_blockLead (h : f.Begins c c')
    (hmatch : Matches (.rule .exprWithBlock) c' d') :
    ∃ l ∈ Rule.blockLeads, Lead.ofText? c.rest = some l := by
  have hparen : ∀ l ∈ Rule.blockLeads, some l ∉ [some (.sign '('), some (.sign ')')] := by
    decide
  obtain ⟨l, hl, htext⟩ := hmatch.exists_blockLead h.firm.2
  refine ⟨l, hl, ?_⟩
  rw [← htext, h.lead_eq]
  intro hat
  have hlead := hat.lead
  rw [htext] at hlead
  exact hparen l hl hlead

end Fork

namespace Rule

def blockEnd : Expr Rule :=
  .seq (.opt (.rule exprWithoutBlock)) (symbol '\x7d')

/-- What an operand may be that is no expression in parentheses. -/
def afterGroup : Expr Rule :=
  .oneOf (.rule exprWithBlock) [.rule newExpr, .rule ident, .rule typeExpr]

def isTypePart (r : Rule) : Bool :=
  decide (r ∈ [typeExpr, ty, nonArrayType, arraySuffix, tupleType, path, dot, segment, generics,
    basicType])

end Rule

theorem typeExpr_of_paren {c a e : Cursor} {qs : List (Pair Rule)}
    (h : Derives Rule.afterGroup c qs e) (hopen : c.Reads ['('] a) :
    Derives (.rule .typeExpr) c qs e := by
  have hfails {r : Rule} {c e : Cursor} {qs : List (Pair Rule)} (hopen : c.Reads ['('] a)
      (hr : .rule r ∈ Rule.avoiding '(') (h : Derives (.rule r) c qs e) : False :=
    Matches.not_fails ⟨qs, h.answer⟩ (fails_of_sign hr hopen)
  cases h with
  | first h => exact (hfails hopen (by decide) h).elim
  | second _ h =>
      cases h with
      | first h => exact (hfails hopen (by decide) h).elim
      | second _ h =>
          cases h with
          | first h => exact (hfails hopen (by decide) h).elim
          | second _ h => exact h

theorem ne_expr_of_typeExpr {c e : Cursor} {qs : List (Pair Rule)} {q : Pair Rule}
    (h : Derives (.rule .typeExpr) c qs e) (hq : q ∈ Pair.preorderAll qs) : q.rule ≠ .expr := by
  have hbuilt : ∀ r ∈ Rule.all, r.isTypePart = true →
      (Rule.production r).body.built Expr.isMark Rule.isTypePart = true := by
    decide +kernel
  intro hexpr
  rcases rule_of_derives (fun r => hbuilt r r.mem_all) h (by decide) hq with hr | hr
  all_goals rw [hexpr] at hr; exact nomatch hr

theorem matches_groupedExpr_iff {c e : Cursor} :
    Matches (.rule .groupedExpr) c e ↔
      ∃ a b d n, c.Reads ['('] a ∧ grammar.answer true filler a = .ok [] b ∧
        Matches (.rule .expr) b d ∧ grammar.answer true filler d = .ok [] n ∧ n.Reads [')'] e := by
  have hbody : (Rule.production .groupedExpr).body =
      .seq (Rule.symbol '(') (.seq (.rule .expr) (Rule.symbol ')')) := rfl
  rw [Matches.rule_iff rfl, hbody]
  constructor
  · intro h
    obtain ⟨a, b, hopen, hskip, h⟩ := Matches.seq_iff.mp h
    obtain ⟨d, n, hexpr, hend, hclose⟩ := Matches.seq_iff.mp h
    exact ⟨a, b, d, n, Matches.text_iff.mp hopen, hskip, hexpr, hend, Matches.text_iff.mp hclose⟩
  · rintro ⟨a, b, d, n, hopen, hskip, hexpr, hend, hclose⟩
    exact Matches.seq_iff.mpr ⟨a, b, Matches.text_iff.mpr hopen, hskip,
      Matches.seq_iff.mpr ⟨d, n, hexpr, hend, Matches.text_iff.mpr hclose⟩⟩

theorem Enclosed.grouped {r r' : List Char} {c c' a a' e' : Cursor} (h : Enclosed r r' 0 a a')
    (hopen : c.Reads ['('] a) (hopen' : c'.Reads ['('] a')
    (hgroup : Matches (.rule .groupedExpr) c' e') : ∃ e, Matches (.rule .groupedExpr) c e := by
  obtain ⟨a₁', b', d', n', hopen₁, hskip', ⟨ps', hexpr'⟩, hend', hclose'⟩ :=
    matches_groupedExpr_iff.mp hgroup
  obtain rfl := (Matches.text_iff.mpr hopen').unique (Matches.text_iff.mpr hopen₁)
  obtain ⟨b, hskip, hb⟩ := h.symm.skips hskip'
  have hnests : (Expr.rule Rule.expr).nests 0 = some 0 := if_pos (by decide)
  obtain ⟨ps, d, hexpr, hd⟩ := hb.exists_ok (Reaches.of_filler hskip').2 (Reaches.of_filler hskip).2
    hnests hexpr'
  obtain ⟨n, hend, w, hn', hn, -⟩ := hd.skips hend'
  rw [hclose'.rest] at hn'
  obtain ⟨t, ht⟩ : ∃ t, n.rest = ')' :: t := by
    cases w with
    | nil => exact ⟨r, hn⟩
    | cons z w =>
        obtain ⟨rfl, -⟩ := List.cons.inj hn'
        exact ⟨_, hn⟩
  have hclose : n.Reads [')'] ⟨t, n.offset + Source.byteLength [')']⟩ := ⟨ht, rfl⟩
  exact ⟨_, matches_groupedExpr_iff.mpr ⟨a, b, d, n, hopen, hskip, ⟨ps, hexpr⟩, hend, hclose⟩⟩

namespace Fork

variable {f : Fork} {c c' d d' n n' e e' : Cursor} {qs qs' : List (Pair Rule)}

theorem exists_before {s w r : List Char} {z : Char} {i j : Nat} (hw : f.pieces w)
    (hrest : w ++ f.old = s ++ z :: r) (hz : isPlain z = true)
    (hpath : Pieces .brackets (w ++ f.old, i) (z :: r, j))
    (hle : Source.byteLength f.next ≤ Source.byteLength r) :
    ∃ v, w = s ++ z :: v ∧ r = v ++ f.old := by
  have hpos := z.utf8Size_pos
  have hshort : ¬z :: r <:+ f.next := by
    rintro ⟨t, ht⟩
    have hlength := congrArg Source.byteLength ht
    rw [Source.byteLength_append, Source.byteLength_cons] at hlength
    omega
  have hbefore : ¬z :: r <:+ f.old := by
    intro hsuffix
    obtain ⟨k, hk⟩ := hpath.of_cut (f.cut hw) hsuffix.length_le
    by_cases hgap : f.gap = []
    · rw [show f.old = f.next by rw [old, hgap, List.nil_append]] at hk
      exact hshort hk.suffix
    · rcases Relation.ReflTransGen.cases_head hk with heq | ⟨p, hstep, htail⟩
      · obtain ⟨y, t, hy⟩ := List.exists_cons_of_ne_nil hgap
        have hopens := f.skipped.opensFiller y (by rw [hy]; rfl)
        have hhead := (Prod.mk.inj heq).1
        rw [old, hy] at hhead
        obtain rfl := (List.cons.inj hhead).1
        rw [isPlain_of_opensFiller hopens] at hz
        exact nomatch hz
      · obtain rfl := hstep.of_gap hgap f.skipped
        exact hshort (Pieces.suffix htail)
  rcases List.append_eq_append_iff.mp hrest with ⟨u, -, hu⟩ | ⟨u, rfl, hu⟩
  · exact absurd ⟨u, hu.symm⟩ hbefore
  · cases u with
    | nil => exact absurd (hu ▸ List.suffix_rfl) hbefore
    | cons y u =>
        obtain ⟨rfl, rfl⟩ := List.cons.inj hu
        exact ⟨u, rfl, rfl⟩

theorem Beyond.of_reads {c d : Cursor} {s : Source} (h : f.Beyond c) (hread : c.Reads s d) :
    f.Beyond d := by
  have hlength := congrArg Source.byteLength hread.rest
  rw [Source.byteLength_append] at hlength
  rw [Beyond] at h ⊢
  omega

/-- The match does not go over the place where the texts part, or does so with an expression that
begins there, if there may be one. -/
def Kept (f : Fork) (entry : Prop) (c : Cursor) (ps : List (Pair Rule)) (d : Cursor) : Prop :=
  c.In f.source ∧ (f.Beyond c ∨ ¬f.Beyond d ∨ entry ∧ ∃ q ∈ Pair.preorderAll ps, q.rule = .expr ∧
    q.start < q.stop ∧ q.start + Source.byteLength f.next = Source.byteLength f.source)

theorem Kept.not_at {entry : Prop} {b : Expr Rule} (hsound : f.Kept entry n qs e)
    (hlate : b.late (Rule.late 20) = true) (hb : Derives b n qs e) (hne : e ≠ n) : ¬f.At n n' := by
  rintro hat
  obtain ⟨hin, hbeyond | hbefore | ⟨-, q, hq, hexpr, -, hstart⟩⟩ := hsound
  · exact hat.not_beyond hbeyond
  · obtain ⟨s, hs⟩ := hb.reads
    have hlength := congrArg Source.byteLength hs.rest
    rw [Source.byteLength_append, hat.1] at hlength
    rw [Beyond] at hbefore
    have hnil : s = [] := byteLength_eq_zero (by omega)
    rw [hnil] at hs
    exact hne hs.eq_of_nil
  · have hlt := start_lt_of_late hb hlate hq hexpr
    have hoffset := hin.offset_add
    rw [hat.1] at hoffset
    omega

/-- What begins with a parenthesis and is no expression in parentheses is none on the second text
either. -/
theorem Begins.grouped_fails (h : f.Begins n n') (hfail : FailsAt (.rule .groupedExpr) n)
    {entry : Prop} (hb : Derives Rule.afterGroup n qs e) (hsound : f.Kept entry n qs e)
    (hne : e ≠ n) :
    FailsAt (.rule .groupedExpr) n' := by
  refine fails_of_not_matches rfl fun d' hmatch => ?_
  obtain ⟨a', _, _, _, hopen', -⟩ := matches_groupedExpr_iff.mp hmatch
  obtain ⟨-, -, hahead | hat | ⟨hrest, -⟩⟩ := h
  -- Among the pieces: the first text has a tuple type there, whose brackets close before the place,
  -- so that what is inside them is read on both texts.
  · obtain ⟨v, a, hopen, hv, ha, ha'⟩ := hahead.unreads_text (by decide) (.inl ⟨_, rfl⟩) hopen'
    have htype := typeExpr_of_paren hb hopen
    obtain ⟨m, l, hname, hskip, hsuffix⟩ :=
      matches_ty_iff.mp ((Matches.rule_iff rfl).mp ⟨qs, htype.answer⟩)
    have htuple := tupleType_of_paren hname hopen
    obtain ⟨s, hs⟩ := Grammar.answer_reads hskip
    obtain ⟨t, ht⟩ := hsuffix.reads
    obtain ⟨a₁, k, hopen₁, hclose, hpath⟩ := pieces_of_tupleType htuple
    obtain rfl := (Matches.text_iff.mpr hopen).unique (Matches.text_iff.mpr hopen₁)
    obtain ⟨u, hu⟩ := hpath.exists_append
    have hnext : Source.byteLength f.next ≤ Source.byteLength m.rest := by
      refine Nat.not_lt.mp fun hbeyond => ?_
      rcases hsound.2 with hbegins | hbefore | ⟨-, q, hq, hexpr, -⟩
      · exact hahead.not_beyond hbegins
      · exact hbefore (Beyond.of_reads hbeyond (hs.trans ht))
      · exact ne_expr_of_typeExpr htype hq hexpr
    rw [hclose.rest, List.singleton_append, ha] at hpath hu
    obtain ⟨w, rfl, hm⟩ := exists_before hv hu rfl hpath hnext
    have hinside : Enclosed m.rest (w ++ f.new) 0 a a' := by
      refine ⟨u, ?_, ?_, ?_⟩
      · rw [ha, hm, List.append_assoc]
        rfl
      · rw [ha', List.append_assoc]
        rfl
      · rwa [← hu]
    obtain ⟨_, hgroup⟩ := hinside.grouped hopen hopen' hmatch
    exact hgroup.not_fails hfail
  · exact hsound.not_at (by decide +kernel) hb hne hat
  · exact hmatch.not_fails (fails_of_rest rfl hrest hfail)

theorem Begins.exprWithBlock_fails (h : f.Begins n n')
    (hmatch : Matches (.rule .exprWithoutBlock) n d)
    (hfail : FailsAt (.rule .exprWithBlock) n) : FailsAt (.rule .exprWithBlock) n' := by
  refine fails_of_not_matches rfl fun d' hblock => ?_
  obtain ⟨l, hl, hlead⟩ := h.exists_blockLead hblock
  exact hmatch.not_fails ((fails_exprWithoutBlock_iff h.firm.1 hl hlead).mpr hfail)

theorem Begins.stmt_fails (h : f.Begins n n') (hfail : FailsAt (.rule .stmt) n)
    (hb : Matches Rule.blockEnd n e) (hb' : Matches Rule.blockEnd n' e') (hne : e' ≠ n') :
    FailsAt (.rule .stmt) n' := by
  have hstmt {c : Cursor} : FailsAt (.rule .stmt) c ↔ FailsAt (.rule .letStmt) c ∧
      FailsAt (.rule .exprWithBlock) c ∧
        FailsAt (.seq (.rule .exprWithoutBlock) (Rule.symbol ';')) c := by
    have hbody : (Rule.production .stmt).body = .alt (.rule .letStmt) (.rule .exprStmt) := rfl
    have hbody' : (Rule.production .exprStmt).body =
        .alt (.seq (.rule .exprWithBlock) (.opt (Rule.symbol ';')))
          (.seq (.rule .exprWithoutBlock) (Rule.symbol ';')) := rfl
    rw [fails_rule_iff rfl, hbody, fails_alt_iff, fails_rule_iff (r := .exprStmt) rfl, hbody',
      fails_alt_iff, fails_seq_iff not_fails_opt]
  have hclear : (Expr.rule Rule.letStmt).clear 20 Rule.blockEnd = true := by decide +kernel
  obtain ⟨-, hblock, -⟩ := hstmt.mp hfail
  refine hstmt.mpr ⟨?_, ?_, (apart_members (by decide)).fails rfl h.firm.2 hb'⟩
  · obtain ⟨qs', hok'⟩ := hb'
    exact fails_of_clear hclear h.firm.2 hok' hne
  · refine fails_of_not_matches rfl fun d hstmt => ?_
    obtain ⟨l, hl, hlead⟩ := h.exists_blockLead hstmt
    obtain ⟨m, k, hopt, hskip, hclose⟩ := Matches.seq_iff.mp hb
    rcases Matches.opt_iff.mp hopt with hmatch | ⟨-, rfl⟩
    · exact hmatch.not_fails ((fails_exprWithoutBlock_iff h.firm.1 hl hlead).mpr hblock)
    · obtain ⟨-, rfl⟩ := Reply.ok.inj (hskip.symm.trans (answer_filler_firm h.firm.1))
      rw [(Matches.text_iff.mp hclose).rest, List.singleton_append, Lead.ofText?_sign (by decide)]
        at hlead
      cases hlead
      exact absurd hl (by decide)

theorem not_fails_expr {c d : Cursor} (h : Matches (.rule .blockExpr) c d) :
    ¬FailsAt (.rule .expr) c := by
  have hbody : (Rule.production .expr).body =
      .alt (.rule .exprWithoutBlock) (.rule .exprWithBlock) := rfl
  have hbody' : (Rule.production .exprWithBlock).body =
      .alt (.rule .blockExpr) (.alt (.rule .ifExpr) (.rule .whileExpr)) := rfl
  rw [fails_rule_iff rfl, hbody, fails_alt_iff, fails_rule_iff (r := .exprWithBlock) rfl, hbody',
    fails_alt_iff]
  exact fun hfail => h.not_fails hfail.2.1

end Fork

namespace Rule

/-- Choices that the next tokens do not settle. -/
def choices : List (Expr Rule × Expr Rule) :=
  [(.rule exprWithoutBlock, .rule exprWithBlock), (furtherOperand .equality, .opt assigned),
    (.rule groupedExpr, afterGroup),
    (.seq (.rule exprWithBlock) (.opt (symbol ';')), .seq (.rule exprWithoutBlock) (symbol ';')),
    (.rule stmt, blockEnd), (.rule expr, .seq (.rule blockExpr) (.opt otherwise)),
    (.rule expr, .rule blockExpr)]

end Rule

namespace Fork

variable {f : Fork} {c c' d d' n n' e e' : Cursor} {qs qs' : List (Pair Rule)}

theorem Begins.choice_fails (h : f.Begins n n') {s b : Expr Rule} (hsb : (s, b) ∈ Rule.choices)
    (hfail : FailsAt s n) {entry : Prop} (hb : Derives b n qs e) (hsound : f.Kept entry n qs e)
    (hne : e ≠ n) (hb' : Derives b n' qs' e') (hne' : e' ≠ n') : FailsAt s n' := by
  have hmatch : Matches b n e := ⟨qs, hb.answer⟩
  simp only [Rule.choices, List.mem_cons, Prod.mk.injEq, List.not_mem_nil, or_false] at hsb
  rcases hsb with ⟨rfl, rfl⟩ | ⟨rfl, rfl⟩ | ⟨rfl, rfl⟩ | ⟨rfl, rfl⟩
    | ⟨rfl, rfl⟩ | ⟨rfl, rfl⟩ | ⟨rfl, rfl⟩
  · exact absurd hfail (hmatch.not_fails_exprWithoutBlock h.firm.1)
  · rcases Matches.opt_iff.mp ⟨qs', hb'.answer⟩ with hassigned | ⟨-, hstays⟩
    · exact apart_assigned.fails rfl h.firm.2 hassigned
    · exact absurd hstays hne'
  · exact h.grouped_fails hfail hb hsound hne
  · rw [fails_seq_iff not_fails_opt] at hfail ⊢
    obtain ⟨d, -, hfirst, -⟩ := Matches.seq_iff.mp hmatch
    exact h.exprWithBlock_fails hfirst hfail
  · exact h.stmt_fails hfail hmatch ⟨qs', hb'.answer⟩ hne'
  · obtain ⟨d, -, hfirst, -⟩ := Matches.seq_iff.mp hmatch
    exact absurd hfail (not_fails_expr hfirst)
  · exact absurd hfail (not_fails_expr hmatch)

def special (s b : Expr Rule) : Bool :=
  decide (s ∈ Rule.retold) || decide ((s, b) ∈ Rule.alternatives) || decide ((s, b) ∈ Rule.choices)

def isPart (r : Rule) : Bool :=
  !r.isLexical && decide (r ≠ .file)

theorem passes_body : ∀ r ∈ Rule.all, isPart r = true →
    (Rule.production r).body.passes Expr.isMark isPart (fun s b => special s b || s.clear 20 b) =
      true := by
  decide +kernel

theorem passes_items : (Expr.seq (.star (.rule .item)) (.rule .endOfInput)).passes Expr.isMark
    isPart (fun s b => special s b || s.clear 20 b) = true := by
  decide +kernel

theorem written_of_alternatives : ∀ p ∈ Rule.alternatives, p.1.isWritten = true := by
  decide

/-- The nodes that stand for the pairs are the same, and their tokens have the same text. -/
def SameNodes (f : Fork) (ps ps' : List (Pair Rule)) : Prop :=
  List.Forall₂ (Pair.Alike (SameText f.source f.source')) (pruneAll ps) (pruneAll ps')

/-- An expression that begins where the texts part, if one may, is carried over as a whole. -/
structure Crossing (f : Fork) (entry : Prop) : Prop extends f.Doorway where
  whole {c c' d : Cursor} {ps : List (Pair Rule)} : entry → f.Begins c c' → f.At c c' →
    Derives (.rule .expr) c ps d →
      ∃ ps' d', Derives (.rule .expr) c' ps' d' ∧ Behind f.Begins d d' ∧ f.SameNodes ps ps'

theorem Begins.at_of_length (h : f.Begins c c')
    (hlength : Source.byteLength c.rest = Source.byteLength f.next) : f.At c c' := by
  obtain ⟨-, -, hahead | hat | ⟨-, -, hbeyond⟩⟩ := h
  · exfalso
    obtain ⟨w, hne, -, -, hc, -⟩ := hahead
    rw [hc] at hlength
    simp only [old, Source.byteLength_append] at hlength
    exact hne (byteLength_eq_zero (by omega))
  · exact hat
  · rw [Beyond] at hbeyond
    omega

theorem Begins.at_of_rest (h : f.Begins c c') (hrest : c'.rest = f.next') : f.At c c' := by
  obtain ⟨-, -, hahead | hat | ⟨hsame, -, hbeyond⟩⟩ := h
  · exfalso
    obtain ⟨w, hne, -, -, -, hc'⟩ := hahead
    have hlength := congrArg Source.byteLength (hc'.symm.trans hrest)
    simp only [new, Source.byteLength_append] at hlength
    exact hne (byteLength_eq_zero (by omega))
  · exact hat
  · have hlonger := f.longer
    rw [Beyond, hsame, hrest] at hbeyond
    omega

theorem Kept.parts {entry : Prop} {ps qs : List (Pair Rule)} {a b : Expr Rule}
    (h : f.Kept entry c (ps ++ qs) e) (ha : Derives a c ps d)
    (hskip : grammar.answer true filler d = .ok [] n) (hb : Derives b n qs e) :
    f.Kept entry c ps d ∧ f.Kept entry n qs e := by
  obtain ⟨hin, hsound⟩ := h
  obtain ⟨s, hs⟩ := ha.reads
  obtain ⟨t, ht⟩ := Grammar.answer_reads hskip
  obtain ⟨u, hu⟩ := hb.reads
  have hinn := (hin.reads hs).reads ht
  have hlater {c d : Cursor} {s : Source} (hread : c.Reads s d) (h : ¬f.Beyond d) : ¬f.Beyond c :=
    fun hbeyond => h (Beyond.of_reads hbeyond hread)
  refine ⟨⟨hin, ?_⟩, hinn, ?_⟩
  all_goals rcases hsound with hbeyond | hbefore | ⟨hentry, q, hq, hexpr, hne, hstart⟩
  · exact .inl hbeyond
  · exact .inr (.inl (hlater (ht.trans hu) hbefore))
  · rw [Pair.preorderAll_append, List.mem_append] at hq
    rcases hq with hq | hq
    · exact .inr (.inr ⟨hentry, q, hq, hexpr, hne, hstart⟩)
    · have hle := ((Grammar.answer_laid hb.answer).bounds hq).1
      have hoffset := hinn.offset_add
      refine .inr (.inl (hlater ht fun hbeyond => ?_))
      rw [Beyond] at hbeyond
      omega
  · exact .inl (Beyond.of_reads hbeyond (hs.trans ht))
  · exact .inr (.inl hbefore)
  · rw [Pair.preorderAll_append, List.mem_append] at hq
    rcases hq with hq | hq
    · have hle := ((Grammar.answer_laid ha.answer).bounds hq).2.2
      have hoffset := hinn.offset_add
      have hlength := ht.offset
      refine .inl ?_
      rw [Beyond]
      omega
    · exact .inr (.inr ⟨hentry, q, hq, hexpr, hne, hstart⟩)

theorem written_of_isMark {e : Expr Rule} (he : e.isMark = true) :
    e.isWritten = true ∧ e.built Expr.isMark (fun _ => false) = true := by
  cases e with
  | text chars => exact ⟨rfl, he⟩
  | finish => exact ⟨rfl, he⟩
  | rule r => exact ⟨rfl, Bool.or_eq_true_iff.mpr (.inl he)⟩
  | _ => exact nomatch he

theorem SameNodes.append {ps ps' qs qs' : List (Pair Rule)} (hps : f.SameNodes ps ps')
    (hqs : f.SameNodes qs qs') : f.SameNodes (ps ++ qs) (ps' ++ qs') := by
  rw [SameNodes, pruneAll_append, pruneAll_append]
  exact List.rel_append hps hqs

theorem part_cases {r : Rule} (hr : isPart r = true) : r.isLexical = false ∧ r ≠ .file := by
  rwa [isPart, Bool.and_eq_true, Bool.not_eq_true', decide_eq_true_eq] at hr

theorem SameNodes.node {r : Rule} {start stop start' stop' : Nat} {ps ps' : List (Pair Rule)}
    (hr : isPart r = true) (hps : f.SameNodes ps ps') :
    f.SameNodes [.node r start stop ps] [.node r start' stop' ps'] := by
  rw [SameNodes, pruneAll_cons, pruneAll_cons]
  exact List.rel_append (Selection.apply_alike
    (sameText_of_loose (Rule.loose_of_isLexical (part_cases hr).1)) hps r.selection) .nil

theorem part_opens {r : Rule} (hr : isPart r = true) : (Rule.production r).tight = false ∧
    (Rule.production r).body.passes Expr.isMark isPart
      (fun s b => special s b || s.clear 20 b) = true ∧
    ∀ s ∈ (Rule.production r).body.trials, s ∈ r.trials := by
  obtain ⟨hlexical, hfile⟩ := part_cases hr
  exact ⟨Rule.loose_of_isLexical hlexical, passes_body r r.mem_all hr,
    trials_body r r.mem_all hlexical hfile⟩

theorem Begins.mark_over {entry : Prop} (h : f.Begins c c') {e : Expr Rule}
    {ps : List (Pair Rule)} (he : e.isMark = true) (hderives : Derives e c ps d)
    (hsound : f.Kept entry c ps d) :
    ∃ ps' d', Derives e c' ps' d' ∧ Behind f.Begins d d' ∧ f.SameNodes ps ps' := by
  have hbefore : ¬f.Beyond d ∨ f.Beyond c := by
    rcases hsound.2 with hbeyond | hbefore | ⟨-, q, hq, hexpr, -⟩
    · exact .inr hbeyond
    · exact .inl hbefore
    · exfalso
      rcases rule_of_derives (fun _ hr => absurd hr Bool.false_ne_true) hderives
          (written_of_isMark he).2 hq
        with hr | hr
      · rw [hexpr] at hr
        exact nomatch hr
      · exact nomatch hr
  obtain ⟨ps', d', hok, hend, hps⟩ := h.mark he hderives.answer hbefore
  refine ⟨ps', d', .of_answer (written_of_isMark he).1 hok, hend, ?_⟩
  exact pruneAll_alike (Pair.alikeAll_iff.mpr (hps.imp fun _ _ hp => hp.alike h.1 h.2.1))

/-- What is kept of a rule is kept of its body, or else the rule is the expression that is carried
over as a whole. -/
theorem Crossing.rule_over {entry : Prop} (h : f.Crossing entry) {r : Rule}
    {cs : List (Pair Rule)} (hc : f.Begins c c')
    (hbody : Derives (Rule.production r).body c cs d)
    (hsound : f.Kept entry c
      (if (Rule.production r).leavesPair then [.node r c.offset d.offset cs] else cs) d) :
    f.Kept entry c cs d ∨ ∃ ps' d', Derives (.rule r) c' ps' d' ∧ Behind f.Begins d d' ∧
      f.SameNodes (if (Rule.production r).leavesPair then [.node r c.offset d.offset cs] else cs)
        ps' := by
  obtain ⟨hin, hbeyond | hbefore | ⟨hentry, q, hq, hexpr, hne, hstart⟩⟩ := hsound
  · exact .inl ⟨hin, .inl hbeyond⟩
  · exact .inl ⟨hin, .inr (.inl hbefore)⟩
  have hinside (hq : q ∈ Pair.preorderAll cs) : f.Kept entry c cs d :=
    ⟨hin, .inr (.inr ⟨hentry, q, hq, hexpr, hne, hstart⟩)⟩
  by_cases hpair : (Rule.production r).leavesPair = true
  · rw [if_pos hpair] at hq ⊢
    rw [Pair.preorderAll_singleton] at hq
    rcases List.mem_cons.mp hq with rfl | hq
    · obtain rfl : r = .expr := hexpr
      have hlength : Source.byteLength c.rest = Source.byteLength f.next := by
        have hoffset := hin.offset_add
        change c.offset + Source.byteLength f.next = Source.byteLength f.source at hstart
        omega
      exact .inr (h.whole hentry hc (hc.at_of_length hlength) (.rule rfl hbody))
    · exact .inl (hinside hq)
  · rw [if_neg hpair] at hq
    exact .inl (hinside hq)

theorem Crossing.trial_fails {entry : Prop} (h : f.Crossing entry) {s b : Expr Rule}
    {qs qs' : List (Pair Rule)} (hsb : special s b = true) (hn : f.Begins n n')
    (hfail : FailsAt s n) (hb : Derives b n qs e) (hsound : f.Kept entry n qs e) (hne : e ≠ n)
    (hb' : Derives b n' qs' e') (hne' : e' ≠ n') : FailsAt s n' := by
  simp only [special, Bool.or_eq_true, decide_eq_true_eq] at hsb
  rcases hsb with (hs | hsb) | hsb
  · exact h.toDoorway.retold_fails hn hs hfail
  · exact (Rule.apart_of_alternatives _ hsb).fails (written_of_alternatives _ hsb) hn.firm.2
      ⟨qs', hb'.answer⟩
  · exact hn.choice_fails hsb hfail hb hsound hne hb' hne'

/-- Derivations are carried over the place where the texts part. -/
def passage {entry : Prop} (h : f.Crossing entry) : Passage where
  Begins := f.Begins
  Sound := f.Kept entry
  Same := f.SameNodes
  leaf := Expr.isMark
  part := isPart
  special := special
  firm := Begins.firm
  injective := Begins.injective
  parts := Kept.parts
  nil := .nil
  append := SameNodes.append
  node := SameNodes.node
  opens := part_opens
  leaves he h := h.mark_over he
  rules _ := h.rule_over
  yields := h.trial_fails

end Fork

end XiFront

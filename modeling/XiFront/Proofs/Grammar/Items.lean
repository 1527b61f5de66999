import XiFront.Proofs.Grammar.Lead
import XiFront.Proofs.Tree.WellFormed

namespace XiFront

open Peg

/-- From the one cursor to the other there is nothing but items, and the other is at the end. -/
inductive Items : Cursor → List (Pair Rule) → Cursor → Prop
  | done {c : Cursor} (h : c.rest = []) : Items c [] c
  | item {c c₁ c₂ d : Cursor} {ps qs skipped : List (Pair Rule)}
      (hitem : grammar.answer false (.rule .item) c = .ok ps c₁)
      (hskip : grammar.answer true filler c₁ = .ok skipped c₂) (h : Items c₂ qs d) :
      Items c (ps ++ qs) d

theorem answer_rule_ne_stuck (r : Rule) (c : Cursor) :
    grammar.answer false (.rule r) c ≠ .stuck :=
  ranking.answer_ne_stuck (fits_rule false r) c

namespace Items

variable {c c₁ c₂ d : Cursor} {ps qs skipped : List (Pair Rule)}

theorem finishes (h : Items c ps d) : d.rest = [] := by
  induction h with
  | done h => exact h
  | item _ _ _ ih => exact ih

theorem opens (h : Items c ps d) (hfirm : IsFirm c.rest) :
    c.rest = [] ∨ ∃ l ∈ (Expr.rule Rule.item).leads (Rule.leads 3), l.At c.rest := by
  cases h with
  | done h => exact .inl h
  | item hitem _ _ => exact .inr (lead_of_answer hfirm rfl hitem 3)

theorem fails_at_end (h : c.rest = []) : grammar.answer false (.rule .item) c = .fail := by
  apply Grammar.eq_fail_of_ne_ok (answer_rule_ne_stuck _ c)
  intro ps d hok
  have hfirm : IsFirm c.rest := by
    rw [h]
    exact .nil
  obtain ⟨l, hl, hat⟩ := lead_of_answer hfirm rfl hok 3
  rw [h] at hat
  rcases hat with rfl | hat
  · exact absurd hl (by decide +kernel)
  · exact nomatch hat

theorem answer_more (h : Items c₁ ps d) (hskip : grammar.answer true filler c = .ok skipped c₁) :
    ∃ c₂ skipped, grammar.answer false (.more (.rule .item)) c = .ok ps c₂ ∧
      grammar.answer true filler c₂ = .ok skipped d := by
  induction h generalizing c skipped with
  | done h =>
      have hskip' : grammar.answer true grammar.filler c = _ := hskip
      refine ⟨c, _, ?_, hskip⟩
      rw [Grammar.answer_more, Grammar.skip_loose, hskip', Reply.resume_ok, fails_at_end h,
        Reply.resume_fail]
  | item hitem hnext _ ih =>
      obtain ⟨c₂, _, hmore, hend⟩ := ih hnext
      have hskip' : grammar.answer true grammar.filler c = _ := hskip
      refine ⟨c₂, _, ?_, hend⟩
      rw [Grammar.answer_more, Grammar.skip_loose, hskip', Reply.resume_ok, hitem,
        Reply.resume_ok, hmore, Reply.prepend_ok]

theorem answer_star (h : Items c ps d) (hfirm : IsFirm c.rest) :
    ∃ c₂ skipped, grammar.answer false (.star (.rule .item)) c = .ok ps c₂ ∧
      grammar.answer true filler c₂ = .ok skipped d := by
  cases h with
  | done h =>
      refine ⟨c, _, ?_, answer_filler_firm hfirm⟩
      rw [Grammar.answer_star, fails_at_end h, Reply.resume_fail]
  | item hitem hskip h =>
      obtain ⟨c₂, _, hmore, hend⟩ := h.answer_more hskip
      refine ⟨c₂, _, ?_, hend⟩
      rw [Grammar.answer_star, hitem, Reply.resume_ok, hmore, Reply.prepend_ok]

theorem of_rounds {fuel : Nat}
    (h : grammar.rounds fuel false (.more (.rule .item)) c = .ok ps c₁)
    (hskip : grammar.answer true filler c₁ = .ok skipped d) (hend : d.rest = []) :
    ∃ c₂ skipped, grammar.answer true filler c = .ok skipped c₂ ∧ Items c₂ ps d := by
  induction fuel generalizing c ps with
  | zero => exact nomatch h
  | succ fuel ih =>
      rcases Grammar.round_eq_ok h with ⟨_, e, ps₁, e₁, ps₂, hfirst, hitem, hmore, rfl⟩ | ⟨rfl, rfl⟩
      · obtain ⟨e₂, _, hnext, hitems⟩ := ih hmore
        exact ⟨e, _, Grammar.answer_of_rounds hfirst,
          .item (Grammar.answer_of_rounds hitem) hnext hitems⟩
      · exact ⟨d, _, hskip, .done hend⟩

theorem reaches {c d : Cursor} {ps : List (Pair Rule)} (h : Items c ps d)
    (hfirm : IsFirm c.rest) : Reaches c d := by
  induction h with
  | done _ => exact .refl _
  | item hitem hskip _ ih =>
      obtain ⟨hskips, hfirm'⟩ := Reaches.of_filler hskip
      have hsteady : (Expr.rule Rule.item).isSteady = true := rfl
      exact (reaches_of_answer hsteady (fun _ => hfirm) hitem).trans (hskips.trans (ih hfirm'))

end Items

theorem answer_file_iff_items {source : Source} {p : Pair Rule} {after : Cursor} :
    grammar.answer false (.rule .file) (.ofText source) = .ok [p] after ↔
      ∃ c ps, grammar.answer true filler (.ofText source) = .ok [] c ∧ Items c ps after ∧
        p = .node .file 0 after.offset (ps ++ [.node .endOfInput after.offset after.offset []]) := by
  have hfinish (d : Cursor) : grammar.answer false (.rule .endOfInput) d =
      if d.rest.isEmpty then .ok [.node .endOfInput d.offset d.offset []] d else .fail := by
    rw [Grammar.answer_rule_loose]
    change Reply.close _ _ _ (grammar.answer false .finish d) = _
    rw [Grammar.answer_finish]
    split <;> rfl
  rw [answer_file_eq_ok]
  constructor
  · rintro ⟨c, cs, hskip, hseq, hp⟩
    obtain ⟨ps, c₁, _, c₂, qs, hstar, hskip₁, hend, rfl⟩ := Grammar.answer_seq_eq_ok_iff.mp hseq
    rw [hfinish] at hend
    split at hend
    case isFalse => exact nomatch hend
    next hempty =>
    obtain ⟨rfl, rfl⟩ := Reply.ok.inj hend
    refine ⟨c, ps, hskip, ?_, List.singleton_inj.mp hp⟩
    have hrest : c₂.rest = [] := List.isEmpty_iff.mp hempty
    rw [Grammar.answer_eq_round] at hstar
    rcases Grammar.round_eq_ok hstar with ⟨ps₁, e, ps₂, hitem, hmore, rfl⟩ | ⟨-, rfl, rfl⟩
    · obtain ⟨n, hn⟩ := grammar.settles_rounds false (.more (.rule .item)) e
      obtain ⟨e₂, _, hnext, hitems⟩ :=
        Items.of_rounds ((hn n (Nat.le_refl n)).trans hmore) hskip₁ hrest
      exact .item hitem hnext hitems
    · have hfirm := answer_filler_firm (Reaches.of_filler hskip).2
      obtain ⟨-, rfl⟩ := Reply.ok.inj (hfirm.symm.trans hskip₁)
      exact .done hrest
  · rintro ⟨c, ps, hskip, hitems, rfl⟩
    obtain ⟨c₂, _, hstar, hend⟩ := hitems.answer_star (Reaches.of_filler hskip).2
    refine ⟨c, _, hskip, ?_, rfl⟩
    refine Grammar.answer_seq_eq_ok_iff.mpr ⟨ps, c₂, _, after, _, hstar, hend, ?_, rfl⟩
    rw [hfinish, if_pos (by rw [hitems.finishes]; rfl)]

theorem Tree.isOf_iff_items {source : Source} {t : Tree} :
    t.IsOf source ↔
      ∃ c ps d, grammar.answer true filler (.ofText source) = .ok [] c ∧ Items c ps d ∧
        t = ⟨source, .ofPair source 0 (.node .file 0 d.offset (pruneAll ps))⟩ := by
  have hprune (offset : Nat) (ps : List (Pair Rule)) :
      prune (.node .file 0 offset (ps ++ [.node .endOfInput offset offset []])) =
        some (.node .file 0 offset (pruneAll ps)) := by
    rw [prune, pruneAll_append]
    change some (Pair.node Rule.file 0 offset (pruneAll ps ++ [])) = _
    rw [List.append_nil]
  constructor
  · rintro ⟨p, after, q, hfile, hq, rfl⟩
    obtain ⟨c, ps, hskip, hitems, rfl⟩ := answer_file_iff_items.mp hfile
    rw [hprune] at hq
    cases Option.some.inj hq
    exact ⟨c, ps, after, hskip, hitems, rfl⟩
  · rintro ⟨c, ps, d, hskip, hitems, rfl⟩
    have hfile := answer_file_iff_items.mpr ⟨c, ps, hskip, hitems, rfl⟩
    exact ⟨_, d, _, hfile, hprune _ _, rfl⟩

theorem Tree.IsOf.start_root {source : Source} {t : Tree} (h : t.IsOf source) :
    t.root.start = 0 := by
  obtain ⟨c, ps, d, -, -, rfl⟩ := Tree.isOf_iff_items.mp h
  rfl

/-- A source that is one item has a tree with one node below the root. -/
theorem Tree.exists_isOf_item {source : Source} {r : Rule} {Q : Node → Prop} (hfirm : IsFirm source)
    (h : Scans source (.rule .item) source [] (Becomes source r Q)) :
    ∃ (t : Tree) (n : Node), t.IsOf source ∧ t.root.children = [n] ∧ n.rule = r ∧ Q n := by
  obtain ⟨ps, d, hitem, hend, q, hq, hrule, hnode⟩ :=
    h (.ofText source) (.ofText source) (List.append_nil source).symm
  have hfirm' : IsFirm d.rest := by
    rw [hend]
    exact .nil
  have hitems : Items (.ofText source) ps d := by
    rw [← List.append_nil ps]
    exact .item hitem (answer_filler_firm hfirm') (.done hend)
  refine ⟨_, _, Tree.isOf_iff_items.mpr ⟨_, ps, d, answer_filler_firm hfirm, hitems, rfl⟩, ?_,
    (Node.rule_ofPair ..).trans hrule, hnode 0⟩
  rw [Node.children_ofPair, Pair.children, hq]
  rfl

end XiFront

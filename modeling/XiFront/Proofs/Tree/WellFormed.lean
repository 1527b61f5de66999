import Mathlib.Data.List.Nodup
import XiFront.Proofs.Grammar.Fuel
import XiFront.Proofs.Peg.Tight
import XiFront.Proofs.Tree.Numbering
import XiFront.Proofs.Tree.Shape

namespace XiFront

open Peg

/-- What the grammar says about a pair that stays. -/
structure Peg.Pair.Formed (source : Source) (p : Pair Rule) : Prop where
  inside : p.rule.Inside (p.children.map Pair.rule)
  layout : p.rule.Layout (p.children.map Pair.rule)
  spelled : ∃ cs, grammar.Matched source p.rule p.start p.stop cs

theorem map_pruneAll_append (ps qs : List (Pair Rule)) :
    (pruneAll (ps ++ qs)).map Pair.rule =
      (pruneAll ps).map Pair.rule ++ (pruneAll qs).map Pair.rule := by
  rw [pruneAll_eq_filterMap, List.filterMap_append, List.map_append, pruneAll_eq_filterMap,
    pruneAll_eq_filterMap]

theorem mem_pruneAll {q : Pair Rule} {ps : List (Pair Rule)} :
    q ∈ pruneAll ps ↔ ∃ p ∈ ps, prune p = some q := by
  rw [pruneAll_eq_filterMap, List.mem_filterMap]

theorem pruneAll_singleton_iff {p q : Pair Rule} : pruneAll [p] = [q] ↔ prune p = some q := by
  rw [pruneAll]
  cases prune p <;> simp

theorem Selection.eq_of_apply {s : Selection} {r : Rule} {start stop : Nat}
    {kept : List (Pair Rule)} {q : Pair Rule} (h : s.apply r start stop kept = some q) :
    q = .node r start stop kept ∨ kept = [q] := by
  cases s with
  | discard => exact nomatch h
  | store => exact .inl (Option.some.inj h).symm
  | fold =>
      rcases kept with _ | ⟨only, _ | ⟨second, others⟩⟩
      · exact .inl (Option.some.inj h).symm
      · exact .inr (congrArg (fun p => [p]) (Option.some.inj h))
      · exact .inl (Option.some.inj h).symm

theorem Peg.Pair.Every.of_prune {P : Pair Rule → Prop}
    (hP : ∀ {r start stop cs cs'}, P (.node r start stop cs) → P (.node r start stop cs'))
    {p q : Pair Rule} (h : p.Every P) (hq : prune p = some q) : q.Every P := by
  induction h generalizing q with
  | @node _ _ _ cs h _ ih =>
      have hkept : ∀ c ∈ pruneAll cs, c.Every P := by
        intro c hc
        obtain ⟨p, hp, hprune⟩ := mem_pruneAll.mp hc
        exact ih p hp hprune
      rw [prune] at hq
      rcases Selection.eq_of_apply hq with rfl | hkeep
      · exact .node (hP h) hkept
      · exact hkept q (by rw [hkeep]; exact List.mem_cons_self)

theorem rules_prune (r : Rule) (start stop : Nat) (cs : List (Pair Rule)) :
    (pruneAll [.node r start stop cs]).map Pair.rule =
      r.selected ((pruneAll cs).map Pair.rule) := by
  simp only [pruneAll, prune, Rule.selected]
  cases r.selection with
  | discard => rfl
  | fold => rcases pruneAll cs with _ | ⟨only, _ | ⟨second, others⟩⟩ <;> rfl
  | store => rfl

theorem every_formed_of_prune {source : Source} {r : Rule} {start stop : Nat}
    {cs : List (Pair Rule)} (hpair : (Rule.production r).leavesPair = true)
    (hmatched : grammar.Matched source r start stop cs)
    (hinside : r.Inside ((pruneAll cs).map Pair.rule))
    (hcs : ∀ q ∈ pruneAll cs, q.Every (Pair.Formed source)) {q : Pair Rule}
    (hq : prune (.node r start stop cs) = some q) : q.Every (Pair.Formed source) := by
  have hnode (hfold : r.selection = .fold → (pruneAll cs).length ≠ 1) :
      Pair.Every (Pair.Formed source) (.node r start stop (pruneAll cs)) := by
    refine .node ⟨hinside, ?_, cs, hmatched⟩ hcs
    refine Rule.layout_of_inside hpair (fun h => ?_) hinside
    rw [List.length_map]
    exact hfold h
  rw [prune] at hq
  cases hselection : r.selection with
  | discard =>
      rw [hselection] at hq
      cases hq
  | fold =>
      rw [hselection] at hq
      rcases hkept : pruneAll cs with _ | ⟨first, _ | ⟨second, others⟩⟩
      · rw [hkept] at hq
        cases Option.some.inj hq
        rw [← hkept]
        exact hnode (by simp [hkept])
      · rw [hkept] at hq
        cases Option.some.inj hq
        exact hcs q (by simp [hkept])
      · rw [hkept] at hq
        cases Option.some.inj hq
        rw [← hkept]
        exact hnode (by simp [hkept])
  | store =>
      rw [hselection] at hq
      cases Option.some.inj hq
      exact hnode (by simp [hselection])

theorem Rule.inside_of_parts {source : Source} {depth : Nat} {r : Rule} {cs : List (Pair Rule)}
    (hcs : if (grammar.production r).tight then cs = []
      else (grammar.production r).body.Yields (grammar.Leaves source depth) cs)
    (hparts : ∀ r ps, grammar.Leaves source depth r ps → r.Remains ((pruneAll ps).map Pair.rule)) :
    r.Inside ((pruneAll cs).map Pair.rule) := by
  unfold Rule.Inside
  split at hcs
  · next htight =>
      have htight' : (Rule.production r).tight = true := htight
      rw [if_pos htight', hcs]
      rfl
  · next hloose =>
      have hloose' : ¬(Rule.production r).tight = true := hloose
      rw [if_neg hloose']
      exact hcs.map rfl map_pruneAll_append hparts

theorem remains_of_leaves {source : Source} {depth : Nat} {r : Rule} {ps : List (Pair Rule)}
    (h : grammar.Leaves source depth r ps) :
    r.Remains ((pruneAll ps).map Pair.rule) ∧
      ∀ q ∈ pruneAll ps, q.Every (Pair.Formed source) := by
  induction depth generalizing r ps with
  | zero => exact h.elim
  | succ depth ih =>
      obtain ⟨cs, start, stop, hmatched, hcs, rfl⟩ := h
      have hinside : r.Inside ((pruneAll cs).map Pair.rule) :=
        Rule.inside_of_parts hcs fun r ps hps => (ih hps).1
      have hevery : ∀ q ∈ pruneAll cs, q.Every (Pair.Formed source) := by
        intro q hq
        obtain ⟨c, hc, hprune⟩ := mem_pruneAll.mp hq
        split at hcs
        · rw [hcs] at hc
          exact nomatch hc
        · obtain ⟨r', -, l, hl, hcl⟩ := hcs.mem_mentions hc
          exact (ih hl).2 q (mem_pruneAll.mpr ⟨c, hcl, hprune⟩)
      cases hpair : (Rule.production r).leavesPair with
      | true =>
          have hpair' : (grammar.production r).leavesPair = true := hpair
          rw [if_pos hpair', rules_prune]
          refine ⟨Rule.remains_selected hpair hinside, fun q hq => ?_⟩
          obtain ⟨p, hp, hprune⟩ := mem_pruneAll.mp hq
          cases List.mem_singleton.mp hp
          exact every_formed_of_prune hpair hmatched hinside hevery hprune
      | false =>
          have hpair' : ¬(grammar.production r).leavesPair = true := by
            rw [show (grammar.production r).leavesPair = false from hpair]
            exact nofun
          rw [if_neg hpair']
          exact ⟨Rule.remains_of_silent hpair hinside, hevery⟩

/-- What the grammar says about a node. -/
structure Node.Formed (source : Source) (n : Node) : Prop where
  inside : n.rule.Inside (n.children.map Node.rule)
  layout : n.rule.Layout (n.children.map Node.rule)
  spelled : ∃ cs, grammar.Matched source n.rule n.start n.stop cs

theorem Node.formed_ofPair {source : Source} {p : Pair Rule} (h : p.Formed source)
    (next : Nat) : (ofPair source next p).Formed source := by
  refine ⟨?_, ?_, ?_⟩
  · rw [children_ofPair, rules_ofPairs, rule_ofPair]
    exact h.inside
  · rw [children_ofPair, rules_ofPairs, rule_ofPair]
    exact h.layout
  · rw [rule_ofPair, start_ofPair, stop_ofPair]
    exact h.spelled

structure Tree.WellFormed (t : Tree) : Prop where
  root : t.root.rule = .file
  formed : ∀ n ∈ t.root.preorder, n.Formed t.source
  descending : ∀ n ∈ t.root.preorder, ∀ c ∈ n.children, c.id < n.id
  nodup : (t.root.preorder.map Node.id).Nodup
  ascending : ∀ n ∈ t.root.preorder, n.children.Pairwise Node.Before

/-- The tree of a source that matches, however many nodes it has. -/
def Tree.IsOf (t : Tree) (source : Source) : Prop :=
  ∃ p after q, grammar.answer false (.rule .file) (.ofText source) = .ok [p] after ∧
    prune p = some q ∧ t = ⟨source, .ofPair source 0 q⟩

theorem Tree.exists_isOf {source : Source} {ps : List (Pair Rule)} {after : Cursor}
    (h : grammar.answer false (.rule .file) (.ofText source) = .ok ps after) :
    ∃ t : Tree, t.IsOf source := by
  have hclose := h
  rw [Grammar.answer_rule_loose] at hclose
  obtain ⟨cs, -, rfl⟩ := Reply.close_eq_ok_iff.mp hclose
  exact ⟨_, _, after, _, h, rfl, rfl⟩

namespace Tree.IsOf

variable {source : Source} {t t' : Tree}

theorem source_eq (h : t.IsOf source) : t.source = source := by
  obtain ⟨p, after, q, -, -, rfl⟩ := h
  rfl

theorem unique (h : t.IsOf source) (h' : t'.IsOf source) : t = t' := by
  obtain ⟨p, after, q, hanswer, hprune, rfl⟩ := h
  obtain ⟨p', after', q', hanswer', hprune', rfl⟩ := h'
  obtain ⟨hps, -⟩ := Reply.ok.inj (hanswer.symm.trans hanswer')
  cases List.singleton_inj.mp hps
  cases Option.some.inj (hprune.symm.trans hprune')
  rfl

theorem id_root (h : t.IsOf source) : t.root.id + 1 = t.size := by
  obtain ⟨p, after, q, -, -, rfl⟩ := h
  exact (Node.id_ofPair source 0 q).trans (Nat.zero_add _)

theorem id_lt (h : t.IsOf source) {n : Node} (hn : n ∈ t.nodes) : n.id < t.size := by
  obtain ⟨p, after, q, -, -, rfl⟩ := h
  rw [Tree.nodes_eq_preorder] at hn
  have hmem := (Node.ids_ofPair source 0 q).mem_iff.mp (List.mem_map_of_mem hn)
  rw [List.mem_range'_1, Nat.zero_add] at hmem
  exact hmem.2

theorem position_eq (h : t.IsOf source) {n : Node} (hn : n ∈ t.nodes) :
    n.position = .ofOffset source n.start := by
  obtain ⟨p, after, q, -, -, rfl⟩ := h
  rw [Tree.nodes_eq_preorder] at hn
  obtain ⟨q', next, -, rfl⟩ := Node.exists_pair_of_mem_preorder q.every_true hn
  rw [Node.position_ofPair, Node.start_ofPair]

theorem parse_cases (h : t.IsOf source) :
    (t.size ≤ Node.limit ∧ Tree.parse source = .ok t) ∨
      ∃ n ∈ t.nodes, n.id = Node.limit ∧ Tree.parse source = .error n.excess := by
  have hsize := h.id_root
  obtain ⟨p, after, q, hanswer, hprune, rfl⟩ := h
  have hparse : Tree.parse source =
      (Node.number source 0 q >>= fun r => pure ⟨source, r.1⟩) := by
    rw [Tree.parse, Rule.match?, reply_eq_answer, hanswer]
    simp only [hprune]
  rw [hparse]
  rcases Node.number_cases source (Nat.zero_le _) q with ⟨hid, hnumber⟩ | ⟨n, hn, hid, hnumber⟩
  · rw [hnumber]
    exact .inl ⟨hsize ▸ hid, rfl⟩
  · rw [hnumber]
    rw [← Tree.nodes_eq_preorder ⟨source, _⟩] at hn
    exact .inr ⟨n, hn, hid, rfl⟩

theorem parse_eq_ok (h : t.IsOf source) (hsize : t.size ≤ Node.limit) :
    Tree.parse source = .ok t := by
  rcases h.parse_cases with ⟨-, hparse⟩ | ⟨n, hn, hid, -⟩
  · exact hparse
  · exact absurd (h.id_lt hn) (hid ▸ Nat.not_lt_of_le hsize)

end Tree.IsOf

theorem Tree.parse_eq_ok_iff {source : Source} {t : Tree} :
    Tree.parse source = .ok t ↔ t.IsOf source ∧ t.size ≤ Node.limit := by
  constructor
  · intro h
    cases hanswer : grammar.answer false (.rule .file) (.ofText source) with
    | stuck =>
        rw [Tree.parse, Rule.match?, reply_eq_answer, hanswer] at h
        exact nomatch h
    | fail =>
        rw [Tree.parse, Rule.match?, reply_eq_answer, hanswer] at h
        exact nomatch h
    | ok ps after =>
        obtain ⟨t', ht'⟩ := Tree.exists_isOf hanswer
        rcases ht'.parse_cases with ⟨hsize, hparse⟩ | ⟨n, -, -, hparse⟩
        · cases Except.ok.inj (h.symm.trans hparse)
          exact ⟨ht', hsize⟩
        · exact nomatch h.symm.trans hparse
  · rintro ⟨h, hsize⟩
    exact h.parse_eq_ok hsize

theorem Tree.isOf_of_parse {source : Source} {t : Tree} (h : Tree.parse source = .ok t) :
    t.IsOf source :=
  (Tree.parse_eq_ok_iff.mp h).1

theorem exists_eq_ok {x : Except ε α} (h : x.toBool = true) : ∃ a, x = .ok a := by
  cases x with
  | error e => exact nomatch h
  | ok a => exact ⟨a, rfl⟩

theorem Tree.exists_parse_of_map {source : Source} {f : Tree → α} {a : α}
    (h : (Tree.parse source).toOption.map f = some a) : ∃ t, Tree.parse source = .ok t ∧ f t = a := by
  cases hparse : Tree.parse source with
  | error e =>
      rw [hparse] at h
      exact nomatch h
  | ok t =>
      rw [hparse] at h
      exact ⟨t, rfl, Option.some.inj h⟩

theorem Tree.IsOf.wellFormed {source : Source} {t : Tree} (h : t.IsOf source) : t.WellFormed := by
  obtain ⟨p, after, q, hanswer, hprune, rfl⟩ := h
  obtain ⟨depth, hleaves⟩ := Grammar.answer_yields hanswer (.ofText source)
  obtain ⟨hremains, hevery⟩ := remains_of_leaves hleaves
  rw [pruneAll_singleton_iff.mpr hprune] at hremains hevery
  have hq : q.Every (Pair.Formed source) := hevery q List.mem_cons_self
  refine ⟨?_, ?_, ?_, Node.nodup_ids_ofPair source 0 q, ?_⟩
  · rw [Node.rule_ofPair]
    exact (List.cons.inj hremains).1
  · intro n hn
    obtain ⟨q, next, hformed, rfl⟩ := Node.exists_pair_of_mem_preorder hq hn
    exact Node.formed_ofPair hformed next
  · intro n hn c hc
    obtain ⟨q, next, -, rfl⟩ := Node.exists_pair_of_mem_preorder hq hn
    exact Node.id_lt_of_ofPair (Node.mem_preorderAll.mpr ⟨c, hc, c.self_mem_preorder⟩)
  · intro n hn
    obtain ⟨q, next, -, rfl⟩ := Node.exists_pair_of_mem_preorder hq hn
    rw [Node.children_ofPair]
    exact Node.pairwise_ofPairs source next q.children

theorem Tree.wellFormed_of_parse {source : Source} {t : Tree}
    (h : Tree.parse source = .ok t) : t.WellFormed ∧ t.source = source :=
  ⟨(Tree.isOf_of_parse h).wellFormed, (Tree.isOf_of_parse h).source_eq⟩

namespace Tree

theorem mem_nodes {t : Tree} {n : Node} : n ∈ t.nodes ↔ n ∈ t.root.preorder := by
  rw [nodes_eq_preorder]

theorem child_mem_nodes {t : Tree} {c n : Node} (hn : n ∈ t.nodes) (hc : c ∈ n.children) :
    c ∈ t.nodes := by
  rw [mem_nodes] at hn ⊢
  exact Node.preorder_trans (Node.child_mem_preorder hc) hn

namespace WellFormed

variable {t : Tree}

theorem eq_of_id (h : t.WellFormed) {m n : Node} (hm : m ∈ t.nodes) (hn : n ∈ t.nodes)
    (hid : m.id = n.id) : m = n := by
  rw [mem_nodes] at hm hn
  exact List.inj_on_of_nodup_map h.nodup hm hn hid

theorem node?_eq_some_iff (h : t.WellFormed) {id : Nat} {n : Node} :
    t.node? id = some n ↔ n ∈ t.nodes ∧ n.id = id := by
  constructor
  · intro hfind
    exact ⟨List.mem_of_find?_eq_some hfind, by simpa using List.find?_some hfind⟩
  · rintro ⟨hn, rfl⟩
    cases hfind : t.node? n.id with
    | none => simpa using List.find?_eq_none.mp hfind n hn
    | some m =>
        have hm : m ∈ t.nodes := List.mem_of_find?_eq_some hfind
        have hid : m.id = n.id := by simpa using List.find?_some hfind
        rw [h.eq_of_id hm hn hid]

theorem child_lt (h : t.WellFormed) {c n : Node} (hn : n ∈ t.nodes) (hc : c ∈ n.children) :
    c.id < n.id :=
  h.descending n (mem_nodes.mp hn) c hc

theorem layout (h : t.WellFormed) {n : Node} (hn : n ∈ t.nodes) :
    n.rule.Layout (n.children.map Node.rule) :=
  (h.formed n (mem_nodes.mp hn)).layout

theorem size_of_token (h : t.WellFormed) {n : Node} (hn : n ∈ t.nodes)
    (htight : (Rule.production n.rule).tight = true) : n.size = 1 := by
  have hinside := (h.formed n (mem_nodes.mp hn)).inside
  rw [Rule.Inside, if_pos htight] at hinside
  rw [Node.size_eq, List.map_eq_nil_iff.mp hinside]
  rfl

theorem takes (h : t.WellFormed) {n : Node} (hn : n ∈ t.nodes)
    (htight : (Rule.production n.rule).tight = true) :
    ∃ c c', grammar.Takes (.rule n.rule) c (n.text t.source) c' := by
  obtain ⟨cs, hmatched⟩ := (h.formed n (mem_nodes.mp hn)).spelled
  obtain ⟨before, c, c', hanswer, hreads, -⟩ := hmatched.reads
  have htight' : (grammar.production n.rule).tight = true := htight
  rw [htight'] at hanswer
  cases Grammar.answer_tight hanswer
  refine ⟨c, c', ?_, hreads⟩
  rw [Grammar.answer_rule_tight]
  exact hanswer

theorem exists_parent (h : t.WellFormed) {n : Node} (hn : n ∈ t.nodes) (hr : n.rule ≠ .file) :
    ∃ p ∈ t.nodes, n ∈ p.children ∧ p.rule.admits n.rule = true := by
  have hne : n ≠ t.root := by
    rintro rfl
    exact hr h.root
  obtain ⟨p, hp, hmem⟩ := Node.exists_parent (mem_nodes.mp hn) hne
  refine ⟨p, mem_nodes.mpr hp, hmem, ?_⟩
  exact Rule.admits_of_inside (h.formed p hp).inside (List.mem_map_of_mem hmem)

end WellFormed

end Tree

end XiFront

import XiFront.Proofs.Tree.WellFormed

namespace XiFront

open Peg

namespace Peg.Pair

/-- What a pair says of the source: its rule, and where its text begins and ends. -/
def label (p : Pair ρ) : ρ × Nat × Nat :=
  (p.rule, p.start, p.stop)

mutual

def preorder : Pair ρ → List (Pair ρ)
  | .node r start stop cs => .node r start stop cs :: preorderAll cs

def preorderAll : List (Pair ρ) → List (Pair ρ)
  | [] => []
  | p :: ps => p.preorder ++ preorderAll ps

end

/-! The same, each pair with the pairs around it behind it, the innermost of them first. -/

mutual

def lines (around : List (Pair ρ)) : Pair ρ → List (List (Pair ρ))
  | .node r start stop cs =>
      (.node r start stop cs :: around) :: linesAll (.node r start stop cs :: around) cs

def linesAll (around : List (Pair ρ)) : List (Pair ρ) → List (List (Pair ρ))
  | [] => []
  | p :: ps => p.lines around ++ linesAll around ps

end

/-! The pairs with a property that are inside no other such pair. -/

mutual

def outermost (P : Pair ρ → Bool) : Pair ρ → List (Pair ρ)
  | .node r start stop cs =>
      if P (.node r start stop cs) then [.node r start stop cs] else outermostAll P cs

def outermostAll (P : Pair ρ → Bool) : List (Pair ρ) → List (Pair ρ)
  | [] => []
  | p :: ps => p.outermost P ++ outermostAll P ps

end

theorem linesAll_append (around ps qs : List (Pair ρ)) :
    linesAll around (ps ++ qs) = linesAll around ps ++ linesAll around qs := by
  induction ps with
  | nil => rfl
  | cons p ps ih =>
      rw [List.cons_append, linesAll, linesAll, ih, List.append_assoc]

mutual

theorem heads_lines (around : List (Pair ρ)) (p : Pair ρ) :
    (p.lines around).filterMap List.head? = p.preorder := by
  obtain ⟨r, start, stop, cs⟩ := p
  rw [lines, preorder, List.filterMap_cons, List.head?_cons, heads_linesAll]

theorem heads_linesAll (around ps : List (Pair ρ)) :
    (linesAll around ps).filterMap List.head? = preorderAll ps := by
  cases ps with
  | nil => rfl
  | cons p ps =>
      rw [linesAll, preorderAll, List.filterMap_append, heads_lines, heads_linesAll]

end

theorem mem_preorderAll {q : Pair ρ} {ps : List (Pair ρ)} :
    q ∈ preorderAll ps ↔ ∃ p ∈ ps, q ∈ p.preorder := by
  induction ps with
  | nil => simp [preorderAll]
  | cons p ps ih => simp [preorderAll, ih]

theorem Every.of_mem_preorder {P : Pair ρ → Prop} {p q : Pair ρ} (h : p.Every P)
    (hq : q ∈ p.preorder) : q.Every P := by
  induction h with
  | node h hcs ih =>
      rcases List.mem_cons.mp hq with rfl | hq
      · exact .node h hcs
      · obtain ⟨c, hc, hq⟩ := mem_preorderAll.mp hq
        exact ih c hc hq

end Peg.Pair

namespace Node

def label (n : Node) : Rule × Nat × Nat :=
  (n.rule, n.start, n.stop)

/-! Each node with the nodes above it behind it, the lowest of them first. -/

mutual

def lines (above : List Node) : Node → List (List Node)
  | ⟨id, r, start, stop, position, children⟩ =>
      (⟨id, r, start, stop, position, children⟩ :: above) ::
        linesAll (⟨id, r, start, stop, position, children⟩ :: above) children

def linesAll (above : List Node) : List Node → List (List Node)
  | [] => []
  | n :: ns => n.lines above ++ linesAll above ns

end

mutual

theorem heads_lines (above : List Node) (n : Node) :
    (n.lines above).filterMap List.head? = n.preorder := by
  obtain ⟨id, r, start, stop, position, children⟩ := n
  rw [lines, preorder_eq, List.filterMap_cons, List.head?_cons, heads_linesAll]

theorem heads_linesAll (above ns : List Node) :
    (linesAll above ns).filterMap List.head? = preorderAll ns := by
  cases ns with
  | nil => rfl
  | cons n ns =>
      rw [linesAll, preorderAll_cons, List.filterMap_append, heads_lines, heads_linesAll]

end

mutual

theorem lines_ofPair (source : Source) (next : Nat) (p : Pair Rule) {above : List Node}
    {around : List (Pair Rule)} (h : above.map label = around.map Pair.label) :
    ((ofPair source next p).lines above).map (List.map label) =
      (p.lines around).map (List.map Pair.label) := by
  obtain ⟨r, start, stop, cs⟩ := p
  simp only [ofPair, lines, Pair.lines, List.map_cons, h]
  refine congrArg _ (linesAll_ofPairs source next cs ?_)
  rw [List.map_cons, List.map_cons, h]
  rfl

theorem linesAll_ofPairs (source : Source) (next : Nat) (ps : List (Pair Rule))
    {above : List Node} {around : List (Pair Rule)}
    (h : above.map label = around.map Pair.label) :
    (linesAll above (ofPairs source next ps).1).map (List.map label) =
      (Pair.linesAll around ps).map (List.map Pair.label) := by
  cases ps with
  | nil => rfl
  | cons p ps =>
      rw [ofPairs_cons, linesAll, Pair.linesAll, List.map_append, List.map_append,
        lines_ofPair source next p h, linesAll_ofPairs source _ ps h]

end

end Node

/-- Nothing is inside a pair that is discarded, and something remains of one that is folded. -/
structure Peg.Pair.Sound (p : Pair Rule) : Prop where
  discard : p.rule.selection = .discard → p.children = []
  fold : p.rule.selection = .fold → pruneAll p.children ≠ []

theorem Rule.not_inside_nil {r : Rule} (hfold : r.selection = .fold) : ¬r.Inside [] := by
  intro h
  have hpair : (production r).leavesPair = true := by
    rcases fold_cases hfold with hwrapper | ⟨v, rfl⟩ | rfl | rfl | rfl | rfl
    · cases r <;> first | rfl | exact nomatch hwrapper
    all_goals rfl
  have hlayout := layout_of_inside hpair (fun _ => by simp) h
  rcases fold_cases hfold with hwrapper | ⟨v, rfl⟩ | rfl | rfl | rfl | rfl
  · obtain ⟨x, -, hx⟩ := inside_wrapper hwrapper h
    exact nomatch hx
  · obtain ⟨others, e, hl, -⟩ := hlayout
    exact nomatch hl
  · obtain ⟨types, e, hl, -⟩ := hlayout
    exact nomatch hl
  · obtain ⟨operators, e, hl, -⟩ := hlayout
    simp at hl
  · obtain ⟨steps, e, hl, -⟩ := hlayout
    exact nomatch hl
  · obtain ⟨left, right, hl, -⟩ := hlayout
    exact nomatch hl

theorem Rule.tight_of_discard {r : Rule} (h : r.selection = .discard) :
    (production r).tight = true ∨ r = endOfInput := by
  cases r
  case kw k => exact .inl rfl
  case endOfInput => exact .inr rfl
  all_goals exact nomatch h

theorem sound_of_leaves {source : Source} {depth : Nat} {r : Rule} {ps : List (Pair Rule)}
    (h : grammar.Leaves source depth r ps) : ∀ p ∈ ps, p.Every Pair.Sound := by
  induction depth generalizing r ps with
  | zero => exact h.elim
  | succ depth ih =>
      obtain ⟨cs, start, stop, -, hcs, rfl⟩ := h
      have hinside : r.Inside ((pruneAll cs).map Pair.rule) :=
        Rule.inside_of_parts hcs fun r ps hps => (remains_of_leaves hps).1
      have hevery : ∀ c ∈ cs, c.Every Pair.Sound := by
        intro c hc
        split at hcs
        · rw [hcs] at hc
          exact nomatch hc
        · obtain ⟨r', -, l, hl, hcl⟩ := hcs.mem_mentions hc
          exact ih hl c hcl
      have hsound : Pair.Sound (.node r start stop cs) := by
        refine ⟨fun hdiscard => ?_, fun hfold hempty => ?_⟩
        · rcases Rule.tight_of_discard hdiscard with htight | rfl
          · have htight' : (grammar.production r).tight = true := htight
            rw [if_pos htight'] at hcs
            exact hcs
          · exact hcs
        · have hempty : pruneAll cs = [] := hempty
          rw [hempty] at hinside
          exact Rule.not_inside_nil hfold hinside
      intro p hp
      split at hp
      · cases List.mem_singleton.mp hp
        exact .node hsound hevery
      · exact hevery p hp

def Peg.Pair.isStored (p : Pair Rule) : Bool :=
  match p.rule.selection with
  | .discard => false
  | .fold => (pruneAll p.children).length ≠ 1
  | .store => true

def Peg.Pair.pruned (p : Pair Rule) : Pair Rule :=
  .node p.rule p.start p.stop (pruneAll p.children)

theorem prune_of_isStored {p : Pair Rule} (h : p.isStored = true) : prune p = some p.pruned := by
  obtain ⟨r, start, stop, cs⟩ := p
  simp only [Pair.isStored, Pair.rule_node, Pair.children_node] at h
  rw [prune]
  cases hselection : r.selection with
  | discard =>
      rw [hselection] at h
      cases h
  | store => rfl
  | fold =>
      rw [hselection] at h
      have hmany : (pruneAll cs).length ≠ 1 := of_decide_eq_true h
      simp only [Selection.apply, Pair.pruned, Pair.children_node]
      rcases hkept : pruneAll cs with _ | ⟨_, _ | ⟨_, _⟩⟩
      · rfl
      · simp [hkept] at hmany
      · rfl

theorem prune_of_not_isStored {p : Pair Rule} (hp : p.Sound) (h : p.isStored = false) :
    (prune p).toList = pruneAll p.children := by
  obtain ⟨r, start, stop, cs⟩ := p
  simp only [Pair.isStored, Pair.rule_node, Pair.children_node] at h
  rw [prune]
  cases hselection : r.selection with
  | discard =>
      have hcs : cs = [] := hp.discard hselection
      rw [hcs]
      rfl
  | store =>
      rw [hselection] at h
      exact nomatch h
  | fold =>
      rw [hselection] at h
      have hone : (pruneAll cs).length = 1 := not_not.mp (of_decide_eq_false h)
      obtain ⟨only, honly⟩ := List.length_eq_one_iff.mp hone
      rw [Pair.children_node, honly]
      rfl

mutual

theorem length_prune {p : Pair Rule} (hp : p.Every Pair.Sound) :
    (prune p).toList.length = (p.outermost Pair.isStored).length := by
  obtain ⟨r, start, stop, cs⟩ := p
  cases hp with
  | node hsound hcs =>
      rw [Pair.outermost]
      split
      · next h =>
          rw [prune_of_isStored h]
          rfl
      · next h =>
          rw [prune_of_not_isStored hsound (Bool.not_eq_true _ ▸ h)]
          exact length_pruneAll hcs

theorem length_pruneAll {ps : List (Pair Rule)} (hps : ∀ p ∈ ps, p.Every Pair.Sound) :
    (pruneAll ps).length = (Pair.outermostAll Pair.isStored ps).length := by
  cases ps with
  | nil => rfl
  | cons p ps =>
      rw [List.forall_mem_cons] at hps
      rw [pruneAll_cons, Pair.outermostAll, List.length_append, List.length_append,
        length_prune hps.1, length_pruneAll hps.2]

end

/-- The lines of the pairs that stay, without those that do not. -/
def Peg.Pair.storedLines (stored : Pair Rule → Bool) (lines : List (List (Pair Rule))) :
    List (List (Rule × Nat × Nat)) :=
  (lines.filter fun line => line.head?.any stored).map fun line =>
    (line.filter stored).map Pair.label

theorem Peg.Pair.storedLines_cons (stored : Pair Rule → Bool) (p : Pair Rule)
    (around : List (Pair Rule)) (others : List (List (Pair Rule))) :
    storedLines stored ((p :: around) :: others) =
      if stored p then (p.label :: (around.filter stored).map label) :: storedLines stored others
      else storedLines stored others := by
  cases h : stored p <;> simp [storedLines, h]

theorem Peg.Pair.storedLines_append (stored : Pair Rule → Bool)
    (lines others : List (List (Pair Rule))) :
    storedLines stored (lines ++ others) =
      storedLines stored lines ++ storedLines stored others := by
  simp only [storedLines, List.filter_append, List.map_append]

theorem Peg.Pair.heads_storedLines (stored : Pair Rule → Bool)
    (lines : List (List (Pair Rule))) :
    (storedLines stored lines).filterMap List.head? =
      ((lines.filterMap List.head?).filter stored).map label := by
  induction lines with
  | nil => rfl
  | cons line lines ih =>
      cases line with
      | nil => exact ih
      | cons p around =>
          rw [storedLines_cons, List.filterMap_cons, List.head?_cons, List.filter_cons]
          split
          · rw [List.filterMap_cons, List.head?_cons, List.map_cons, ih]
          · exact ih

mutual

theorem lines_prune {p : Pair Rule} (hp : p.Every Pair.Sound) {around around' : List (Pair Rule)}
    (h : around'.map Pair.label = (around.filter Pair.isStored).map Pair.label) :
    (Pair.linesAll around' (prune p).toList).map (List.map Pair.label) =
      Pair.storedLines Pair.isStored (p.lines around) := by
  obtain ⟨r, start, stop, cs⟩ := p
  cases hp with
  | node hsound hcs =>
      rw [Pair.lines, Pair.storedLines_cons]
      split
      · next hstored =>
          rw [prune_of_isStored hstored, ← h, Option.toList_some, Pair.linesAll, Pair.linesAll,
            List.append_nil, Pair.pruned, Pair.lines, List.map_cons]
          refine congrArg (_ :: ·) (linesAll_pruneAll hcs ?_)
          rw [List.filter_cons_of_pos hstored, List.map_cons, List.map_cons, h]
          rfl
      · next hstored =>
          have hstored := Bool.eq_false_iff.mpr hstored
          rw [prune_of_not_isStored hsound hstored]
          refine linesAll_pruneAll hcs ?_
          rw [List.filter_cons_of_neg (by rw [hstored]; exact Bool.false_ne_true), h]

theorem linesAll_pruneAll {ps : List (Pair Rule)} (hps : ∀ p ∈ ps, p.Every Pair.Sound)
    {around around' : List (Pair Rule)}
    (h : around'.map Pair.label = (around.filter Pair.isStored).map Pair.label) :
    (Pair.linesAll around' (pruneAll ps)).map (List.map Pair.label) =
      Pair.storedLines Pair.isStored (Pair.linesAll around ps) := by
  cases ps with
  | nil => rfl
  | cons p ps =>
      rw [List.forall_mem_cons] at hps
      rw [pruneAll_cons, Pair.linesAll_append, List.map_append, lines_prune hps.1 h,
        linesAll_pruneAll hps.2 h, Pair.linesAll, Pair.storedLines_append]

end

/-- A node that could have been folded has several children, and no node is of a rule that is
discarded. -/
structure Peg.Pair.Kept (p : Pair Rule) : Prop where
  fold : p.rule.selection = .fold → 2 ≤ p.children.length
  discard : p.rule.selection ≠ .discard

theorem isStored_iff {p : Pair Rule} (hp : p.Sound) :
    p.isStored = true ↔ p.rule.selection = .store ∨
      p.rule.selection = .fold ∧ 2 ≤ (pruneAll p.children).length := by
  unfold Pair.isStored
  cases hselection : p.rule.selection with
  | discard => simp
  | store => simp
  | fold =>
      have hpos := List.length_pos_iff.mpr (hp.fold hselection)
      constructor
      · intro h
        have hmany : (pruneAll p.children).length ≠ 1 := of_decide_eq_true h
        exact .inr ⟨rfl, by omega⟩
      · rintro (h | ⟨-, h⟩)
        · exact nomatch h
        · exact decide_eq_true (by omega)

theorem kept_of_prune {p : Pair Rule} (hp : p.Every Pair.Sound) {q : Pair Rule}
    (hq : prune p = some q) : q.Every Pair.Kept := by
  induction hp generalizing q with
  | @node r start stop cs hsound _ ih =>
      have hcs : ∀ c ∈ pruneAll cs, c.Every Pair.Kept := by
        intro c hc
        obtain ⟨d, hd, hprune⟩ := mem_pruneAll.mp hc
        exact ih d hd hprune
      cases hstored : Pair.isStored (.node r start stop cs) with
      | true =>
          rw [prune_of_isStored hstored] at hq
          cases hq
          refine .node ⟨fun hfold => ?_, fun hdiscard => ?_⟩ hcs
          · rcases (isStored_iff hsound).mp hstored with hstore | ⟨-, hmany⟩
            · exact nomatch hfold.symm.trans hstore
            · exact hmany
          · rcases (isStored_iff hsound).mp hstored with hstore | ⟨hfold, -⟩
            · exact nomatch hdiscard.symm.trans hstore
            · exact nomatch hdiscard.symm.trans hfold
      | false =>
          have hpruned := prune_of_not_isStored hsound hstored
          rw [hq] at hpruned
          have hmem : q ∈ pruneAll cs := by
            rw [← show [q] = pruneAll cs from hpruned]
            exact List.mem_singleton_self q
          exact hcs q hmem

/-- A tree is its match without the pairs that are not stored. -/
structure Tree.Prunes (t : Tree) (raw : Pair Rule) (stored : Pair Rule → Bool) : Prop where
  stores : (raw.preorder.filter (·.rule.selection = .store)).map Pair.label =
    (t.nodes.filter (·.rule.selection = .store)).map Node.label
  folds : ∀ n ∈ t.nodes, n.rule.selection = .fold → 2 ≤ n.children.length
  discards : ∀ n ∈ t.nodes, n.rule.selection ≠ .discard
  /-- What remains of a pair right below it are the outermost stored pairs inside it. -/
  stored_iff : ∀ p ∈ raw.preorder, stored p = true ↔ p.rule.selection = .store ∨
    p.rule.selection = .fold ∧ 2 ≤ (Pair.outermostAll stored p.children).length
  /-- Each node, with all nodes above it, is a stored pair with the stored pairs around it. -/
  lines : (t.root.lines []).map (List.map Node.label) = Pair.storedLines stored (raw.lines [])

theorem Tree.labels_of_lines {t : Tree} {raw : Pair Rule} {stored : Pair Rule → Bool}
    (h : (t.root.lines []).map (List.map Node.label) = Pair.storedLines stored (raw.lines [])) :
    t.nodes.map Node.label = (raw.preorder.filter stored).map Pair.label := by
  have hheads := congrArg (List.filterMap List.head?) h
  rw [Pair.heads_storedLines, Pair.heads_lines, List.filterMap_map] at hheads
  rw [nodes_eq_preorder, ← hheads, ← Node.heads_lines [] t.root, List.map_filterMap]
  congr 1
  funext line
  exact List.head?_map.symm

theorem Tree.stores_of_labels {t : Tree} {raw : Pair Rule}
    (h : t.nodes.map Node.label = (raw.preorder.filter Pair.isStored).map Pair.label) :
    (raw.preorder.filter (·.rule.selection = .store)).map Pair.label =
      (t.nodes.filter (·.rule.selection = .store)).map Node.label := by
  have hstores := congrArg (List.filter fun l => decide (l.1.selection = .store)) h
  rw [List.filter_map, List.filter_map, List.filter_filter] at hstores
  refine Eq.trans ?_ hstores.symm
  congr 1
  refine List.filter_congr fun p _ => ?_
  change _ = (decide (p.rule.selection = .store) && p.isStored)
  by_cases hstore : p.rule.selection = .store
  · simp [Pair.isStored, hstore]
  · simp [hstore]

/-- The nodes of a source are the stored pairs of its match. -/
theorem Tree.prunes_of_parse {source : Source} {t : Tree} (h : Tree.parse source = .ok t) :
    ∃ raw stored, Rule.file.match? source = .ok [raw] ∧ t.Prunes raw stored := by
  obtain ⟨raw, after, q, hanswer, hprune, rfl⟩ := Tree.isOf_of_parse h
  obtain ⟨depth, hleaves⟩ := Grammar.answer_yields hanswer (.ofText source)
  have hsound := sound_of_leaves hleaves raw (List.mem_singleton_self raw)
  have hkept := kept_of_prune hsound hprune
  have hmatch : Rule.file.match? source = .ok [raw] := by
    rw [Rule.match?, reply_eq_answer, hanswer]
-- A line is a pair with those around it: lines are pruned as the pairs are.
  have hlines : ((Node.ofPair source 0 q).lines []).map (List.map Node.label) =
      Pair.storedLines Pair.isStored (raw.lines []) := by
    have hraw : (Pair.linesAll [] (prune raw).toList).map (List.map Pair.label) =
        Pair.storedLines Pair.isStored (raw.lines []) := lines_prune hsound rfl
    rw [← hraw, hprune, Option.toList_some, Pair.linesAll, Pair.linesAll, List.append_nil]
    exact Node.lines_ofPair source 0 q rfl
  refine ⟨raw, Pair.isStored, hmatch, ?_⟩
  refine
    { stores := ?_
      folds := fun n hn hfold => ?_
      discards := fun n hn => ?_
      stored_iff := fun p hp => ?_
      lines := hlines }
  · exact Tree.stores_of_labels (Tree.labels_of_lines (t := ⟨source, .ofPair source 0 q⟩) hlines)
  · obtain ⟨p, next, hp, rfl⟩ := Node.exists_pair_of_mem_preorder hkept (mem_nodes.mp hn)
    rw [Node.rule_ofPair] at hfold
    rw [← List.length_map (f := Node.rule), Node.children_ofPair, Node.rules_ofPairs, List.length_map]
    exact hp.fold hfold
  · obtain ⟨p, next, hp, rfl⟩ := Node.exists_pair_of_mem_preorder hkept (mem_nodes.mp hn)
    rw [Node.rule_ofPair]
    exact hp.discard
  · have hevery := hsound.of_mem_preorder hp
    obtain ⟨r, start, stop, cs⟩ := p
    cases hevery with
    | node hp hcs =>
        rw [isStored_iff hp, Pair.children_node, length_pruneAll hcs]

/-- Of the fifty-one pairs of a product with a sum in parentheses, fourteen are stored. -/
theorem Tree.prunes_of_parse_product :
    ∃ t raw stored, Tree.parse "const a:T=(b+c)*d;".toList = .ok t ∧
      Rule.file.match? "const a:T=(b+c)*d;".toList = .ok [raw] ∧ t.Prunes raw stored ∧
      t.size = 14 ∧ raw.preorder.length = 51 := by
  have hsize : (Tree.parse "const a:T=(b+c)*d;".toList).toOption.map Tree.size = some 14 := by
    decide +kernel
  have hpairs : (Rule.file.match? "const a:T=(b+c)*d;".toList).toOption.map
      (fun ps => ps.map fun p => p.preorder.length) = some [51] := by
    decide +kernel
  obtain ⟨t, h, hsize⟩ := Tree.exists_parse_of_map hsize
  obtain ⟨raw, stored, hmatch, hprunes⟩ := Tree.prunes_of_parse h
  rw [hmatch] at hpairs
  exact ⟨t, raw, stored, h, hmatch, hprunes, hsize, (List.cons.inj (Option.some.inj hpairs)).1⟩

end XiFront

import Mathlib.Data.List.Pairwise
import XiFront.Proofs.Grammar.Items
import XiFront.Proofs.Tree.Extent

namespace XiFront

open Peg

theorem Selection.apply_laid {r : Rule} {start stop : Nat} {kept : List (Pair Rule)}
    (h : Pair.Laid start stop kept) (s : Selection) :
    Pair.Laid start stop (s.apply r start stop kept).toList := by
  have hnode : Pair.Laid start stop [.node r start stop kept] :=
    .cons (Nat.le_refl _) h (.nil (Nat.le_refl _))
  cases s with
  | discard => exact .nil h.le
  | store => exact hnode
  | fold =>
      match kept with
      | [] => exact hnode
      | [_] => exact h
      | _ :: _ :: _ => exact hnode

namespace Peg.Pair

theorem Laid.pruneAll {a b : Nat} {ps : List (Pair Rule)} (h : Laid a b ps) :
    Laid a b (pruneAll ps) := by
  induction h with
  | nil h => exact .nil h
  | cons h _ _ ihcs ihps =>
      rw [pruneAll_cons, prune]
      apply Laid.append _ ihps
      exact (Selection.apply_laid ihcs _).widen h (Nat.le_refl _)

def Nests (p : Pair ρ) : Prop :=
  Laid p.start p.stop p.children

theorem Laid.nests {a b : Nat} {ps : List (Pair ρ)} (h : Laid a b ps) :
    ∀ p ∈ ps, p.Every Nests := by
  induction h with
  | nil _ => exact nofun
  | cons _ hcs _ ihcs ihps => exact List.forall_mem_cons.mpr ⟨.node hcs ihcs, ihps⟩

end Peg.Pair

namespace Node

theorem spans_ofPairs {a b : Nat} {ps : List (Pair Rule)} (h : Pair.Laid a b ps)
    (source : Source) (next : Nat) :
    (∀ n ∈ (ofPairs source next ps).1, a ≤ n.start ∧ n.stop ≤ b) ∧
      (ofPairs source next ps).1.Pairwise fun m n => m.stop ≤ n.start := by
  induction ps generalizing a next with
  | nil => exact ⟨nofun, .nil⟩
  | cons p ps ih =>
      cases h with
      | cons h hcs hps =>
          rw [ofPairs_cons]
          obtain ⟨hinside, hordered⟩ := ih hps _
          refine ⟨List.forall_mem_cons.mpr ⟨⟨h, hps.le⟩, fun n hn => ?_⟩, .cons ?_ hordered⟩
          · have hafter := Nat.le_trans h (Nat.le_trans hcs.le (hinside n hn).1)
            exact ⟨hafter, (hinside n hn).2⟩
          · intro n hn
            exact (hinside n hn).1

mutual

theorem children_perm (n : Node) :
    (n.preorder.flatMap Node.children).Perm (preorderAll n.children) := by
  obtain ⟨id, r, start, stop, position, children⟩ := n
  rw [preorder_eq, List.flatMap_cons]
  exact childrenAll_perm children

theorem childrenAll_perm (ns : List Node) :
    (ns ++ (preorderAll ns).flatMap Node.children).Perm (preorderAll ns) := by
  cases ns with
  | nil => exact .refl _
  | cons c ns =>
      have hc := children_perm c
      have hns := childrenAll_perm ns
      rw [preorderAll_cons, List.flatMap_append]
      calc c :: ns ++ (c.preorder.flatMap Node.children ++
            (preorderAll ns).flatMap Node.children)
          _ |>.Perm (c.preorder.flatMap Node.children ++ c :: ns ++
              (preorderAll ns).flatMap Node.children) := by
            rw [← List.append_assoc]
            exact List.perm_append_comm.append_right _
          _ |>.Perm (c :: (c.preorder.flatMap Node.children ++
              (ns ++ (preorderAll ns).flatMap Node.children))) := by
            rw [List.append_assoc]
            exact List.perm_middle
          _ |>.Perm (c :: (preorderAll c.children ++ preorderAll ns)) :=
            .cons c (hc.append hns)
          _ = c.preorder ++ preorderAll ns := by rw [preorder_eq, List.cons_append]

end

theorem count_child_ofPair (source : Source) (p : Pair Rule) {id : Nat}
    (h : id < (ofPair source 0 p).id) :
    ((ofPair source 0 p).preorder.flatMap fun n => n.children.map Node.id).count id = 1 := by
  have hlast := id_ofPair source 0 p
  have hnodup := nodup_ids_ofPair source 0 p
  have hmem : id ∈ (ofPair source 0 p).preorder.map Node.id := by
    rw [(ids_ofPair source 0 p).mem_iff, List.mem_range'_1]
    omega
  rw [preorder_eq, List.map_cons] at hnodup hmem
  have hbelow := (List.mem_cons.mp hmem).resolve_left (Nat.ne_of_lt h)
  have hperm := (children_perm (ofPair source 0 p)).map Node.id
  rw [List.map_flatMap] at hperm
  rw [hperm.count_eq]
  exact List.count_eq_one_of_mem hnodup.of_cons hbelow

end Node

theorem Rule.isEmpty_of_inside {r x : Rule} {l : List Rule} (h : Inside r l)
    (hlayout : Layout r l) (hx : x ∈ l) : x.isEmpty = false := by
  have hall : ∀ r ∈ all, admits r file = false ∧ (admits r endOfInput = true → r = file) := by
    decide +kernel
  obtain ⟨hfile, hend⟩ := hall r r.mem_all
  have hadmits := admits_of_inside h hx
  cases x
  case file => exact nomatch hadmits.symm.trans hfile
  case endOfInput =>
    cases hend hadmits
    exact nomatch hlayout endOfInput hx
  all_goals rfl

theorem Tree.WellFormed.not_isEmpty {t : Tree} (h : t.WellFormed) {n : Node} (hn : n ∈ t.nodes)
    (hne : n ≠ t.root) : n.rule.isEmpty = false := by
  obtain ⟨p, hp, hchild⟩ := Node.exists_parent (Tree.mem_nodes.mp hn) hne
  have hformed := h.formed p hp
  exact Rule.isEmpty_of_inside hformed.inside hformed.layout (List.mem_map_of_mem hchild)

theorem Peg.Grammar.Matched.exists_text {source : Source} {r : Rule} {start stop : Nat}
    {cs : List (Pair Rule)} (h : grammar.Matched source r start stop cs)
    (hr : r.isEmpty = false) : ∃ before text after,
      source = before ++ text ++ after ∧ text ≠ [] ∧ start < stop ∧
        start = Source.byteLength before ∧ stop = Source.byteLength (before ++ text) := by
  obtain ⟨before, c, c', hanswer, hreads, hsource, hstart, hstop⟩ := h.reads
  obtain ⟨s, hs, hne⟩ := answer_reads_something (ranking.nullable_body r hr) hanswer
  rw [hreads.unique hs] at hsource hstop
  refine ⟨before, s, c'.rest, hsource.trans (List.append_assoc ..).symm, hne, ?_, hstart, hstop⟩
  obtain ⟨x, xs, rfl⟩ := List.exists_cons_of_ne_nil hne
  have hpos := x.utf8Size_pos
  rw [hstart, hstop, Source.byteLength_append, Source.byteLength_cons]
  omega

namespace Tree

structure Arena (t : Tree) : Prop where
  last : t.root.id + 1 = t.size
  whole : t.root.start = 0 ∧ t.root.stop = Source.byteLength t.source
  interval : ∀ n ∈ t.nodes, ∃ first, n.id + 1 = first + n.size ∧
    (n.preorder.map Node.id).Perm (List.range' first n.size)
  below : ∀ n ∈ t.nodes, ∀ c ∈ n.children, c.id < n.id
  /-- Of all the children of all nodes, one has this number. -/
  once : ∀ id < t.size, id ≠ t.root.id →
    (t.nodes.flatMap fun n => n.children.map Node.id).count id = 1
  /-- The span of a node is a piece of the text, cut between characters. -/
  spelled : ∀ n ∈ t.nodes, n ≠ t.root → ∃ before text after,
    t.source = before ++ text ++ after ∧ text ≠ [] ∧ n.start < n.stop ∧
      n.start = Source.byteLength before ∧ n.stop = Source.byteLength (before ++ text)
  nested : ∀ n ∈ t.nodes, ∀ c ∈ n.children, n.start ≤ c.start ∧ c.stop ≤ n.stop
  ordered : ∀ n ∈ t.nodes, n.children.Pairwise fun c d => c.stop ≤ d.start
  /-- However many steps the walk is given, it takes as many as there are nodes and stops. -/
  walked : ∀ steps, Walk.take steps ⟨[t.root]⟩ = t.root.preorder.take steps
  counted : t.root.preorder.length = t.size

theorem nests_of_parse {source : Source} {t : Tree} (h : Tree.parse source = .ok t) :
    ∃ q : Pair Rule, q.Every Pair.Nests ∧ q.start = 0 ∧ q.stop = Source.byteLength source ∧
      t = ⟨source, .ofPair source 0 q⟩ := by
  obtain ⟨p, after, q, hfile, hq, rfl⟩ := Tree.isOf_of_parse h
  have hlaid := (Grammar.answer_laid hfile).pruneAll
  rw [pruneAll_singleton_iff.mpr hq] at hlaid
  obtain ⟨s, hs⟩ := Grammar.answer_reads hfile
  obtain ⟨c, ps, -, hitems, rfl⟩ := answer_file_iff_items.mp hfile
  have hall : source = s := by
    have hrest := hs.rest
    rwa [hitems.finishes, List.append_nil] at hrest
  have hstop : after.offset = Source.byteLength source := by
    rw [hs.offset, hall]
    exact Nat.zero_add _
  cases Option.some.inj hq
  exact ⟨_, hlaid.nests _ List.mem_cons_self, rfl, hstop, rfl⟩

def Apart (m n : Node) : Prop :=
  m.stop ≤ n.start ∨ n.stop ≤ m.start

instance : Std.Symm Apart :=
  ⟨fun _ _ => Or.symm⟩

section Spans

variable {source : Source} {t : Tree} {m n k : Node}

theorem exists_text_of_parse (h : Tree.parse source = .ok t) (hn : n ∈ t.nodes)
    (hne : n ≠ t.root) : ∃ before text after,
      t.source = before ++ text ++ after ∧ text ≠ [] ∧ n.start < n.stop ∧
        n.start = Source.byteLength before ∧ n.stop = Source.byteLength (before ++ text) := by
  obtain ⟨ht, -⟩ := Tree.wellFormed_of_parse h
  have hfull := ht.not_isEmpty hn hne
  obtain ⟨cs, hmatched⟩ := (ht.formed n (mem_nodes.mp hn)).spelled
  exact hmatched.exists_text hfull

theorem spans_of_parse (h : Tree.parse source = .ok t) (hn : n ∈ t.nodes) :
    (∀ c ∈ n.children, n.start ≤ c.start ∧ c.stop ≤ n.stop) ∧
      n.children.Pairwise fun c d => c.stop ≤ d.start := by
  obtain ⟨q, hq, -, -, rfl⟩ := nests_of_parse h
  obtain ⟨p, next, hp, rfl⟩ := Node.exists_pair_of_mem_preorder hq (mem_nodes.mp hn)
  rw [Node.children_ofPair, Node.start_ofPair, Node.stop_ofPair]
  exact Node.spans_ofPairs hp source next

theorem span_of_mem_preorder (h : Tree.parse source = .ok t) (hn : n ∈ t.nodes)
    (hm : m ∈ n.preorder) : n.start ≤ m.start ∧ m.stop ≤ n.stop := by
  induction n using Node.induction with
  | h n ih =>
      rcases Node.mem_preorder.mp hm with rfl | ⟨c, hc, hm⟩
      · exact ⟨Nat.le_refl _, Nat.le_refl _⟩
      · obtain ⟨hstart, hstop⟩ := (spans_of_parse h hn).1 c hc
        obtain ⟨hstart', hstop'⟩ := ih c hc (child_mem_nodes hn hc) hm
        exact ⟨Nat.le_trans hstart hstart', Nat.le_trans hstop' hstop⟩

theorem apart_of_parse (h : Tree.parse source = .ok t) (hk : k ∈ t.nodes) (hm : m ∈ k.preorder)
    (hn : n ∈ k.preorder) : m ∈ n.preorder ∨ n ∈ m.preorder ∨ Apart m n := by
  induction k using Node.induction with
  | h k ih =>
      rcases Node.mem_preorder.mp hm with rfl | ⟨c, hc, hmc⟩
      · exact .inr (.inl hn)
      rcases Node.mem_preorder.mp hn with rfl | ⟨d, hd, hnd⟩
      · exact .inl hm
      by_cases hcd : c = d
      · subst hcd
        exact ih c hc (child_mem_nodes hk hc) hmc hnd
      · have hordered : k.children.Pairwise Apart := (spans_of_parse h hk).2.imp .inl
        have hspan := span_of_mem_preorder h (child_mem_nodes hk hc) hmc
        have hspan' := span_of_mem_preorder h (child_mem_nodes hk hd) hnd
        refine .inr (.inr ((hordered.forall hc hd hcd).imp (fun hle => ?_) fun hle => ?_))
        · exact Nat.le_trans hspan.2 (Nat.le_trans hle hspan'.1)
        · exact Nat.le_trans hspan'.2 (Nat.le_trans hle hspan.1)

theorem eq_of_start (h : Tree.parse source = .ok t) (hm : m ∈ t.nodes) (hn : n ∈ t.nodes)
    (hmr : m.rule.isToken = true) (hnr : n.rule.isToken = true) (hstart : m.start = n.start) :
    m = n := by
  obtain ⟨ht, -⟩ := Tree.wellFormed_of_parse h
  have htoken {k : Node} (hk : k ∈ t.nodes) (hkr : k.rule.isToken = true) :
      k.preorder = [k] ∧ k.start < k.stop := by
    have hformed := ht.formed k (mem_nodes.mp hk)
    have hinside := hformed.inside
    rw [Rule.Inside, if_pos (Rule.tight_of_isToken hkr), List.map_eq_nil_iff] at hinside
    obtain ⟨cs, hmatched⟩ := hformed.spelled
    obtain ⟨-, -, -, -, -, hlt, -, -⟩ := hmatched.exists_text (Rule.not_isEmpty_of_isToken hkr)
    rw [Node.preorder_eq, hinside]
    exact ⟨rfl, hlt⟩
  obtain ⟨hmleaf, hmlt⟩ := htoken hm hmr
  obtain ⟨hnleaf, hnlt⟩ := htoken hn hnr
  rcases apart_of_parse h (mem_nodes.mpr t.root.self_mem_preorder) (mem_nodes.mp hm)
    (mem_nodes.mp hn) with hmn | hnm | hle | hle
  · rw [hnleaf] at hmn
    exact List.mem_singleton.mp hmn
  · rw [hmleaf] at hnm
    exact (List.mem_singleton.mp hnm).symm
  · omega
  · omega

end Spans

theorem arena_of_parse {source : Source} {t : Tree} (h : Tree.parse source = .ok t) :
    t.source = source ∧ t.Arena := by
  have hspelled {n : Node} (hn : n ∈ t.nodes) (hne : n ≠ t.root) := exists_text_of_parse h hn hne
  have hspans {n : Node} (hn : n ∈ t.nodes) := spans_of_parse h hn
  obtain ⟨ht, hsource⟩ := Tree.wellFormed_of_parse h
  obtain ⟨q, -, hstart, hstop, rfl⟩ := nests_of_parse h
  have hlast := Node.id_ofPair source 0 q
  rw [Nat.zero_add] at hlast
  refine ⟨rfl, ?_⟩
  refine
    { last := hlast
      whole := ⟨(Node.start_ofPair ..).trans hstart, (Node.stop_ofPair ..).trans hstop⟩
      interval := fun n hn => ?_
      below := fun n hn c hc => ht.child_lt hn hc
      once := fun id hid hne => ?_
      spelled := fun n hn hne => hspelled hn hne
      nested := fun n hn => (hspans hn).1
      ordered := fun n hn => (hspans hn).2
      walked := fun steps => Walk.take_eq_take_preorder steps _
      counted := Node.length_preorder _ }
  · obtain ⟨p, next, -, rfl⟩ := Node.exists_pair_of_mem_preorder q.every_true (mem_nodes.mp hn)
    exact ⟨next, Node.id_ofPair source next p, Node.ids_ofPair source next p⟩
  · rw [Tree.nodes_eq_preorder]
    have hsize : id < (Node.ofPair source 0 q).size := hid
    have hroot : id ≠ (Node.ofPair source 0 q).id := hne
    exact Node.count_child_ofPair source q (by omega)

/-- A sum in parentheses, the first operand of which has a character of two bytes. -/
theorem arena_of_parse_sum :
    ∃ t, Tree.parse "const a:T=('é'+b);".toList = .ok t ∧ t.Arena ∧ t.size = 11 := by
  have hsize : (Tree.parse "const a:T=('é'+b);".toList).toOption.map Tree.size = some 11 := by
    decide +kernel
  obtain ⟨t, h, hsize⟩ := exists_parse_of_map hsize
  exact ⟨t, h, (arena_of_parse h).2, hsize⟩

end Tree

end XiFront

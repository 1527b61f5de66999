import XiFront.Tree

namespace XiFront

open Peg

namespace Node

theorem induction {P : Node → Prop} (h : ∀ n, (∀ c ∈ n.children, P c) → P n) (n : Node) :
    P n := by
  obtain ⟨id, r, start, stop, position, children⟩ := n
  refine h _ fun c hc => ?_
  have : sizeOf c < sizeOf children := List.sizeOf_lt_of_mem hc
  exact induction h c
termination_by sizeOf n
decreasing_by
  simp only [Node.mk.sizeOf_spec]
  omega

theorem mem_preorderAll {m : Node} {ns : List Node} :
    m ∈ preorderAll ns ↔ ∃ n ∈ ns, m ∈ n.preorder := by
  induction ns with
  | nil => simp
  | cons n ns ih => simp [ih]

theorem preorderAll_append (ms ns : List Node) :
    preorderAll (ms ++ ns) = preorderAll ms ++ preorderAll ns := by
  induction ms with
  | nil => rfl
  | cons m ms ih => simp [ih]

theorem sizeAll_append (ms ns : List Node) : sizeAll (ms ++ ns) = sizeAll ms + sizeAll ns := by
  induction ms with
  | nil => exact (Nat.zero_add _).symm
  | cons m ms ih => rw [List.cons_append, sizeAll_cons, sizeAll_cons, ih, Nat.add_assoc]

theorem mem_preorder {m n : Node} :
    m ∈ n.preorder ↔ m = n ∨ ∃ c ∈ n.children, m ∈ c.preorder := by
  rw [preorder_eq, List.mem_cons, mem_preorderAll]

theorem self_mem_preorder (n : Node) : n ∈ n.preorder :=
  mem_preorder.mpr (.inl rfl)

theorem child_mem_preorder {c n : Node} (h : c ∈ n.children) : c ∈ n.preorder :=
  mem_preorder.mpr (.inr ⟨c, h, c.self_mem_preorder⟩)

theorem preorder_trans {k m n : Node} (h : k ∈ m.preorder) (h' : m ∈ n.preorder) :
    k ∈ n.preorder := by
  induction n using induction with
  | h n ih =>
      rcases mem_preorder.mp h' with rfl | ⟨c, hc, hm⟩
      · exact h
      · exact mem_preorder.mpr (.inr ⟨c, hc, ih c hc hm⟩)

theorem exists_parent {m n : Node} (h : m ∈ n.preorder) (hne : m ≠ n) :
    ∃ p ∈ n.preorder, m ∈ p.children := by
  induction n using induction with
  | h n ih =>
      obtain ⟨c, hc, hm⟩ := (mem_preorder.mp h).resolve_left hne
      by_cases hmc : m = c
      · exact ⟨n, n.self_mem_preorder, hmc ▸ hc⟩
      · obtain ⟨p, hp, hchild⟩ := ih c hc hm hmc
        exact ⟨p, preorder_trans hp (child_mem_preorder hc), hchild⟩

mutual

theorem length_preorder (n : Node) : n.preorder.length = n.size := by
  obtain ⟨id, r, start, stop, position, children⟩ := n
  rw [preorder_eq, size_eq, List.length_cons, length_preorderAll]

theorem length_preorderAll (ns : List Node) : (preorderAll ns).length = sizeAll ns := by
  cases ns with
  | nil => rfl
  | cons n ns =>
      rw [preorderAll_cons, List.length_append, sizeAll_cons, length_preorder, length_preorderAll]

end

mutual

/-- The node of a pair, as if numbers never ran out. -/
def ofPair (source : Source) (next : Nat) : Pair Rule → Node
  | .node r start stop pairs =>
      match ofPairs source next pairs with
      | (children, id) => ⟨id, r, start, stop, .ofOffset source start, children⟩

def ofPairs (source : Source) (next : Nat) : List (Pair Rule) → List Node × Nat
  | [] => ([], next)
  | p :: ps =>
      let n := ofPair source next p
      match ofPairs source (n.id + 1) ps with
      | (ns, after) => (n :: ns, after)

end

mutual

/-- Numbers are given as long as there are any; the error is at the first node without one. -/
theorem number_cases (source : Source) {next : Nat} (hnext : next ≤ limit) (p : Pair Rule) :
    ((ofPair source next p).id < limit ∧
        number source next p = .ok (ofPair source next p, (ofPair source next p).id + 1)) ∨
      ∃ n ∈ (ofPair source next p).preorder, n.id = limit ∧
        number source next p = .error n.excess := by
  obtain ⟨r, start, stop, ps⟩ := p
  rcases numberAll_cases source hnext ps with ⟨hle, hps⟩ | ⟨n, hn, hid, hps⟩
  · rcases Nat.lt_or_eq_of_le hle with hlt | heq
    · refine .inl ⟨hlt, ?_⟩
      rw [number, hps]
      exact if_pos hlt
    · refine .inr ⟨_, self_mem_preorder _, heq, ?_⟩
      rw [number, hps]
      exact if_neg (Nat.not_lt_of_le (Nat.le_of_eq heq.symm))
  · refine .inr ⟨n, ?_, hid, ?_⟩
    · rw [preorder_eq]
      exact List.mem_cons_of_mem _ hn
    · rw [number, hps]
      rfl

theorem numberAll_cases (source : Source) {next : Nat} (hnext : next ≤ limit)
    (ps : List (Pair Rule)) :
    ((ofPairs source next ps).2 ≤ limit ∧
        numberAll source next ps = .ok (ofPairs source next ps)) ∨
      ∃ n ∈ preorderAll (ofPairs source next ps).1, n.id = limit ∧
        numberAll source next ps = .error n.excess := by
  cases ps with
  | nil => exact .inl ⟨hnext, rfl⟩
  | cons p ps =>
      rcases number_cases source hnext p with ⟨hlt, hp⟩ | ⟨n, hn, hid, hp⟩
      · rcases numberAll_cases source hlt ps with ⟨hle, hps⟩ | ⟨n, hn, hid, hps⟩
        · refine .inl ⟨hle, ?_⟩
          simp only [numberAll, hp, bind, Except.bind, hps, pure, Except.pure]
          rfl
        · refine .inr ⟨n, List.mem_append_right _ hn, hid, ?_⟩
          simp only [numberAll, hp, bind, Except.bind, hps]
      · refine .inr ⟨n, List.mem_append_left _ hn, hid, ?_⟩
        rw [numberAll, hp]
        rfl

end

def numbers (ns : List Node) : List Nat :=
  (preorderAll ns).map Node.id

mutual

theorem id_ofPair (source : Source) (next : Nat) (p : Pair Rule) :
    (ofPair source next p).id + 1 = next + (ofPair source next p).size := by
  obtain ⟨r, start, stop, ps⟩ := p
  rw [size_eq]
  have h := next_ofPairs source next ps
  simp only [ofPair]
  omega

theorem next_ofPairs (source : Source) (next : Nat) (ps : List (Pair Rule)) :
    (ofPairs source next ps).2 = next + sizeAll (ofPairs source next ps).1 := by
  cases ps with
  | nil => rfl
  | cons p ps =>
      have hp := id_ofPair source next p
      have hps := next_ofPairs source ((ofPair source next p).id + 1) ps
      simp only [ofPairs, sizeAll_cons]
      omega

end

mutual

theorem ids_ofPair (source : Source) (next : Nat) (p : Pair Rule) :
    ((ofPair source next p).preorder.map Node.id).Perm
      (List.range' next (ofPair source next p).size) := by
  obtain ⟨r, start, stop, ps⟩ := p
  have hlast := next_ofPairs source next ps
  have hps := ids_ofPairs source next ps
  rw [preorder_eq, size_eq, List.range'_concat, Nat.one_mul, List.map_cons]
  simp only [ofPair]
  rw [hlast]
  exact (List.Perm.cons _ hps).trans (List.perm_append_singleton _ _).symm

theorem ids_ofPairs (source : Source) (next : Nat) (ps : List (Pair Rule)) :
    (numbers (ofPairs source next ps).1).Perm
      (List.range' next (sizeAll (ofPairs source next ps).1)) := by
  cases ps with
  | nil => exact .refl _
  | cons p ps =>
      have hid := id_ofPair source next p
      have hp := ids_ofPair source next p
      have hps := ids_ofPairs source ((ofPair source next p).id + 1) ps
      simp only [ofPairs, numbers, preorderAll_cons, List.map_append, sizeAll_cons]
      rw [← List.range'_append_1, ← hid]
      exact hp.append hps

end

theorem id_lt_of_ofPair {source : Source} {next : Nat} {p : Pair Rule} {m : Node}
    (h : m ∈ preorderAll (ofPair source next p).children) :
    m.id < (ofPair source next p).id := by
  obtain ⟨r, start, stop, ps⟩ := p
  have hm : m.id ∈ numbers (ofPairs source next ps).1 := List.mem_map.mpr ⟨m, h, rfl⟩
  have hrange := (ids_ofPairs source next ps).mem_iff.mp hm
  rw [List.mem_range'_1, ← next_ofPairs] at hrange
  exact hrange.2

theorem nodup_ids_ofPair (source : Source) (next : Nat) (p : Pair Rule) :
    ((ofPair source next p).preorder.map Node.id).Nodup :=
  (ids_ofPair source next p).nodup_iff.mpr List.nodup_range'

@[simp] theorem rule_ofPair (source : Source) (next : Nat) (p : Pair Rule) :
    (ofPair source next p).rule = p.rule := by
  cases p
  rfl

@[simp] theorem start_ofPair (source : Source) (next : Nat) (p : Pair Rule) :
    (ofPair source next p).start = p.start := by
  cases p
  rfl

@[simp] theorem stop_ofPair (source : Source) (next : Nat) (p : Pair Rule) :
    (ofPair source next p).stop = p.stop := by
  cases p
  rfl

@[simp] theorem position_ofPair (source : Source) (next : Nat) (p : Pair Rule) :
    (ofPair source next p).position = .ofOffset source p.start := by
  cases p
  rfl

@[simp] theorem children_ofPair (source : Source) (next : Nat) (p : Pair Rule) :
    (ofPair source next p).children = (ofPairs source next p.children).1 := by
  cases p
  rfl

@[simp] theorem ofPairs_nil (source : Source) (next : Nat) :
    (ofPairs source next []).1 = [] := rfl

@[simp] theorem ofPairs_cons (source : Source) (next : Nat) (p : Pair Rule)
    (ps : List (Pair Rule)) :
    (ofPairs source next (p :: ps)).1 =
      ofPair source next p :: (ofPairs source ((ofPair source next p).id + 1) ps).1 := rfl

theorem ofPairs_append (source : Source) (next : Nat) (ps qs : List (Pair Rule)) :
    (ofPairs source next (ps ++ qs)).1 =
      (ofPairs source next ps).1 ++ (ofPairs source (ofPairs source next ps).2 qs).1 := by
  induction ps generalizing next with
  | nil => rfl
  | cons p ps ih =>
      rw [List.cons_append, ofPairs_cons, ofPairs_cons, ih, List.cons_append]
      rfl

theorem rules_ofPairs (source : Source) (next : Nat) (ps : List (Pair Rule)) :
    (ofPairs source next ps).1.map Node.rule = ps.map Pair.rule := by
  induction ps generalizing next with
  | nil => rfl
  | cons p ps ih => simp [ih]

theorem exists_pair_of_mem {source : Source} {next : Nat} {ps : List (Pair Rule)} {n : Node}
    (h : n ∈ (ofPairs source next ps).1) : ∃ p ∈ ps, ∃ from_, n = ofPair source from_ p := by
  induction ps generalizing next with
  | nil => exact nomatch h
  | cons p ps ih =>
      rcases List.mem_cons.mp h with rfl | h
      · exact ⟨p, List.mem_cons_self, next, rfl⟩
      · obtain ⟨q, hq, hn⟩ := ih h
        exact ⟨q, List.mem_cons_of_mem p hq, hn⟩

end Node

/-- The second node comes after all that is in the first. -/
def Node.Before (c d : Node) : Prop :=
  ∀ x ∈ c.preorder, ∀ y ∈ d.preorder, x.id < y.id

theorem Node.pairwise_ofPairs (source : Source) (next : Nat) (ps : List (Pair Rule)) :
    (ofPairs source next ps).1.Pairwise Node.Before := by
  induction ps generalizing next with
  | nil => exact .nil
  | cons p ps ih =>
      rw [ofPairs_cons]
      refine .cons (fun d hd x hx y hy => ?_) (ih _)
      have hid := id_ofPair source next p
      have hfirst := (ids_ofPair source next p).mem_iff.mp (List.mem_map_of_mem hx)
      have hlater := (ids_ofPairs source ((ofPair source next p).id + 1) ps).mem_iff.mp
        (List.mem_map_of_mem (mem_preorderAll.mpr ⟨d, hd, hy⟩))
      rw [List.mem_range'_1] at hfirst hlater
      omega

/-- A pair and all pairs inside it have a property. -/
inductive Peg.Pair.Every (P : Pair ρ → Prop) : Pair ρ → Prop
  | node {r : ρ} {start stop : Nat} {cs : List (Pair ρ)} (h : P (.node r start stop cs))
      (hcs : ∀ c ∈ cs, Every P c) : Every P (.node r start stop cs)

theorem Node.exists_pair_of_mem_preorder {P : Pair Rule → Prop} {p : Pair Rule}
    (hp : p.Every P) {source : Source} {next : Nat} {n : Node}
    (hn : n ∈ (ofPair source next p).preorder) :
    ∃ q from_, P q ∧ n = ofPair source from_ q := by
  induction hp generalizing next with
  | node h _ ih =>
      rcases mem_preorder.mp hn with rfl | ⟨c, hc, hn⟩
      · exact ⟨_, next, h, rfl⟩
      · rw [children_ofPair] at hc
        obtain ⟨q, hq, from_, rfl⟩ := exists_pair_of_mem hc
        exact ih q hq hn

theorem Peg.Pair.every_true (p : Pair ρ) : p.Every fun _ => True := by
  obtain ⟨r, start, stop, cs⟩ := p
  refine .node trivial fun c hc => ?_
  have : sizeOf c < sizeOf cs := List.sizeOf_lt_of_mem hc
  exact every_true c
termination_by sizeOf p
decreasing_by
  simp only [Pair.node.sizeOf_spec]
  omega

theorem Walk.take_eq_take_preorderAll (steps : Nat) (stack : List Node) :
    Walk.take steps ⟨stack⟩ = (Node.preorderAll stack).take steps := by
  induction steps generalizing stack with
  | zero => rfl
  | succ steps ih =>
      cases stack with
      | nil => rfl
      | cons n ns =>
          simp only [Walk.take, Walk.next?_cons]
          rw [ih, Node.preorderAll_append, Node.preorderAll_cons, Node.preorder_eq,
            List.cons_append, List.take_succ_cons]

theorem Walk.take_eq_take_preorder (steps : Nat) (n : Node) :
    Walk.take steps ⟨[n]⟩ = n.preorder.take steps := by
  rw [take_eq_take_preorderAll, Node.preorderAll_cons, Node.preorderAll_nil, List.append_nil]

theorem Tree.nodes_eq_preorder (t : Tree) : t.nodes = t.root.preorder := by
  rw [Tree.nodes, Walk.take_eq_take_preorder, Tree.size, ← Node.length_preorder, List.take_length]

theorem Node.size_of_child {n c : Node} (h : n.children = [c]) : n.size = c.size + 1 := by
  rw [size_eq, h]
  rfl

theorem Tree.length_nodes (t : Tree) : t.nodes.length = t.size := by
  rw [Tree.nodes_eq_preorder, Node.length_preorder, Tree.size]

theorem Tree.nodes_eq_cons (t : Tree) : t.nodes = t.root :: Node.preorderAll t.root.children := by
  rw [Tree.nodes_eq_preorder, Node.preorder_eq]

end XiFront

import XiFront.Proofs.Lowering.Failure

namespace XiFront

namespace Node

variable {k m n : Node}

theorem mem_reached : m ∈ n.reached ↔ ∃ c ∈ n.referents, m = c ∨ m ∈ c.reached := by
  rw [n.reached_perm.mem_iff, List.mem_flatMap]
  simp only [List.mem_cons]

theorem referents_subset_reached (n : Node) : n.referents ⊆ n.reached :=
  fun c hc => mem_reached.mpr ⟨c, hc, .inl rfl⟩

theorem reached_trans (hm : m ∈ n.reached) (hk : k ∈ m.referents) : k ∈ n.reached := by
  induction n using induction with
  | h n ih =>
      rw [reached, mem_gather] at hm ⊢
      obtain ⟨before, c, after, hchildren, hm⟩ := hm
      refine ⟨before, c, after, hchildren, ?_⟩
      have hc : c ∈ n.children := by simp [hchildren]
      split at hm
      · exact absurd hm List.not_mem_nil
      · next haside =>
          rw [if_neg haside]
          split at hm
          · next hmeaning =>
              rw [if_pos hmeaning]
              rcases List.mem_cons.mp hm with rfl | hm
              · exact List.mem_cons_of_mem m (m.referents_subset_reached hk)
              · exact List.mem_cons_of_mem c (ih c hc hm)
          · next hmeaning =>
              rw [if_neg hmeaning]
              exact ih c hc hm

theorem hasMeaning_of_mem_reached (h : m ∈ n.reached) : m.rule.hasMeaning = true := by
  refine gather_rel (R := fun xs _ _ => ∀ m ∈ xs, m.rule.hasMeaning = true) (g := fun _ _ _ => [])
    (k := fun _ _ _ => []) nofun ?_ ?_ n m h
  · intro xs ys zs xs' ys' zs' h h'
    exact List.forall_mem_append.mpr ⟨h, h'⟩
  · intro aside c h
    split
    · exact nofun
    · split
      · next hc => exact List.forall_mem_cons.mpr ⟨hc, h⟩
      · exact h

end Node

namespace Tree

variable {t : Tree}

namespace WellFormed

variable (ht : t.WellFormed)
include ht

theorem nodup_descendants : (t.root.descendants.map Node.id).Nodup := by
  have hnodup := ht.nodup
  rw [Node.preorder_eq_cons, List.map_cons] at hnodup
  exact (List.nodup_cons.mp hnodup).2

theorem mem_descendants_iff {n : Node} : n ∈ t.root.descendants ↔ n ∈ t.nodes ∧ n ≠ t.root := by
  rw [mem_nodes, Node.preorder_eq_cons, List.mem_cons]
  constructor
  · intro hn
    refine ⟨.inr hn, ?_⟩
    rintro rfl
    have hlt := ht.descendant_lt (mem_nodes.mpr t.root.self_mem_preorder) hn
    exact Nat.lt_irrefl _ hlt
  · rintro ⟨rfl | hn, hne⟩
    · exact absurd rfl hne
    · exact hn

/-- The nodes that are reached from the root are those with a meaning that are not set aside. -/
theorem mem_reached_root_iff {n : Node} : n ∈ t.root.reached ↔
    n ∈ t.nodes ∧ n ≠ t.root ∧ n.rule.hasMeaning = true ∧ ¬t.SetsAside n := by
  rw [← ht.mem_asides_iff, ← and_assoc, ← ht.mem_descendants_iff]
  constructor
  · intro hn
    obtain ⟨l, hperm, hsub⟩ := t.root.reached_asides_subperm
    have hnodup : (t.root.reached ++ t.root.asides).Nodup :=
      hperm.nodup_iff.mp (ht.nodup_descendants.of_map.sublist hsub)
    refine ⟨?_, Node.hasMeaning_of_mem_reached hn, fun haside => ?_⟩
    · exact hsub.subset (hperm.mem_iff.mpr (List.mem_append_left _ hn))
    · exact (List.nodup_append.mp hnodup).2.2 n hn n haside rfl
  · rintro ⟨hn, hmeaning, haside⟩
    exact (Node.mem_reached_or_asides hn hmeaning).resolve_right haside

theorem nodup_references : ((t.nodes.flatMap Node.references).map Node.id).Nodup := by
  have hroot : t.root.references = t.root.referents := by
    rw [Node.references, ht.root]
    rfl
  rw [nodes_eq_preorder, Node.preorder_eq_cons, List.flatMap_cons, hroot]
  obtain ⟨l, hperm, hsub⟩ := t.root.references_subperm
  exact (hperm.map _).nodup_iff.mp (ht.nodup_descendants.sublist (hsub.map _))

end WellFormed

theorem meaning_eq_error {n : Node} (h : n.rule.hasMeaning = false) :
    ∃ e, t.meaning n = .error e := by
  unfold meaning Lowering.lower
  generalize n.rule = r at h
  cases r
  case file | useStmt | structDecl | interfaceDecl | enumDecl | enumField | fnDecl | methodDecl
      | field | global | param | attrib | ty | letStmt | exprStmt =>
    exact nomatch h
  all_goals exact ⟨_, if_neg (Bool.eq_false_iff.mp h)⟩

theorem hasMeaning_of_meaning {n : Node} {a : Ast} (h : t.meaning n = .ok a) :
    n.rule.hasMeaning = true := by
  cases hm : n.rule.hasMeaning with
  | true => rfl
  | false =>
      obtain ⟨e, he⟩ := meaning_eq_error (t := t) hm
      exact nomatch he.symm.trans h

theorem meaningAs_eq_ok_iff {k : Kind} {n : Node} {a : Ast} :
    t.meaningAs k n = .ok a ↔ t.meaning n = .ok a ∧ a.kind = k := by
  unfold meaningAs
  cases t.meaning n with
  | error e => exact ⟨nofun, fun h => nomatch h.1⟩
  | ok b =>
      by_cases hk : b.kind = k
      · have hok : (if b.kind = k then pure b else throw (Lowering.kindError n k b)) =
            (Except.ok b : Except Error Ast) := if_pos hk
        constructor
        · intro h
          cases hok.symm.trans h
          exact ⟨rfl, hk⟩
        · rintro ⟨h, -⟩
          cases h
          exact hok
      · have herror : (if b.kind = k then pure b else throw (Lowering.kindError n k b)) =
            (Except.error (Lowering.kindError n k b) : Except Error Ast) := if_neg hk
        constructor
        · intro h
          exact nomatch herror.symm.trans h
        · rintro ⟨h, hkind⟩
          cases h
          exact absurd hkind hk

end Tree

namespace Session

/-- The numbers that the handles in the meaning of a node hold. -/
def targets (s : Session) (id : Nat) : List Nat :=
  match (s.step (.meaning id)).1 with
  | .meaning a => a.handles.map Prod.snd
  | _ => []

/-- Following handles, from the meaning of the file on. -/
inductive Reaches (s : Session) : Nat → Prop
  | file {a : Ast} {id : Nat} (hfile : (s.step .file).1 = .meaning a)
      (hid : id ∈ a.handles.map Prod.snd) : s.Reaches id
  | next {id id' : Nat} (h : s.Reaches id) (hid : id' ∈ s.targets id) : s.Reaches id'

variable {t : Tree}

theorem step_file_of_run (ht : t.WellFormed) (ops : List Operation) :
    (((start t).run ops).2.step .file).1 = .ofExcept .meaning (t.meaningAs .file t.root) := by
  have hroot : t.root ∈ t.nodes := Tree.mem_nodes.mpr t.root.self_mem_preorder
  obtain ⟨known, hsession, hknown⟩ := run_session ht ops
  obtain ⟨known', hask, -⟩ := ask_eq (Inquiry.answers_meaningAs ht .file hroot) hknown .meaning
  rw [hsession]
  simp only [step, Inquiry.file, hask]

section

variable (ht : t.WellFormed) (ops : List Operation)
  (hall : ∀ n ∈ t.nodes, n.rule.hasMeaning = true → ∃ a, t.meaning n = .ok a)
include ht

theorem targets_of_file {a : Ast} (hfile : (((start t).run ops).2.step .file).1 = .meaning a) :
    ((start t).run ops).2.targets t.root.id = a.handles.map Prod.snd := by
  rw [step_file_of_run ht ops] at hfile
  cases hmeaning : t.meaningAs .file t.root with
  | error e =>
      rw [hmeaning] at hfile
      exact nomatch hfile
  | ok b =>
      rw [hmeaning] at hfile
      cases Answer.meaning.inj hfile
      have hroot : t.root ∈ t.nodes := Tree.mem_nodes.mpr t.root.self_mem_preorder
      rw [targets, step_meaning_of_run ht ops hroot, (Tree.meaningAs_eq_ok_iff.mp hmeaning).1]
      rfl

theorem ids_handles_perm {n : Node} (hn : n ∈ t.nodes) {a : Ast} (h : t.meaning n = .ok a) :
    (a.handles.map Prod.snd).Perm (n.references.map Node.id) := by
  have hm := Tree.hasMeaning_of_meaning h
  have hrefers := Lowering.meaning_refers ht hn hm
  rw [h] at hrefers
  obtain ⟨cs, hperm, hhandles⟩ := hrefers.2.handles
  have hcs (c : Node) (hc : c ∈ cs) : c.rule.hasMeaning = true :=
    Node.hasMeaning_of_mem_referents (hperm.subset hc)
  rw [hhandles, Node.ids_entries hcs, Node.references, if_pos hm]
  exact hperm.map _

include hall

theorem targets_perm {n : Node} (hn : n ∈ t.nodes) :
    (((start t).run ops).2.targets n.id).Perm (n.references.map Node.id) := by
  rw [targets, step_meaning_of_run ht ops hn]
  by_cases hm : n.rule.hasMeaning = true
  · obtain ⟨a, ha⟩ := hall n hn hm
    rw [ha]
    exact ids_handles_perm ht hn ha
  · obtain ⟨e, he⟩ := Tree.meaning_eq_error (t := t) (Bool.eq_false_iff.mpr hm)
    rw [he, Node.references, if_neg hm]
    exact .nil

theorem mem_targets_iff {n : Node} (hn : n ∈ t.nodes) (hm : n.rule.hasMeaning = true) {id : Nat} :
    id ∈ ((start t).run ops).2.targets n.id ↔ ∃ c ∈ n.referents, c.id = id := by
  rw [(targets_perm ht ops hall hn).mem_iff, Node.references, if_pos hm, List.mem_map]

/-- Following handles from the file leads to the nodes that are reached from the root. -/
theorem reaches_iff {id : Nat} :
    ((start t).run ops).2.Reaches id ↔ ∃ n ∈ t.root.reached, n.id = id := by
  have hroot : t.root ∈ t.nodes := Tree.mem_nodes.mpr t.root.self_mem_preorder
  have hrule : t.root.rule.hasMeaning = true := by rw [ht.root]; rfl
  constructor
  · intro h
    induction h with
    | @file a id hfile hid =>
        rw [← targets_of_file ht ops hfile] at hid
        obtain ⟨c, hc, hid⟩ := (mem_targets_iff ht ops hall hroot hrule).mp hid
        exact ⟨c, t.root.referents_subset_reached hc, hid⟩
    | next _ hid ih =>
        obtain ⟨n, hn, rfl⟩ := ih
        obtain ⟨hmem, -, hm, -⟩ := ht.mem_reached_root_iff.mp hn
        obtain ⟨c, hc, hid⟩ := (mem_targets_iff ht ops hall hmem hm).mp hid
        exact ⟨c, Node.reached_trans hn hc, hid⟩
  · rintro ⟨n, hn, rfl⟩
    -- By induction on the number of the node below which `n` is reached.
    have hbelow (bound : Nat) : ∀ m ∈ t.nodes, m.id < bound → m.rule.hasMeaning = true →
        (∀ c ∈ m.referents, ((start t).run ops).2.Reaches c.id) →
        ∀ k ∈ m.reached, ((start t).run ops).2.Reaches k.id := by
      induction bound with
      | zero => exact fun m _ hlt => absurd hlt (Nat.not_lt_zero _)
      | succ bound ih =>
          intro m hm hlt hmeaning href k hk
          obtain ⟨c, hc, rfl | hk⟩ := Node.mem_reached.mp hk
          · exact href k hc
          · have hcm := m.referents_sublist.subset hc
            have hcn : c ∈ t.nodes := by
              rw [Tree.mem_nodes] at hm ⊢
              refine Node.preorder_trans ?_ hm
              rw [Node.preorder_eq_cons]
              exact List.mem_cons_of_mem m hcm
            have hclt := ht.descendant_lt hm hcm
            have hcmeaning := Node.hasMeaning_of_mem_referents hc
            refine ih c hcn (by omega) hcmeaning (fun d hd => ?_) k hk
            exact .next (href c hc) ((mem_targets_iff ht ops hall hcn hcmeaning).mpr ⟨d, hd, rfl⟩)
    refine hbelow (t.root.id + 1) t.root hroot (Nat.lt_succ_self _) hrule (fun c hc => ?_) n hn
    obtain ⟨a, ha⟩ := hall t.root hroot hrule
    have hrefers := Lowering.meaning_refers ht hroot hrule
    rw [ha, ht.root] at hrefers
    have hkind : a.kind = .file := (Option.some.inj hrefers.1).symm
    refine .file (a := a) ?_ ?_
    · rw [step_file_of_run ht ops, Tree.meaningAs_eq_ok_iff.mpr ⟨ha, hkind⟩]
      rfl
    · rw [(ids_handles_perm ht hroot ha).mem_iff, Node.references, if_pos hrule]
      exact List.mem_map_of_mem hc

/-- A number that is reached is held by one handle. -/
theorem count_targets {id : Nat} (h : ((start t).run ops).2.Reaches id) :
    ((t.nodes.map Node.id).flatMap ((start t).run ops).2.targets).count id = 1 := by
  have hperm : ((t.nodes.map Node.id).flatMap ((start t).run ops).2.targets).Perm
      ((t.nodes.flatMap Node.references).map Node.id) := by
    rw [List.flatMap_map, List.map_flatMap]
    exact List.Perm.flatMap_left _ fun n hn => targets_perm ht ops hall hn
  have hmem : id ∈ (t.nodes.map Node.id).flatMap ((start t).run ops).2.targets := by
    rw [List.mem_flatMap]
    cases h with
    | @file a _ hfile hid =>
        have hroot : t.root ∈ t.nodes := Tree.mem_nodes.mpr t.root.self_mem_preorder
        rw [← targets_of_file ht ops hfile] at hid
        exact ⟨t.root.id, List.mem_map_of_mem hroot, hid⟩
    | @next id' _ h hid =>
        obtain ⟨n, hn, rfl⟩ := (reaches_iff ht ops hall).mp h
        exact ⟨n.id, List.mem_map_of_mem (ht.mem_reached_root_iff.mp hn).1, hid⟩
  rw [hperm.count_eq]
  exact List.count_eq_one_of_mem ht.nodup_references (hperm.mem_iff.mp hmem)

end

/-- Where all nodes have their meaning, following handles from the file leads to just those nodes
with a meaning, the root apart, that are not set aside; one handle leads to each of them, and the
numbers in every list of handles ascend. -/
theorem handles_reach_once {source : Source} (h : Tree.parse source = .ok t) (ops : List Operation)
    {count : Nat} (hcount : (((start t).run ops).2.step .all).1 = .count count) :
    let s := ((start t).run ops).2
    (∀ n ∈ t.nodes,
      s.Reaches n.id ↔ n ≠ t.root ∧ n.rule.hasMeaning = true ∧ ¬t.SetsAside n) ∧
    (∀ id, s.Reaches id → (∃ n ∈ t.nodes, n.id = id) ∧
      ((t.nodes.map Node.id).flatMap s.targets).count id = 1) ∧
    ∀ n ∈ t.nodes, ∀ a, (s.step (.meaning n.id)).1 = .meaning a →
      ∀ l ∈ a.lists, l.Pairwise (· < ·) := by
  obtain ⟨ht, rfl⟩ := Tree.wellFormed_of_parse h
  have hall : ∀ n ∈ t.nodes, n.rule.hasMeaning = true → ∃ a, t.meaning n = .ok a := by
    rw [step_all_of_run ht ops] at hcount
    rcases t.countMeanings_cases t.nodes with ⟨count, -, hall⟩ | ⟨e, he, -⟩
    · exact hall
    · rw [he] at hcount
      exact nomatch hcount
  refine ⟨fun n hn => ?_, fun id hid => ⟨?_, count_targets ht ops hall hid⟩, fun n hn a ha l hl => ?_⟩
  · rw [reaches_iff ht ops hall]
    constructor
    · rintro ⟨m, hm, hid⟩
      obtain ⟨hmem, hm⟩ := ht.mem_reached_root_iff.mp hm
      rwa [← ht.eq_of_id hmem hn hid]
    · exact fun hm => ⟨n, ht.mem_reached_root_iff.mpr ⟨hn, hm⟩, rfl⟩
  · obtain ⟨n, hn, hid⟩ := (reaches_iff ht ops hall).mp hid
    exact ⟨n, (ht.mem_reached_root_iff.mp hn).1, hid⟩
  · rw [step_meaning_of_run ht ops hn] at ha
    cases hmeaning : t.meaning n with
    | error e =>
        rw [hmeaning] at ha
        exact nomatch ha
    | ok b =>
        rw [hmeaning] at ha
        cases Answer.meaning.inj ha
        have hm := Tree.hasMeaning_of_meaning hmeaning
        have hrefers := Lowering.meaning_refers ht hn hm
        rw [hmeaning] at hrefers
        exact (ht.referents_ascending hn).sublist (hrefers.2.lists l hl)

/-- A call in a method: the name of the method is set aside, and one handle leads to the call. -/
theorem handles_reach_once_call :
    ∃ t count, Tree.parse "struct S{fn f(self){g(self)}}".toList = .ok t ∧
      ((start t).step .all).1 = .count count ∧
      (∃ n ∈ t.nodes, n.rule = .callExpr ∧ (start t).Reaches n.id ∧
        ((t.nodes.map Node.id).flatMap (start t).targets).count n.id = 1) ∧
      ∃ n ∈ t.nodes, n.rule = .kw .lowerSelf ∧ ¬(start t).Reaches n.id := by
  have hfound : (Tree.parse "struct S{fn f(self){g(self)}}".toList).toOption.map (fun t =>
      decide (((start t).step .all).1 = .count 10 ∧ (∀ n ∈ t.nodes, n.rule ≠ .segment) ∧
        (∃ n ∈ t.nodes, n.rule = .callExpr) ∧
        ∃ p ∈ t.nodes, p.rule = .methodParams ∧ ∃ n ∈ p.children, n.rule = .kw .lowerSelf)) =
          some true := by
    decide +kernel
  obtain ⟨t, h, hfound⟩ := Tree.exists_parse_of_map hfound
  obtain ⟨hcount, hsegment, ⟨n, hn, hr⟩, p, hp, hpr, c, hc, hcr⟩ := of_decide_eq_true hfound
  obtain ⟨hreach, honce, -⟩ := handles_reach_once h [] hcount
  have hne : n ≠ t.root := by
    rintro rfl
    exact nomatch hr.symm.trans (Tree.wellFormed_of_parse h).1.root
  have hkept : ¬t.SetsAside n := by
    rintro (⟨-, -, -, hname⟩ | ⟨-, -, -, hname⟩ | ⟨-, -, -, hself⟩ | ⟨hs, hsr, -⟩)
    · exact nomatch hr.symm.trans hname
    · exact nomatch hr.symm.trans hname
    · exact nomatch hr.symm.trans hself
    · exact hsegment _ hs hsr
  have hn' := (hreach n hn).mpr ⟨hne, by rw [hr]; rfl, hkept⟩
  refine ⟨t, 10, h, hcount, ⟨n, hn, hr, hn', (honce n.id hn').2⟩, c, ?_, hcr, fun hc' => ?_⟩
  · exact Tree.child_mem_nodes hp hc
  · have haside := (hreach c (Tree.child_mem_nodes hp hc)).mp hc'
    exact haside.2.2 (.self hp hpr hc hcr)

end Session

end XiFront

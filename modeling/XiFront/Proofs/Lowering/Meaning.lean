import XiFront.Proofs.Lowering.Expr
import XiFront.Proofs.Session.Order

namespace XiFront

namespace Lowering

theorem ofExcept_eq (x : Except Error α) : (MonadExcept.ofExcept x : Except Error α) = x := by
  cases x <;> rfl

theorem lower_of_isExpr {n : Node} (source : Source) (h : n.rule.isExpr = true) :
    (lower source (fun _ inner => inner) n : Except Error Ast) = .expr <$> expr n source := by
  unfold lower
  simp only [ofExcept_eq]
  generalize n.rule = r at h
  cases r
  case file | useStmt | structDecl | interfaceDecl | enumDecl | enumField | fnDecl | methodDecl
      | field | global | param | attrib | ty | letStmt | exprStmt =>
    exact nomatch h
  all_goals exact if_pos h

/-- What comes of any node that should have a meaning refers to the referents of the node. -/
theorem meaning_refers {t : Tree} (ht : t.WellFormed) {n : Node} (hn : n ∈ t.nodes)
    (hmeaning : n.rule.hasMeaning = true) :
    t.Yields (fun a => n.rule.kind? = some a.kind ∧ a.Refers n) (t.meaning n) := by
  by_cases hexpr : n.rule.isExpr = true
  · rw [Tree.meaning, lower_of_isExpr t.source hexpr, Rule.kind?_of_isExpr hexpr]
    exact (expr_yields ht hn hexpr).map fun e he => ⟨rfl, .of_eq he⟩
  · unfold Tree.meaning lower
    simp only [ofExcept_eq]
    cases hr : n.rule
    case file => exact (fileDecl_yields ht hn hr).map fun d hd => ⟨rfl, hd⟩
    case useStmt => exact (useDecl_yields ht hn hr).map fun d hd => ⟨rfl, .of_eq hd⟩
    case structDecl => exact (structDecl_yields ht hn hr).map fun d hd => ⟨rfl, hd⟩
    case interfaceDecl => exact (interfaceDecl_yields ht hn hr).map fun d hd => ⟨rfl, hd⟩
    case enumDecl => exact (enumDecl_yields ht hn hr).map fun d hd => ⟨rfl, hd⟩
    case enumField => exact (enumField_yields ht hn hr).map fun d hd => ⟨rfl, .of_eq hd⟩
    case fnDecl => exact (fnDecl_yields ht hn (.inl hr)).map fun d hd => ⟨rfl, .of_eq hd⟩
    case methodDecl => exact (fnDecl_yields ht hn (.inr hr)).map fun d hd => ⟨rfl, .of_eq hd⟩
    case field => exact (fieldDecl_yields ht hn hr).map fun d hd => ⟨rfl, .of_eq hd⟩
    case param => exact (paramDecl_yields ht hn hr).map fun d hd => ⟨rfl, .of_eq hd⟩
    case global => exact (globalDecl_yields ht hn hr).map fun d hd => ⟨rfl, .of_eq hd⟩
    case attrib => exact (attribDecl_yields ht hn hr).map fun d hd => ⟨rfl, .of_eq hd⟩
    case ty => exact (typeOf_yields ht hn hr).map fun d hd => ⟨rfl, .of_eq hd.refers⟩
    case letStmt => exact (letStmt_yields ht hn hr).map fun s hs => ⟨rfl, .of_eq hs⟩
    case exprStmt => exact (exprStmt_yields ht hn hr).map fun s hs => ⟨rfl, .of_eq hs⟩
    all_goals
      rw [hr] at hmeaning hexpr
      exact absurd hmeaning hexpr

theorem meaning_yields {t : Tree} (ht : t.WellFormed) {n : Node} (hn : n ∈ t.nodes)
    (hmeaning : n.rule.hasMeaning = true) :
    t.Yields (fun a => n.rule.kind? = some a.kind ∧ ∀ e ∈ a.handles, t.Resolves e)
      (t.meaning n) := by
  refine (meaning_refers ht hn hmeaning).mono fun a ha => ⟨ha.1, fun e he => ?_⟩
  obtain ⟨cs, hperm, hhandles⟩ := ha.2.handles
  rw [hhandles] at he
  refine Tree.resolves_of_mem_entries (fun c hc => ?_) he
  have hbelow : c ∈ n.preorder := by
    rw [Node.preorder_eq_cons]
    exact List.mem_cons_of_mem n (n.referents_sublist.subset (hperm.subset hc))
  exact Tree.mem_nodes.mpr (Node.preorder_trans hbelow (Tree.mem_nodes.mp hn))

end Lowering

theorem Node.Offends.isInternal_eq {n : Node} {source : Source} {e : Error}
    (h : n.Offends source e) : e.isInternal = false := by
  cases h <;> rfl

namespace Tree

variable {t : Tree} {e : Error}

theorem Blames.isInternal_eq (h : t.Blames e) : e.isInternal = false := by
  obtain ⟨n, -, hoffends⟩ := h
  exact hoffends.isInternal_eq

theorem WellFormed.meaningAs_yields (ht : t.WellFormed) {k : Kind} {n : Node}
    (hn : n ∈ t.nodes) (hk : n.rule.kind? = some k) :
    t.Yields (fun _ => True) (t.meaningAs k n) := by
  have hmeaning : n.rule.hasMeaning = true := by rw [← Rule.isSome_kind?, hk]; rfl
  refine (Lowering.meaning_yields ht hn hmeaning).bind fun a _ ha => ?_
  rw [hk] at ha
  rw [if_pos (Option.some.inj ha.1).symm]
  exact trivial

theorem WellFormed.children_ne_nil (ht : t.WellFormed) {n : Node} (hn : n ∈ t.nodes)
    (hr : n.rule = .letStmt ∨ n.rule = .castExpr ∨ n.rule = .callExpr ∨ ∃ v, n.rule = .chain v) :
    n.children ≠ [] := by
  intro hnil
  have hlayout := ht.layout hn
  rw [hnil] at hlayout
  rcases hr with hr | hr | hr | ⟨v, hr⟩
  · obtain ⟨pattern, types, inits, hchildren, -⟩ := Lowering.let_children ht hn hr
    exact nomatch hnil.symm.trans hchildren
  · rw [hr] at hlayout
    obtain ⟨types, e, hl, -⟩ := hlayout
    exact nomatch hl
  · rw [hr] at hlayout
    obtain ⟨steps, e, hl, -⟩ := hlayout
    exact nomatch hl
  · rw [hr] at hlayout
    obtain ⟨others, e, hl, -⟩ := hlayout
    exact nomatch hl

theorem WellFormed.text_eq (ht : t.WellFormed) {n : Node} (hn : n ∈ t.nodes) :
    ∃ before after, t.source = before ++ (n.text t.source ++ after) ∧
      n.start = Source.byteLength before ∧
      n.stop = Source.byteLength (before ++ n.text t.source) := by
  obtain ⟨cs, hmatched⟩ := (ht.formed n (mem_nodes.mp hn)).spelled
  obtain ⟨before, c, c', -, -, hsource, hstart, hstop⟩ := hmatched.reads
  exact ⟨before, c'.rest, hsource, hstart, hstop⟩

end Tree

namespace Session

/-- Wherever a session stands, asking for the meaning of a node that should have one gives it or
fails for a reason in the source, and takes children and texts only where they are; and every
handle of the meaning names a node of the tree of which the same is true. -/
theorem meaning_never_drifts {source : Source} {t : Tree} (h : Tree.parse source = .ok t)
    (ops : List Operation) {n : Node} (hn : n ∈ t.nodes) (hm : n.rule.hasMeaning = true) :
    let s := ((start t).run ops).2
    ((∃ a, (s.step (.meaning n.id)).1 = .meaning a) ∨
      ∃ e, (s.step (.meaning n.id)).1 = .failed e ∧ e.isInternal = false) ∧
    ((n.rule = .letStmt ∨ n.rule = .castExpr ∨ n.rule = .callExpr ∨ ∃ v, n.rule = .chain v) →
      n.children ≠ []) ∧
    (∀ m ∈ n.preorder, ∃ before after, source = before ++ (m.text source ++ after) ∧
      m.start = Source.byteLength before ∧
      m.stop = Source.byteLength (before ++ m.text source)) ∧
    ∀ a, (s.step (.meaning n.id)).1 = .meaning a → ∀ k id, (k, id) ∈ a.handles →
      ∃ m ∈ t.nodes, m.id = id ∧ m.rule.kind? = some k ∧
        ∀ others, let later := ((start t).run others).2
          (∃ b, (later.step (.meaningAs id k)).1 = .meaning b) ∨
            ∃ e, (later.step (.meaningAs id k)).1 = .failed e ∧ e.isInternal = false := by
  obtain ⟨ht, rfl⟩ := Tree.wellFormed_of_parse h
  have hyields := Lowering.meaning_yields ht hn hm
  have hstep := step_meaning_of_run ht ops hn
  refine ⟨?_, ht.children_ne_nil hn, fun m hm => ?_, fun a ha k id hmem => ?_⟩
  · rw [hstep]
    cases hmeaning : t.meaning n with
    | ok a => exact .inl ⟨a, rfl⟩
    | error e =>
        rw [hmeaning] at hyields
        exact .inr ⟨e, rfl, Tree.Blames.isInternal_eq hyields⟩
  · rw [Tree.mem_nodes] at hn
    exact ht.text_eq (Tree.mem_nodes.mpr (Node.preorder_trans hm hn))
  · rw [hstep] at ha
    cases hmeaning : t.meaning n with
    | error e =>
        rw [hmeaning] at ha
        exact nomatch ha
    | ok b =>
        rw [hmeaning] at ha hyields
        cases Answer.meaning.inj ha
        obtain ⟨m, hm, rfl, hk⟩ := hyields.2 _ hmem
        refine ⟨m, hm, rfl, hk, fun others => ?_⟩
        have hlater := ht.meaningAs_yields hm hk
        simp only [step_meaningAs_of_run ht others k hm]
        cases hmeaningAs : t.meaningAs k m with
        | ok b => exact .inl ⟨b, rfl⟩
        | error e =>
            rw [hmeaningAs] at hlater
            exact .inr ⟨e, rfl, Tree.Blames.isInternal_eq hlater⟩

/-- A cast, asked for after a question that failed. -/
theorem meaning_never_drifts_cast :
    ∃ t n, Tree.parse "const X:u8=a as u8;".toList = .ok t ∧ n ∈ t.nodes ∧
      n.rule = .castExpr ∧ n.children ≠ [] ∧
      let s := ((start t).run [.path n.id, .all]).2
      (∃ a, (s.step (.meaning n.id)).1 = .meaning a) ∨
        ∃ e, (s.step (.meaning n.id)).1 = .failed e ∧ e.isInternal = false := by
  have hfound : (Tree.parse "const X:u8=a as u8;".toList).toOption.map (fun t =>
      decide (∃ n ∈ t.nodes, n.rule = .castExpr)) = some true := by
    decide +kernel
  obtain ⟨t, h, hfound⟩ := Tree.exists_parse_of_map hfound
  obtain ⟨n, hn, hr⟩ := of_decide_eq_true hfound
  have hdrift := meaning_never_drifts h [.path n.id, .all] hn (by rw [hr]; rfl)
  exact ⟨t, n, h, hn, hr, hdrift.2.1 (.inr (.inl hr)), hdrift.1⟩

end Session

end XiFront

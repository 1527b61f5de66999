import XiFront.Proofs.Lowering.Parts
import XiFront.Proofs.Tree.WellFormed

namespace XiFront

namespace Rule

/-- The rules of what a file or a type declaration refers to. -/
def members : Rule → List Rule
  | file => [useStmt, interfaceDecl, structDecl, enumDecl, fnDecl, global]
  | structDecl => [attrib, field, fnDecl, methodDecl]
  | interfaceDecl => [attrib, fnDecl, methodDecl]
  | enumDecl => [attrib, enumField, fnDecl, methodDecl]
  | _ => []

variable {r : Rule} (hr : r = structDecl ∨ r = interfaceDecl ∨ r = enumDecl)
include hr

theorem parts_of_layout {l : List Rule} (h : Layout r l) :
    ∃ attribs generics bases others,
      l = attribs ++ ident :: (generics ++ (bases ++ others)) ∧ (∀ x ∈ attribs, x = attrib) ∧
      (generics = [] ∨ generics = [genericParams]) ∧
      (bases = [] ∨ bases = [impls] ∧ r ≠ enumDecl) ∧ ∀ x ∈ others, x ∈ r.members := by
  rcases hr with rfl | rfl | rfl
  · obtain ⟨attribs, generics, bases, others, hl, hattribs, hgenerics, hbases, hothers⟩ := h
    refine ⟨attribs, generics, bases, others, hl, hattribs, hgenerics,
      hbases.imp_right fun h => ⟨h, nofun⟩, fun x hx => ?_⟩
    rcases hothers x hx with rfl | rfl | rfl <;> simp [members]
  · obtain ⟨attribs, generics, bases, others, hl, hattribs, hgenerics, hbases, hothers⟩ := h
    refine ⟨attribs, generics, bases, others, hl, hattribs, hgenerics,
      hbases.imp_right fun h => ⟨h, nofun⟩, fun x hx => ?_⟩
    rcases hothers x hx with rfl | rfl <;> simp [members]
  · obtain ⟨attribs, generics, fields, others, hl, hattribs, hgenerics, hfields, hothers⟩ := h
    refine ⟨attribs, generics, [], fields ++ others, hl, hattribs, hgenerics, .inl rfl, ?_⟩
    intro x hx
    rcases List.mem_append.mp hx with hx | hx
    · simp [hfields x hx, members]
    · rcases hothers x hx with rfl | rfl <;> simp [members]

theorem sorted_of_members {x : Rule} (h : x ∈ r.members) :
    x ∈ [attrib, field, enumField, fnDecl, methodDecl] := by
  rcases hr with rfl | rfl | rfl <;>
    · simp only [members, List.mem_cons, List.not_mem_nil, or_false] at h
      rcases h with rfl | rfl | rfl | rfl <;> simp

end Rule

namespace Lowering

theorem exists_option {cs : List Node} {x : Rule}
    (h : cs.map Node.rule = [] ∨ cs.map Node.rule = [x]) :
    ∃ o : Option Node, cs = o.toList ∧ ∀ c ∈ o, c.rule = x := by
  rcases h with h | h
  · exact ⟨none, List.map_eq_nil_iff.mp h, nofun⟩
  · obtain ⟨c, rfl, hc⟩ := List.map_eq_singleton_iff.mp h
    exact ⟨some c, rfl, by rintro _ ⟨⟩; exact hc⟩

/-- The parts of a type declaration. -/
structure DeclParts (n : Node) where
  attribs : List Node
  name : Node
  generics : Option Node
  impls : Option Node
  members : List Node
  children : n.children = attribs ++ name :: (generics.toList ++ (impls.toList ++ members))
  attribs_rule : ∀ c ∈ attribs, c.rule = .attrib
  name_rule : name.rule = .ident
  generics_rule : ∀ c ∈ generics, c.rule = .genericParams
  impls_rule : ∀ c ∈ impls, c.rule = .impls
  members_rule : ∀ c ∈ members, c.rule ∈ n.rule.members
  decl : n.rule = .structDecl ∨ n.rule = .interfaceDecl ∨ n.rule = .enumDecl
  impls_enum : n.rule = .enumDecl → impls = none

theorem decl_parts {t : Tree} (ht : t.WellFormed) {n : Node} (hn : n ∈ t.nodes)
    (hr : n.rule = .structDecl ∨ n.rule = .interfaceDecl ∨ n.rule = .enumDecl) :
    Nonempty (DeclParts n) := by
  obtain ⟨l₁, l₂, l₃, l₄, hrules, h₁, h₂, h₃, h₄⟩ := Rule.parts_of_layout hr (ht.layout hn)
  obtain ⟨attribs, cs₁, hchildren, rfl, hcs₁⟩ := List.map_eq_append_iff.mp hrules
  obtain ⟨name, cs₂, rfl, hname, hcs₂⟩ := List.map_eq_cons_iff.mp hcs₁
  obtain ⟨generics, cs₃, rfl, rfl, hcs₃⟩ := List.map_eq_append_iff.mp hcs₂
  obtain ⟨bases, members, rfl, rfl, rfl⟩ := List.map_eq_append_iff.mp hcs₃
  obtain ⟨generics, rfl, hgenerics⟩ := exists_option h₂
  obtain ⟨impls, rfl, himpls⟩ := exists_option (h₃.imp_right And.left)
  refine ⟨attribs, name, generics, impls, members, hchildren, List.forall_mem_map.mp h₁, hname,
    hgenerics, himpls, List.forall_mem_map.mp h₄, hr, fun henum => ?_⟩
  rcases h₃ with h₃ | ⟨-, hne⟩
  · simpa using h₃
  · exact absurd henum hne

def implPaths {m : Type → Type} [Monad m] [MonadExcept Error m] (source : Source)
    (visit : Node → m TypeRef → m TypeRef) (n : Node) : m (List Path) :=
  ((n.first? .impls).elim [] Node.children).mapM (pathOf source visit)

namespace DeclDraft

def sort (d : DeclDraft) (cs : List Node) : DeclDraft :=
  { d with
    attribs := d.attribs ++ (cs.filter (·.rule = .attrib)).map Node.handle
    fields := d.fields ++ (cs.filter (·.rule = .field)).map Node.handle
    enumFields := d.enumFields ++ (cs.filter (·.rule = .enumField)).map Node.handle
    fns := d.fns ++ (cs.filter (·.rule = .fnDecl)).map Node.handle
    methods := d.methods ++ (cs.filter (·.rule = .methodDecl)).map Node.handle }

theorem sort_append (d : DeclDraft) (cs cs' : List Node) :
    (d.sort cs).sort cs' = d.sort (cs ++ cs') := by
  simp [sort]

variable {m : Type → Type} [Monad m] [LawfulMonad m] [MonadExcept Error m]
  (source : Source) (visit : Node → m TypeRef → m TypeRef) (n : Node)

theorem foldlM_sort {cs : List Node}
    (h : ∀ c ∈ cs, c.rule ∈ [Rule.attrib, .field, .enumField, .fnDecl, .methodDecl])
    (d : DeclDraft) : cs.foldlM (add source visit n) d = pure (d.sort cs) := by
  induction cs generalizing d with
  | nil => simp [sort]
  | cons c cs ih =>
      rw [List.forall_mem_cons] at h
      have hadd : add source visit n d c = pure (d.sort [c]) := by
        obtain ⟨hc, -⟩ := h
        simp only [List.mem_cons, List.not_mem_nil, or_false] at hc
        rcases hc with hc | hc | hc | hc | hc <;> simp [add, sort, hc]
      rw [List.foldlM_cons, hadd, pure_bind, ih h.2, sort_append, List.singleton_append]

theorem foldlM_generics {o : Option Node} (h : ∀ c ∈ o, c.rule = .genericParams) (d : DeclDraft) :
    o.toList.foldlM (add source visit n) d =
      pure { d with generics := (o.map (·.names source)).getD d.generics } := by
  cases o with
  | none => rfl
  | some c => simp [add, h c rfl]

theorem foldlM_impls {o : Option Node} (h : ∀ c ∈ o, c.rule = .impls) (d : DeclDraft) :
    o.toList.foldlM (add source visit n) d =
      (fun paths => { d with impls := d.impls ++ paths }) <$>
        (o.elim [] Node.children).mapM (pathOf source visit) := by
  cases o with
  | none => simp
  | some c => simp [add, h c rfl]

end DeclDraft

namespace DeclParts

variable {n : Node} (parts : DeclParts n)
include parts

theorem rule_cases : ∀ c ∈ n.children,
    c.rule ∈ n.rule.members ∨ c.rule = .ident ∨ c.rule = .genericParams ∨ c.rule = .impls := by
  have hattrib : Rule.attrib ∈ n.rule.members := by
    rcases parts.decl with hr | hr | hr <;> simp [hr, Rule.members]
  rw [parts.children]
  simp only [List.mem_append, List.mem_cons, Option.mem_toList]
  rintro c (hc | rfl | hc | hc | hc)
  · exact .inl (parts.attribs_rule c hc ▸ hattrib)
  · exact .inr (.inl parts.name_rule)
  · exact .inr (.inr (.inl (parts.generics_rule c hc)))
  · exact .inr (.inr (.inr (parts.impls_rule c hc)))
  · exact .inl (parts.members_rule c hc)

theorem filter_impls : n.children.filter (·.rule = .impls) = parts.impls.toList := by
  have hnone {cs : List Node} (h : ∀ c ∈ cs, c.rule ≠ .impls) :
      cs.filter (·.rule = .impls) = [] :=
    List.filter_eq_nil_iff.mpr fun c hc => by simp [h c hc]
  have hattribs := hnone fun c hc => by rw [parts.attribs_rule c hc]; nofun
  have hgenerics : parts.generics.toList.filter (·.rule = .impls) = [] :=
    hnone fun c hc => by rw [parts.generics_rule c (Option.mem_toList.mp hc)]; nofun
  have hmembers : parts.members.filter (·.rule = .impls) = [] := hnone fun c hc himpls => by
    have hmem := Rule.sorted_of_members parts.decl (parts.members_rule c hc)
    simp [himpls] at hmem
  have himpls : parts.impls.toList.filter (·.rule = .impls) = parts.impls.toList :=
    List.filter_eq_self.mpr fun c hc => by simp [parts.impls_rule c (Option.mem_toList.mp hc)]
  rw [parts.children, List.filter_append, hattribs,
    List.filter_cons_of_neg (by simp [parts.name_rule]), List.filter_append, hgenerics,
    List.filter_append, himpls, hmembers, List.nil_append, List.nil_append, List.append_nil]

theorem first?_impls : n.first? .impls = parts.impls := by
  rw [Node.first?, ← List.head?_filter, parts.filter_impls, Option.head?_toList]

theorem handlesOf_eq {k : Kind} {r : Rule} (hr : r ≠ .ident ∧ r ≠ .genericParams ∧ r ≠ .impls) :
    (n.handlesOf r : List (Handle k)) =
      (parts.attribs.filter (·.rule = r)).map Node.handle ++
        (parts.members.filter (·.rule = r)).map Node.handle := by
  obtain ⟨hident, hgenerics, himpls⟩ := hr
  have hnone {o : Option Node} {x : Rule} (h : ∀ c ∈ o, c.rule = x) (hne : r ≠ x) :
      o.toList.filter (·.rule = r) = [] :=
    List.filter_eq_nil_iff.mpr fun c hc => by simp [h c (Option.mem_toList.mp hc), hne.symm]
  rw [Node.handlesOf, parts.children, List.filter_append,
    List.filter_cons_of_neg (by simp [parts.name_rule, hident.symm]), List.filter_append,
    hnone parts.generics_rule hgenerics, List.filter_append, hnone parts.impls_rule himpls]
  simp

def draft (source : Source) (impls : List Path) : DeclDraft where
  id := some (parts.name.name source)
  generics := (parts.generics.map (·.names source)).getD []
  impls := impls
  attribs := n.handlesOf .attrib
  fields := n.handlesOf .field
  enumFields := n.handlesOf .enumField
  fns := n.handlesOf .fnDecl
  methods := n.handlesOf .methodDecl

variable {m : Type → Type} [Monad m] [LawfulMonad m] [MonadExcept Error m]
  (source : Source) (visit : Node → m TypeRef → m TypeRef)

theorem draft_eq :
    declDraft source visit n = parts.draft source <$> implPaths source visit n := by
  have hattribs : ∀ c ∈ parts.attribs,
      c.rule ∈ [Rule.attrib, .field, .enumField, .fnDecl, .methodDecl] := fun c hc => by
    simp [parts.attribs_rule c hc]
  have hmembers (c) (hc : c ∈ parts.members) :=
    Rule.sorted_of_members parts.decl (parts.members_rule c hc)
  have hname (d : DeclDraft) (hd : d.id = none) :
      DeclDraft.add source visit n d parts.name =
        pure { d with id := some (parts.name.name source) } := by
    simp [DeclDraft.add, parts.name_rule, hd]
  have hdraft (impls : List Path) :
      DeclDraft.sort
        { DeclDraft.sort {} parts.attribs with
          id := some (parts.name.name source)
          generics := (parts.generics.map (·.names source)).getD []
          impls } parts.members = parts.draft source impls := by
    simp [DeclDraft.sort, draft, parts.handlesOf_eq]
-- The loop goes through the parts in their order; the paths are the only ones that it may fail at.
  rw [declDraft, parts.children, List.foldlM_append, DeclDraft.foldlM_sort source visit n hattribs,
    pure_bind, List.foldlM_cons, hname _ rfl, pure_bind, List.foldlM_append,
    DeclDraft.foldlM_generics source visit n parts.generics_rule, pure_bind, List.foldlM_append,
    DeclDraft.foldlM_impls source visit n parts.impls_rule, implPaths, parts.first?_impls,
    bind_map_left, map_eq_pure_bind]
  refine bind_congr (m := m) fun impls => ?_
  rw [DeclDraft.foldlM_sort source visit n hmembers, ← hdraft]
  rfl

end DeclParts

variable {m : Type → Type} [Monad m] [LawfulMonad m] [MonadExcept Error m]
  {source : Source} {visit : Node → m TypeRef → m TypeRef} {n : Node}

theorem structDecl_eq (parts : DeclParts n) :
    structDecl source visit n = (fun impls =>
      { id := parts.name.name source
        generics := (parts.generics.map (·.names source)).getD []
        impls
        attribs := n.handlesOf .attrib
        fields := n.handlesOf .field
        fns := n.handlesOf .fnDecl
        methods := n.handlesOf .methodDecl }) <$> implPaths source visit n := by
  rw [structDecl, parts.draft_eq, bind_map_left, map_eq_pure_bind]
  exact bind_congr fun impls => pure_bind _ _

theorem interfaceDecl_eq (parts : DeclParts n) :
    interfaceDecl source visit n = (fun impls =>
      { id := parts.name.name source
        generics := (parts.generics.map (·.names source)).getD []
        impls
        attribs := n.handlesOf .attrib
        fns := n.handlesOf .fnDecl
        methods := n.handlesOf .methodDecl }) <$> implPaths source visit n := by
  rw [interfaceDecl, parts.draft_eq, bind_map_left, map_eq_pure_bind]
  exact bind_congr fun impls => pure_bind _ _

theorem enumDecl_eq (parts : DeclParts n) (hr : n.rule = .enumDecl) :
    enumDecl source visit n = pure
      { id := parts.name.name source
        generics := (parts.generics.map (·.names source)).getD []
        attribs := n.handlesOf .attrib
        fields := n.handlesOf .enumField
        fns := n.handlesOf .fnDecl
        methods := n.handlesOf .methodDecl } := by
  have hpaths : implPaths source visit n = pure [] := by
    rw [implPaths, parts.first?_impls, parts.impls_enum hr]
    rfl
  rw [enumDecl, parts.draft_eq, hpaths, map_pure, pure_bind]
  exact pure_bind _ _

/-- The parts of a function. -/
structure FnParts (n : Node) where
  attribs : List Node
  name : Node
  generics : Option Node
  params : Node
  result : Option Node
  body : Option Node
  children : n.children =
    attribs ++ ([name] ++ (generics.toList ++ ([params] ++ (result.toList ++ body.toList))))
  attribs_rule : ∀ c ∈ attribs, c.rule = .attrib
  name_rule : name.rule = .ident
  generics_rule : ∀ c ∈ generics, c.rule = .genericParams
  params_rule : params.rule = .fnParams ∨ params.rule = .methodParams
  params_children : ∀ c ∈ params.children, c.rule = .param ∨ c.rule = .kw .lowerSelf
  result_rule : ∀ c ∈ result, c.rule = .ty
  body_rule : ∀ c ∈ body, c.rule = .blockExpr

theorem parameter_children {t : Tree} (ht : t.WellFormed) {n : Node} (hn : n ∈ t.nodes)
    (hr : n.rule = .fnParams ∨ n.rule = .methodParams) :
    ∀ c ∈ n.children, c.rule = .param ∨ c.rule = .kw .lowerSelf := by
  have hlayout := ht.layout hn
  rw [← List.forall_mem_map (P := fun r => r = Rule.param ∨ r = .kw .lowerSelf)]
  rcases hr with hr | hr
  · rw [hr] at hlayout
    exact fun r hmem => .inl (hlayout r hmem)
  · rw [hr] at hlayout
    obtain ⟨l, hrules, hl⟩ := hlayout
    rw [hrules, List.forall_mem_cons]
    exact ⟨.inr rfl, fun r hmem => .inl (hl r hmem)⟩

theorem FnParts.params_mem {n : Node} (parts : FnParts n) : parts.params ∈ n.children := by
  simp [parts.children]

theorem fn_parts {t : Tree} (ht : t.WellFormed) {n : Node} (hn : n ∈ t.nodes)
    (hr : n.rule = .fnDecl ∨ n.rule = .methodDecl) : Nonempty (FnParts n) := by
  have hlayout := ht.layout hn
  obtain ⟨r, hparams, l₁, l₂, l₃, l₄, hrules, h₁, h₂, h₃, h₄⟩ : ∃ r,
      (r = Rule.fnParams ∨ r = Rule.methodParams) ∧ ∃ attribs generics results bodies,
        n.children.map Node.rule =
          attribs ++ .ident :: (generics ++ r :: (results ++ bodies)) ∧
        (∀ x ∈ attribs, x = Rule.attrib) ∧ (generics = [] ∨ generics = [.genericParams]) ∧
        (results = [] ∨ results = [.ty]) ∧ (bodies = [.blockExpr] ∨ bodies = []) := by
    rcases hr with hr | hr
    · rw [hr] at hlayout
      exact ⟨_, .inl rfl, hlayout⟩
    · rw [hr] at hlayout
      exact ⟨_, .inr rfl, hlayout⟩
  obtain ⟨attribs, cs₁, hchildren, rfl, hcs₁⟩ := List.map_eq_append_iff.mp hrules
  obtain ⟨name, cs₂, rfl, hname, hcs₂⟩ := List.map_eq_cons_iff.mp hcs₁
  obtain ⟨generics, cs₃, rfl, rfl, hcs₃⟩ := List.map_eq_append_iff.mp hcs₂
  obtain ⟨params, cs₄, rfl, rfl, hcs₄⟩ := List.map_eq_cons_iff.mp hcs₃
  obtain ⟨results, bodies, rfl, rfl, rfl⟩ := List.map_eq_append_iff.mp hcs₄
  obtain ⟨generics, rfl, hgenerics⟩ := exists_option h₂
  obtain ⟨result, rfl, hresult⟩ := exists_option h₃
  obtain ⟨body, rfl, hbody⟩ := exists_option h₄.symm
  have hmem : params ∈ t.nodes := Tree.child_mem_nodes hn (by simp [hchildren])
  exact ⟨attribs, name, generics, params, result, body, hchildren, List.forall_mem_map.mp h₁,
    hname, hgenerics, hparams, parameter_children ht hmem hparams, hresult, hbody⟩

namespace FnDraft

variable (source : Source) (n : Node)

theorem foldlM_attribs {cs : List Node} (h : ∀ c ∈ cs, c.rule = .attrib) (d : FnDraft) :
    cs.foldlM (add source n) d = pure { d with attribs := d.attribs ++ cs.map Node.handle } := by
  induction cs generalizing d with
  | nil => simp
  | cons c cs ih =>
      rw [List.forall_mem_cons] at h
      rw [List.foldlM_cons, add, h.1]
      exact (ih h.2 _).trans (by simp)

theorem foldlM_params {cs : List Node} (h : ∀ c ∈ cs, c.rule = .param ∨ c.rule = .kw .lowerSelf)
    (d : FnDraft) :
    cs.foldlM (addParam n) d = pure
      { d with
        hasSelf := d.hasSelf || cs.any (·.rule = .kw .lowerSelf)
        params := d.params ++ (cs.filter (·.rule = .param)).map Node.handle } := by
  induction cs generalizing d with
  | nil => simp
  | cons c cs ih =>
      rw [List.forall_mem_cons] at h
      rw [List.foldlM_cons, addParam]
      rcases h.1 with hc | hc
      · rw [hc]
        exact (ih h.2 _).trans (by simp [hc])
      · rw [hc]
        exact (ih h.2 _).trans (by simp [hc])

theorem foldlM_generics {o : Option Node} (h : ∀ c ∈ o, c.rule = .genericParams) (d : FnDraft) :
    o.toList.foldlM (add source n) d =
      pure { d with generics := (o.map (·.names source)).getD d.generics } := by
  cases o with
  | none => rfl
  | some c => simp [add, h c rfl]

theorem foldlM_result {o : Option Node} (h : ∀ c ∈ o, c.rule = .ty) (d : FnDraft) :
    o.toList.foldlM (add source n) d =
      pure { d with result := (o.map Node.handle).or d.result } := by
  cases o with
  | none => rfl
  | some c => simp [add, h c rfl]

theorem foldlM_body {o : Option Node} (h : ∀ c ∈ o, c.rule = .blockExpr) (d : FnDraft) :
    o.toList.foldlM (add source n) d =
      pure { d with body := (o.map Node.handle).or d.body } := by
  cases o with
  | none => rfl
  | some c => simp [add, h c rfl]

end FnDraft

theorem fnDecl_eq {n : Node} (parts : FnParts n) (source : Source) :
    fnDecl n source = .ok
      { id := parts.name.name source
        generics := (parts.generics.map (·.names source)).getD []
        attribs := parts.attribs.map Node.handle
        hasSelf := parts.params.children.any (·.rule = .kw .lowerSelf)
        params := parts.params.handlesOf .param
        result := parts.result.map Node.handle
        body := parts.body.map Node.handle } := by
  have hname (d : FnDraft) (hd : d.id = none) :
      [parts.name].foldlM (FnDraft.add source n) d =
        pure { d with id := some (parts.name.name source) } := by
    simp [FnDraft.add, parts.name_rule, hd]
  have hparams (d : FnDraft) : [parts.params].foldlM (FnDraft.add source n) d =
      parts.params.children.foldlM (FnDraft.addParam n) d := by
    rcases parts.params_rule with hr | hr <;> simp [FnDraft.add, hr]
  rw [fnDecl, parts.children, List.foldlM_append,
    FnDraft.foldlM_attribs source n parts.attribs_rule, pure_bind, List.foldlM_append, hname _ rfl,
    pure_bind, List.foldlM_append, FnDraft.foldlM_generics source n parts.generics_rule, pure_bind,
    List.foldlM_append, hparams, FnDraft.foldlM_params n parts.params_children, pure_bind,
    List.foldlM_append, FnDraft.foldlM_result source n parts.result_rule, pure_bind,
    FnDraft.foldlM_body source n parts.body_rule, pure_bind]
  simp only [Option.or_none, Bool.false_or, List.nil_append]
  rfl

end Lowering

end XiFront

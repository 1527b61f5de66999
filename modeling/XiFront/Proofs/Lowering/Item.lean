import XiFront.Proofs.Lowering.Declaration
import XiFront.Proofs.Lowering.Path

namespace XiFront

namespace Rule

theorem members_cases (r : Rule) :
    r.members.Nodup ∧ ∀ x ∈ r.members, x.hasMeaning = true ∧ x ≠ ident := by
  have hall : ∀ r ∈ all, r.members.Nodup ∧
      ∀ x ∈ r.members, x.hasMeaning = true ∧ x ≠ ident := by
    decide +kernel
  exact hall r r.mem_all

theorem mem_members_of_isItem {x : Rule} (h : Lowering.isItem x = true) : x ∈ file.members := by
  cases x
  case useStmt | interfaceDecl | structDecl | enumDecl | fnDecl | global => decide
  all_goals exact absurd h Bool.false_ne_true

end Rule

theorem Node.perm_filter_rules {rs : List Rule} (hrs : rs.Nodup) (cs : List Node) :
    (rs.flatMap fun r => cs.filter (·.rule = r)).Perm (cs.filter (·.rule ∈ rs)) := by
  induction rs with
  | nil => simp
  | cons r rs ih =>
      rw [List.nodup_cons] at hrs
      have hfirst : (cs.filter (·.rule ∈ r :: rs)).filter (·.rule = r) =
          cs.filter (·.rule = r) := by
        rw [List.filter_filter]
        exact List.filter_congr fun c _ => by simp; tauto
      have hothers : (cs.filter (·.rule ∈ r :: rs)).filter (fun c => !decide (c.rule = r)) =
          cs.filter (·.rule ∈ rs) := by
        rw [List.filter_filter]
        refine List.filter_congr fun c _ => ?_
        by_cases hc : c.rule = r
        · simp [hc, hrs.1]
        · simp [hc]
      have hperm := List.filter_append_perm (·.rule = r) (cs.filter (·.rule ∈ r :: rs))
      rw [hfirst, hothers] at hperm
      exact ((ih hrs.2).append_left _).trans hperm

theorem Ast.ids_handlesOf {k : Kind} (n : Node) (r : Rule) :
    ids (n.handlesOf r : List (Handle k)) = (n.children.filter (·.rule = r)).map Node.id := by
  rw [ids, Node.handlesOf, List.map_map]
  rfl

theorem Ast.Refers.of_members {a : Ast} {n : Node}
    (hreferents : n.referents = n.children.filter (·.rule ∈ n.rule.members))
    (hhandles : a.handles =
      Node.entries (n.rule.members.flatMap fun r => n.children.filter (·.rule = r)))
    (hlists : a.lists =
      n.rule.members.map fun r => (n.children.filter (·.rule = r)).map Node.id) :
    a.Refers n := by
  refine ⟨⟨_, ?_, hhandles⟩, ?_⟩
  · rw [hreferents]
    exact Node.perm_filter_rules (Rule.members_cases n.rule).1 n.children
  · rw [hlists, hreferents, List.forall_mem_map]
    intro r hr
    refine (List.monotone_filter_right n.children fun c hc => ?_).map Node.id
    rw [of_decide_eq_true hc]
    exact decide_eq_true hr

namespace Lowering

theorem typedName_eq {n : Node} {rest : List Rule}
    (hrules : n.children.map Node.rule = .ident :: .ty :: rest) (source : Source) :
    ∃ name c others, n.children = name :: c :: others ∧ name.rule = .ident ∧ c.rule = .ty ∧
      others.map Node.rule = rest ∧
      typedName n source = .ok (name.name source, c.handle) := by
  obtain ⟨name, others, hchildren, hname, hothers⟩ := List.map_eq_cons_iff.mp hrules
  obtain ⟨c, others, rfl, hc, hrest⟩ := List.map_eq_cons_iff.mp hothers
  refine ⟨name, c, others, hchildren, hname, hc, hrest, ?_⟩
  rw [typedName, Node.identAt_eq source (c := name) (by rw [hchildren]; rfl) hname,
    Node.childOf_eq_ok_iff.mpr ⟨show n.children[1]? = some c by rw [hchildren]; rfl, hc⟩]
  rfl

theorem referents_typed {n name c : Node} (hr : n.rule.spellsNames = true)
    (hchildren : n.children = [name, c]) (hname : name.rule = .ident) (hc : c.rule = .ty) :
    Node.entries n.referents = [(c.handle : Handle .type).entry] := by
  have hne : ∀ d ∈ [c], d.rule ≠ .ident := by simp [hc]
  have hmeaning : c.rule.hasMeaning = true := by rw [hc]; rfl
  rw [Node.referents_of_named hr hchildren hname hne, List.flatMap_singleton,
    Node.offers_of_meaning hmeaning, Node.entries_type hc, Node.entries_nil]

theorem filter_members {cs : List Node} {rs : List Rule}
    (h : ∀ c ∈ cs, c.rule ∈ rs ∧ c.rule.hasMeaning = true ∧ c.rule ≠ .ident ∨
      c.rule ∉ rs ∧ (c.rule = .ident ∨ c.offers = [])) :
    (cs.filter (·.rule ≠ .ident)).flatMap Node.offers = cs.filter (·.rule ∈ rs) := by
  induction cs with
  | nil => rfl
  | cons c cs ih =>
      rw [List.forall_mem_cons] at h
      rcases h.1 with ⟨hmem, hmeaning, hne⟩ | ⟨hmem, hident | hoffers⟩
      · rw [List.filter_cons_of_pos (by simp [hne]), List.filter_cons_of_pos (by simp [hmem]),
          List.flatMap_cons, Node.offers_of_meaning hmeaning, ih h.2, List.singleton_append]
      · rw [List.filter_cons_of_neg (by simp [hident]), List.filter_cons_of_neg (by simp [hmem]),
          ih h.2]
      · have hpassed : (c :: cs).filter (·.rule ∈ rs) = cs.filter (·.rule ∈ rs) :=
          List.filter_cons_of_neg (by simp [hmem])
        rw [hpassed, ← ih h.2, List.filter_cons]
        split
        · rw [List.flatMap_cons, hoffers, List.nil_append]
        · rfl

variable {t : Tree} (ht : t.WellFormed) {n : Node} (hn : n ∈ t.nodes)
include ht hn

theorem offers_genericParams (hr : n.rule = .genericParams) : n.offers = [] := by
  have hlayout := ht.layout hn
  rw [hr] at hlayout
  obtain ⟨others, hrules, hothers⟩ := hlayout
  have hidents : ∀ c ∈ n.children, c.rule = .ident := by
    rw [← List.forall_mem_map (P := fun r => r = Rule.ident), hrules]
    exact List.forall_mem_cons.mpr ⟨rfl, hothers⟩
  have hnone : n.children.filter (·.rule ≠ .ident) = [] := by
    rw [List.filter_eq_nil_iff]
    intro c hc
    simp [hidents c hc]
  rw [Node.offers_of_not_meaning (by rw [hr]; rfl),
    Node.referents_of_spellsNames (by rw [hr]; rfl), hnone, List.flatMap_nil]

theorem impls_children (hr : n.rule = .impls) : ∀ c ∈ n.children, c.rule = .path := by
  have hlayout := ht.layout hn
  rw [hr] at hlayout
  obtain ⟨others, hrules, hothers⟩ := hlayout
  rw [← List.forall_mem_map (P := fun r => r = Rule.path), hrules]
  exact List.forall_mem_cons.mpr ⟨rfl, hothers⟩

theorem offers_impls (hr : n.rule = .impls) : n.offers = [] := by
  rw [Node.offers_of_not_meaning (by rw [hr]; rfl),
    Node.referents_of_passesAll (by rw [hr]; rfl), List.flatMap_eq_nil_iff]
  intro c hc
  have hpath := impls_children ht hn hr c hc
  rw [Node.offers_of_not_meaning (by rw [hpath]; rfl)]
  exact referents_path ht (Tree.child_mem_nodes hn hc) hpath

theorem referents_file (hr : n.rule = .file) :
    n.referents = n.children.filter (·.rule ∈ n.rule.members) := by
  have hlayout := ht.layout hn
  rw [hr] at hlayout
  have hmembers : ∀ c ∈ n.children, c.rule ∈ n.rule.members := by
    intro c hc
    rw [hr]
    exact Rule.mem_members_of_isItem (hlayout c.rule (List.mem_map_of_mem hc))
  rw [Node.referents_eq_children (by rw [hr]; rfl), List.filter_eq_self.mpr]
  · exact fun c hc => decide_eq_true (hmembers c hc)
  · exact fun c hc => ((Rule.members_cases n.rule).2 c.rule (hmembers c hc)).1

theorem referents_typeDecl
    (hr : n.rule = .structDecl ∨ n.rule = .interfaceDecl ∨ n.rule = .enumDecl) :
    n.referents = n.children.filter (·.rule ∈ n.rule.members) := by
  have hspells : n.rule.spellsNames = true := by
    rcases hr with hr | hr | hr <;> rw [hr] <;> rfl
  obtain ⟨parts⟩ := decl_parts ht hn hr
  rw [Node.referents_of_spellsNames hspells]
  apply filter_members
  intro c hc
  have hcn := Tree.child_mem_nodes hn hc
  have hmember := (Rule.members_cases n.rule).2 c.rule
  rcases parts.rule_cases c hc with hmem | hident | hparams | himpls
  · exact .inl ⟨hmem, hmember hmem⟩
  · exact .inr ⟨fun hmem => (hmember hmem).2 hident, .inl hident⟩
  · refine .inr ⟨fun hmem => ?_, .inr (offers_genericParams ht hcn hparams)⟩
    rw [hparams] at hmember
    exact nomatch (hmember (hparams ▸ hmem)).1
  · refine .inr ⟨fun hmem => ?_, .inr (offers_impls ht hcn himpls)⟩
    rw [himpls] at hmember
    exact nomatch (hmember (himpls ▸ hmem)).1

theorem fileDecl_yields (hr : n.rule = .file) :
    t.Yields (fun d => (Ast.file d).Refers n) (fileDecl n) := by
  have hlayout := ht.layout hn
  rw [hr] at hlayout
  rw [fileDecl, Node.allow_eq (List.forall_mem_map.mp hlayout)]
  refine .of_members (referents_file ht hn hr) ?_ ?_
  · rw [Ast.handles, Node.entries_handlesOf n rfl, Node.entries_handlesOf n rfl,
      Node.entries_handlesOf n rfl, Node.entries_handlesOf n rfl, Node.entries_handlesOf n rfl,
      Node.entries_handlesOf n rfl]
    simp [hr, Rule.members, Node.entries_append]
  · simp [hr, Rule.members, Ast.lists, Ast.ids_handlesOf]

theorem enumDecl_yields (hr : n.rule = .enumDecl) :
    t.Yields (fun d => (Ast.enum d).Refers n)
      (enumDecl t.source (fun _ inner => inner) n) := by
  obtain ⟨parts⟩ := decl_parts ht hn (.inr (.inr hr))
  rw [enumDecl_eq parts hr]
  refine .of_members (referents_typeDecl ht hn (.inr (.inr hr))) ?_ ?_
  · rw [Ast.handles, Node.entries_handlesOf n rfl, Node.entries_handlesOf n rfl,
      Node.entries_handlesOf n rfl, Node.entries_handlesOf n rfl]
    simp [hr, Rule.members, Node.entries_append]
  · simp [hr, Rule.members, Ast.lists, Ast.ids_handlesOf]

theorem implPaths_yields : t.Yields (fun _ => True)
    (implPaths t.source (fun _ inner => inner) n : Except Error (List Path)) := by
  refine (Tree.Yields.mapM (R := fun _ => Path.IsSource) fun p hp => ?_).mono fun _ _ => trivial
  cases hfirst : n.first? .impls with
  | none =>
      rw [hfirst] at hp
      exact absurd hp List.not_mem_nil
  | some c =>
      obtain ⟨hc, hr⟩ := Node.mem_of_first? hfirst
      have hcn := Tree.child_mem_nodes hn hc
      rw [hfirst] at hp
      exact pathOf_yields ht (Tree.child_mem_nodes hcn hp) (impls_children ht hcn hr p hp)

theorem structDecl_yields (hr : n.rule = .structDecl) :
    t.Yields (fun d => (Ast.struct d).Refers n)
      (structDecl t.source (fun _ inner => inner) n) := by
  obtain ⟨parts⟩ := decl_parts ht hn (.inl hr)
  rw [structDecl_eq parts]
  refine (implPaths_yields ht hn).map fun impls _ => ?_
  refine .of_members (referents_typeDecl ht hn (.inl hr)) ?_ ?_
  · rw [Ast.handles, Node.entries_handlesOf n rfl, Node.entries_handlesOf n rfl,
      Node.entries_handlesOf n rfl, Node.entries_handlesOf n rfl]
    simp [hr, Rule.members, Node.entries_append]
  · simp [hr, Rule.members, Ast.lists, Ast.ids_handlesOf]

theorem interfaceDecl_yields (hr : n.rule = .interfaceDecl) :
    t.Yields (fun d => (Ast.interface d).Refers n)
      (interfaceDecl t.source (fun _ inner => inner) n) := by
  obtain ⟨parts⟩ := decl_parts ht hn (.inr (.inl hr))
  rw [interfaceDecl_eq parts]
  refine (implPaths_yields ht hn).map fun impls _ => ?_
  refine .of_members (referents_typeDecl ht hn (.inr (.inl hr))) ?_ ?_
  · rw [Ast.handles, Node.entries_handlesOf n rfl, Node.entries_handlesOf n rfl,
      Node.entries_handlesOf n rfl]
    simp [hr, Rule.members, Node.entries_append]
  · simp [hr, Rule.members, Ast.lists, Ast.ids_handlesOf]

theorem referents_useStmt (hr : n.rule = .useStmt) : n.referents = [] := by
  have hlayout := ht.layout hn
  rw [hr] at hlayout
  obtain ⟨names, hrules, hnames⟩ := hlayout
  rw [Node.referents_of_spellsNames (by rw [hr]; rfl), List.flatMap_eq_nil_iff]
  intro c hc
  obtain ⟨hmem, hne⟩ := List.mem_filter.mp hc
  have hpath : c.rule = .path := by
    have hrule : c.rule ∈ Rule.path :: names := by
      rw [← hrules]
      exact List.mem_map_of_mem hmem
    rcases hnames with rfl | rfl <;> simp_all
  rw [Node.offers_of_not_meaning (by rw [hpath]; rfl)]
  exact referents_path ht (Tree.child_mem_nodes hn hmem) hpath

theorem useDecl_eq (hr : n.rule = .useStmt) :
    ∃ c ∈ n.children, c.rule = .path ∧ n.children[0]? = some c ∧ ∃ localName : Option String,
      (useDecl t.source (fun _ inner => inner) n : Except Error UseDecl) =
        (fun path => ⟨path, localName⟩) <$> t.path c := by
  have hlayout := ht.layout hn
  rw [hr] at hlayout
  obtain ⟨names, hrules, hnames⟩ := hlayout
  obtain ⟨c, others, hchildren, hpath, rfl⟩ := List.map_eq_cons_iff.mp hrules
  have hchild : n.childOf 0 .path = .ok c :=
    Node.childOf_eq_ok_iff.mpr ⟨by rw [hchildren]; rfl, hpath⟩
  refine ⟨c, by simp [hchildren], hpath, by rw [hchildren]; rfl, ?_⟩
  rw [useDecl, hchild]
  rcases hnames with hnil | hone
  · rw [List.map_eq_nil_iff] at hnil
    rw [hchildren, hnil]
    exact ⟨none, rfl⟩
  · obtain ⟨d, rfl, hd⟩ := List.map_eq_singleton_iff.mp hone
    rw [Node.identAt_eq t.source (c := d) (by rw [hchildren]; rfl) hd, hchildren]
    exact ⟨some (d.name t.source), rfl⟩

theorem useDecl_yields (hr : n.rule = .useStmt) :
    t.Yields (fun d => (Ast.use d).handles = Node.entries n.referents)
      (useDecl t.source (fun _ inner => inner) n : Except Error UseDecl) := by
  obtain ⟨c, hc, hpath, -, localName, huse⟩ := useDecl_eq ht hn hr
  have hcn := Tree.child_mem_nodes hn hc
  rw [huse, referents_useStmt ht hn hr]
  exact (pathOf_yields ht hcn hpath).map fun _ _ => rfl

theorem fieldDecl_yields (hr : n.rule = .field) :
    t.Yields (fun d => (Ast.field d).handles = Node.entries n.referents)
      (fieldDecl n t.source) := by
  have hlayout := ht.layout hn
  rw [hr] at hlayout
  obtain ⟨name, c, others, hchildren, hname, hc, hnil, htyped⟩ := typedName_eq hlayout t.source
  cases List.map_eq_nil_iff.mp hnil
  rw [fieldDecl, htyped, referents_typed (by rw [hr]; rfl) hchildren hname hc]
  exact rfl

theorem paramDecl_yields (hr : n.rule = .param) :
    t.Yields (fun d => (Ast.param d).handles = Node.entries n.referents)
      (paramDecl n t.source) := by
  have hlayout := ht.layout hn
  rw [hr] at hlayout
  obtain ⟨name, c, others, hchildren, hname, hc, hnil, htyped⟩ := typedName_eq hlayout t.source
  cases List.map_eq_nil_iff.mp hnil
  rw [paramDecl, htyped, referents_typed (by rw [hr]; rfl) hchildren hname hc]
  exact rfl

theorem globalDecl_yields (hr : n.rule = .global) :
    t.Yields (fun d => (Ast.global d).handles = Node.entries n.referents)
      (globalDecl n t.source) := by
  have hlayout := ht.layout hn
  rw [hr] at hlayout
  obtain ⟨r, hrules, hexpr⟩ := hlayout
  obtain ⟨name, c, others, hchildren, hname, hc, hone, htyped⟩ := typedName_eq hrules t.source
  obtain ⟨value, rfl, rfl⟩ := List.map_eq_singleton_iff.mp hone
  have hmeaning : ∀ d ∈ [c, value], d.rule.hasMeaning = true := by
    rw [List.forall_mem_cons, List.forall_mem_singleton]
    exact ⟨by rw [hc]; rfl, Rule.hasMeaning_of_isExpr hexpr⟩
  rw [globalDecl, htyped]
  show t.Yields _ (do let value ← n.child 2; pure _)
  rw [Node.child_eq (show n.children[2]? = some value by rw [hchildren]; rfl),
    Node.referents_of_spellsFirst (by rw [hr]; rfl) hchildren hname, Node.flatMap_offers hmeaning,
    Node.entries_type hc, Node.entries_expr hexpr]
  exact rfl

theorem enumField_yields (hr : n.rule = .enumField) :
    t.Yields (fun d => (Ast.enumField d).handles = Node.entries n.referents)
      (enumField n t.source) := by
  have hlayout := ht.layout hn
  rw [hr] at hlayout
  obtain ⟨types, hrules, htypes⟩ := hlayout
  obtain ⟨name, others, hchildren, hname, rfl⟩ := List.map_eq_cons_iff.mp hrules
  have hident : n.identAt t.source 0 = .ok (name.name t.source) :=
    Node.identAt_eq t.source (by rw [hchildren]; rfl) hname
  rw [enumField, hident]
  rcases htypes with hnil | hone
  · cases List.map_eq_nil_iff.mp hnil
    rw [optionalAt, hchildren, Node.referents_of_named (by rw [hr]; rfl) hchildren hname nofun]
    exact rfl
  · obtain ⟨c, rfl, hc⟩ := List.map_eq_singleton_iff.mp hone
    have hget : n.children[1]? = some c := by rw [hchildren]; rfl
    rw [optionalAt, hget, Node.childOf_eq_ok_iff.mpr ⟨hget, hc⟩,
      referents_typed (by rw [hr]; rfl) hchildren hname hc]
    exact rfl

theorem args_exprs (hr : n.rule = .args) : ∀ c ∈ n.children, c.rule.isExpr = true := by
  have hlayout := ht.layout hn
  rw [hr] at hlayout
  exact List.forall_mem_map.mp hlayout

theorem entries_args (hr : n.rule = .args) :
    Node.entries n.offers = (n.handles : List (Handle .expr)).map Handle.entry := by
  have hexprs := args_exprs ht hn hr
  rw [Node.offers_of_not_meaning (by rw [hr]; rfl), Node.referents_eq_children (by rw [hr]; rfl)
    fun c hc => Rule.hasMeaning_of_isExpr (hexprs c hc)]
  exact Node.entries_map fun c hc => Rule.kind?_of_isExpr (hexprs c hc)

theorem attribDecl_yields (hr : n.rule = .attrib) :
    t.Yields (fun d => (Ast.attrib d).handles = Node.entries n.referents)
      (attribDecl n t.source) := by
  have hlayout := ht.layout hn
  rw [hr] at hlayout
  obtain ⟨arguments, hrules, harguments⟩ := hlayout
  obtain ⟨name, others, hchildren, hname, rfl⟩ := List.map_eq_cons_iff.mp hrules
  have hident : n.identAt t.source 0 = .ok (name.name t.source) :=
    Node.identAt_eq t.source (by rw [hchildren]; rfl) hname
  rw [attribDecl, hident]
  rcases harguments with hnil | hone
  · cases List.map_eq_nil_iff.mp hnil
    rw [hchildren, Node.referents_of_named (by rw [hr]; rfl) hchildren hname nofun]
    exact rfl
  · obtain ⟨c, rfl, hc⟩ := List.map_eq_singleton_iff.mp hone
    have hget : n.children[1]? = some c := by rw [hchildren]; rfl
    have hcn := Tree.child_mem_nodes hn (List.mem_of_getElem? hget)
    have hne : ∀ d ∈ [c], d.rule ≠ .ident := by simp [hc]
    rw [hget, Node.childOf_eq_ok_iff.mpr ⟨hget, hc⟩,
      Node.referents_of_named (by rw [hr]; rfl) hchildren hname hne, List.flatMap_singleton,
      entries_args ht hcn hc]
    exact List.append_nil _

theorem offers_parameters (hr : n.rule = .fnParams ∨ n.rule = .methodParams) :
    n.offers = n.children.filter (·.rule = .param) := by
  have hlayout := ht.layout hn
  rcases hr with hr | hr
  · rw [hr] at hlayout
    have hparams : ∀ c ∈ n.children, c.rule = .param := List.forall_mem_map.mp hlayout
    rw [Node.offers_of_not_meaning (by rw [hr]; rfl), Node.referents_eq_children (by rw [hr]; rfl)
      fun c hc => by rw [hparams c hc]; rfl, List.filter_eq_self.mpr]
    exact fun c hc => decide_eq_true (hparams c hc)
  · rw [hr] at hlayout
    obtain ⟨l, hrules, hl⟩ := hlayout
    obtain ⟨self, params, hchildren, hself, rfl⟩ := List.map_eq_cons_iff.mp hrules
    have hparams : ∀ c ∈ params, c.rule = .param := List.forall_mem_map.mp hl
    have hkept : params.filter (·.rule ≠ .kw .lowerSelf) = params :=
      List.filter_eq_self.mpr fun c hc => by simp [hparams c hc]
    rw [Node.offers_of_not_meaning (by rw [hr]; rfl), Node.referents_methodParams hr, hchildren,
      List.filter_cons_of_neg (by simp [hself]), List.filter_cons_of_neg (by simp [hself]), hkept,
      Node.flatMap_offers fun c hc => by rw [hparams c hc]; rfl, List.filter_eq_self.mpr]
    exact fun c hc => decide_eq_true (hparams c hc)

theorem entries_fn (parts : FnParts n) (hr : n.rule.spellsNames = true) :
    Node.entries n.referents =
      Node.entries parts.attribs ++ Node.entries parts.params.offers ++
        Node.entries parts.result.toList ++ Node.entries parts.body.toList := by
  have hgenerics : parts.generics.toList.flatMap Node.offers = [] := by
    refine List.flatMap_eq_nil_iff.mpr fun c hc => ?_
    exact offers_genericParams ht (Tree.child_mem_nodes hn (by simp [parts.children, hc]))
      (parts.generics_rule c (Option.mem_toList.mp hc))
  have hself {cs : List Node} {x : Rule} (h : ∀ c ∈ cs, c.rule = x) (hx : x.hasMeaning = true) :
      cs.flatMap Node.offers = cs :=
    Node.flatMap_offers fun c hc => by rw [h c hc, hx]
  have hkept {cs : List Node} {x : Rule} (h : ∀ c ∈ cs, c.rule = x) (hx : x ≠ .ident) :
      cs.filter (·.rule ≠ .ident) = cs :=
    List.filter_eq_self.mpr fun c hc => by simp [h c hc, hx]
  have hresult : ∀ c ∈ parts.result.toList, c.rule = .ty :=
    fun c hc => parts.result_rule c (Option.mem_toList.mp hc)
  have hbody : ∀ c ∈ parts.body.toList, c.rule = .blockExpr :=
    fun c hc => parts.body_rule c (Option.mem_toList.mp hc)
  have hgenericsRule : ∀ c ∈ parts.generics.toList, c.rule = .genericParams :=
    fun c hc => parts.generics_rule c (Option.mem_toList.mp hc)
  have hparams : [parts.params].filter (·.rule ≠ .ident) = [parts.params] := by
    rcases parts.params_rule with hr | hr <;> simp [hr]
  have hname : [parts.name].filter (·.rule ≠ .ident) = [] := by simp [parts.name_rule]
  rw [Node.referents_of_spellsNames hr, parts.children, List.filter_append, List.filter_append,
    List.filter_append, List.filter_append, List.filter_append, hname,
    hkept parts.attribs_rule nofun, hkept hgenericsRule nofun, hparams, hkept hresult nofun,
    hkept hbody nofun]
  simp [hgenerics, hself parts.attribs_rule rfl, hself hresult rfl, hself hbody rfl,
    Node.entries_append]

theorem fnDecl_yields (hr : n.rule = .fnDecl ∨ n.rule = .methodDecl) :
    t.Yields (fun d => (Ast.fn d).handles = Node.entries n.referents) (fnDecl n t.source) := by
  obtain ⟨parts⟩ := fn_parts ht hn hr
  have hspells : n.rule.spellsNames = true := by
    rcases hr with hr | hr <;> rw [hr] <;> rfl
  have hps := Tree.child_mem_nodes hn parts.params_mem
  have hattribs : Node.entries parts.attribs =
      (parts.attribs.map (Node.handle : Node → Handle .attrib)).map Handle.entry :=
    Node.entries_map fun c hc => by rw [parts.attribs_rule c hc]; rfl
  rw [fnDecl_eq parts, entries_fn ht hn parts hspells, offers_parameters ht hps parts.params_rule,
    hattribs]
  show Ast.handles _ = _
  rw [Ast.handles, Node.entries_handlesOf parts.params rfl,
    Node.entries_toList fun c hc => by rw [parts.result_rule c hc]; rfl,
    Node.entries_toList fun c hc => by rw [parts.body_rule c hc]; rfl]

end Lowering

end XiFront

import XiFront.Ast.Describe
import XiFront.Proofs.Session.Reach

namespace XiFront

namespace Lowering

section WellFormed

variable {t : Tree} (ht : t.WellFormed) {n : Node} (hn : n ∈ t.nodes)
include ht hn

theorem params_rule_eq (parts : FnParts n) :
    (n.rule = .fnDecl → parts.params.rule = .fnParams) ∧
      (n.rule = .methodDecl → parts.params.rule = .methodParams) := by
  have hadmits : n.rule.admits parts.params.rule = true :=
    Rule.admits_of_inside (ht.formed n (Tree.mem_nodes.mp hn)).inside
      (List.mem_map_of_mem parts.params_mem)
  constructor
  · intro hr
    rcases parts.params_rule with hparams | hparams
    · exact hparams
    · rw [hr, hparams] at hadmits
      exact absurd hadmits (by decide)
  · intro hr
    rcases parts.params_rule with hparams | hparams
    · rw [hr, hparams] at hadmits
      exact absurd hadmits (by decide)
    · exact hparams

theorem any_self_eq (parts : FnParts n) (hr : n.rule = .fnDecl ∨ n.rule = .methodDecl) :
    parts.params.children.any (·.rule = .kw .lowerSelf) = decide (n.rule = .methodDecl) := by
  have hlayout := ht.layout (Tree.child_mem_nodes hn parts.params_mem)
  obtain ⟨hfn, hmethod⟩ := params_rule_eq ht hn parts
  rcases hr with hr | hr
  · rw [hfn hr] at hlayout
    have hparams : ∀ c ∈ parts.params.children, c.rule = .param := List.forall_mem_map.mp hlayout
    rw [hr]
    exact List.any_eq_false.mpr fun c hc => by simp [hparams c hc]
  · rw [hmethod hr] at hlayout
    obtain ⟨l, hrules, -⟩ := hlayout
    obtain ⟨self, params, hchildren, hfirst, -⟩ := List.map_eq_cons_iff.mp hrules
    rw [hr, hchildren]
    exact List.any_eq_true.mpr ⟨self, List.mem_cons_self, decide_eq_true hfirst⟩

theorem exists_fnDecl (hr : n.rule = .fnDecl ∨ n.rule = .methodDecl) :
    ∃ d, fnDecl n t.source = .ok d ∧ d.hasSelf = decide (n.rule = .methodDecl) := by
  obtain ⟨parts⟩ := fn_parts ht hn hr
  exact ⟨_, fnDecl_eq parts t.source, any_self_eq ht hn parts hr⟩

theorem meaning_fnDecl (hr : n.rule = .fnDecl) :
    ∃ d, t.meaning n = .ok (.fn d) ∧ d.hasSelf = false := by
  obtain ⟨d, hd, hself⟩ := exists_fnDecl ht hn (.inl hr)
  rw [hr] at hself
  refine ⟨d, ?_, hself⟩
  rw [Tree.meaning, lower, hr]
  simp only [ofExcept_eq, hd]
  rfl

theorem meaning_methodDecl (hr : n.rule = .methodDecl) :
    ∃ d, t.meaning n = .ok (.method d) ∧ d.hasSelf = true := by
  obtain ⟨d, hd, hself⟩ := exists_fnDecl ht hn (.inr hr)
  rw [hr] at hself
  refine ⟨d, ?_, hself⟩
  rw [Tree.meaning, lower, hr]
  simp only [ofExcept_eq, hd]
  rfl

theorem name_ne_self (hr : n.rule = .ident) : n.name t.source ≠ "self" := by
  obtain ⟨c, c', htakes⟩ := ht.takes hn (by rw [hr]; rfl)
  rw [hr] at htakes
  intro hself
  exact (takes_ident htakes).free ⟨.lowerSelf, (String.ofList_injective hself).symm⟩

theorem meaning_param (hr : n.rule = .param) :
    ∃ d, t.meaning n = .ok (.param d) ∧ d.id ≠ "self" := by
  have hlayout := ht.layout hn
  rw [hr] at hlayout
  obtain ⟨name, c, others, hchildren, hname, -, -, htyped⟩ := typedName_eq hlayout t.source
  have hchild : name ∈ n.children := by
    rw [hchildren]
    exact List.mem_cons_self
  have hdecl : paramDecl n t.source = .ok ⟨name.name t.source, c.handle⟩ := by
    rw [paramDecl, htyped]
    rfl
  refine ⟨⟨name.name t.source, c.handle⟩, ?_, name_ne_self ht (Tree.child_mem_nodes hn hchild) hname⟩
  rw [Tree.meaning, lower, hr]
  simp only [ofExcept_eq, hdecl]
  rfl

end WellFormed

theorem fileDecl_fns {n : Node} {d : FileDecl} (h : fileDecl n = .ok d) :
    d.fns = n.handlesOf .fnDecl := by
  obtain ⟨_, _, hd⟩ := bind_eq_ok_iff.mp h
  cases hd
  rfl

theorem mem_ids_handlesOf {k : Kind} {n : Node} {r : Rule} {id : Nat}
    (h : id ∈ Ast.ids (n.handlesOf r : List (Handle k))) :
    ∃ c ∈ n.children, c.rule = r ∧ c.id = id := by
  rw [Ast.ids_handlesOf] at h
  obtain ⟨c, hc, hid⟩ := List.mem_map.mp h
  obtain ⟨hmem, hrule⟩ := List.mem_filter.mp hc
  exact ⟨c, hmem, of_decide_eq_true hrule, hid⟩

/-- Where the functions, methods and parameters that a meaning lists stand in the tree, and which
rule makes it a function or a method itself. -/
structure ListsFunctions (a : Ast) (n : Node) : Prop where
  fns : ∀ k ids, a.members? "fns" = some (k, ids) →
    ∀ id ∈ ids, ∃ c ∈ n.children, c.rule = .fnDecl ∧ c.id = id
  methods : ∀ k ids, a.members? "methods" = some (k, ids) →
    ∀ id ∈ ids, ∃ c ∈ n.children, c.rule = .methodDecl ∧ c.id = id
  params : ∀ k ids, a.members? "params" = some (k, ids) →
    ∀ id ∈ ids, ∃ list ∈ n.children, ∃ c ∈ list.children, c.rule = .param ∧ c.id = id
  fn : ∀ d, a = .fn d → n.rule = .fnDecl
  method : ∀ d, a = .method d → n.rule = .methodDecl

theorem ListsFunctions.of_declaration {a : Ast} {n : Node} {fns methods : List (Handle .fn)}
    (hlists : fns = n.handlesOf .fnDecl ∧ methods = n.handlesOf .methodDecl)
    (hfns : a.members? "fns" = some (.fn, Ast.ids fns))
    (hmethods : a.members? "methods" = some (.fn, Ast.ids methods))
    (hparams : a.members? "params" = none) (hfn : ∀ d, a ≠ .fn d)
    (hmethod : ∀ d, a ≠ .method d) :
    ListsFunctions a n where
  fns k ids hids := by
    cases hfns.symm.trans hids
    rw [hlists.1]
    exact fun _ => mem_ids_handlesOf
  methods k ids hids := by
    cases hmethods.symm.trans hids
    rw [hlists.2]
    exact fun _ => mem_ids_handlesOf
  params k ids hids := nomatch hparams.symm.trans hids
  fn d h := absurd h (hfn d)
  method d h := absurd h (hmethod d)

section WellFormed

variable {t : Tree} (ht : t.WellFormed) {n : Node} (hn : n ∈ t.nodes)
include ht hn

theorem params_of_fnDecl (hr : n.rule = .fnDecl ∨ n.rule = .methodDecl) {d : FnDecl}
    (h : fnDecl n t.source = .ok d) :
    ∀ id ∈ Ast.ids d.params, ∃ list ∈ n.children, ∃ c ∈ list.children,
      c.rule = .param ∧ c.id = id := by
  intro id hid
  obtain ⟨parts⟩ := fn_parts ht hn hr
  rw [fnDecl_eq parts] at h
  cases h
  exact ⟨parts.params, parts.params_mem, mem_ids_handlesOf hid⟩

theorem listsFunctions_of_meaning {a : Ast} (h : t.meaning n = .ok a) : ListsFunctions a n := by
  unfold Tree.meaning lower at h
  simp only [ofExcept_eq] at h
  split at h
  case h_1 =>
    obtain ⟨d, hd, rfl⟩ := map_eq_ok_iff.mp h
    have hfns := fileDecl_fns hd
    refine ⟨fun k ids hids => ?_, nofun, nofun, nofun, nofun⟩
    cases hids
    rw [hfns]
    exact fun _ => mem_ids_handlesOf
  case h_3 hr =>
    obtain ⟨parts⟩ := decl_parts ht hn (.inl hr)
    rw [structDecl_eq parts] at h
    obtain ⟨d, hd, rfl⟩ := map_eq_ok_iff.mp h
    obtain ⟨impls, -, rfl⟩ := map_eq_ok_iff.mp hd
    exact .of_declaration ⟨rfl, rfl⟩ rfl rfl rfl nofun nofun
  case h_4 hr =>
    obtain ⟨parts⟩ := decl_parts ht hn (.inr (.inl hr))
    rw [interfaceDecl_eq parts] at h
    obtain ⟨d, hd, rfl⟩ := map_eq_ok_iff.mp h
    obtain ⟨impls, -, rfl⟩ := map_eq_ok_iff.mp hd
    exact .of_declaration ⟨rfl, rfl⟩ rfl rfl rfl nofun nofun
  case h_5 hr =>
    obtain ⟨parts⟩ := decl_parts ht hn (.inr (.inr hr))
    rw [enumDecl_eq parts hr] at h
    cases h
    exact .of_declaration ⟨rfl, rfl⟩ rfl rfl rfl nofun nofun
  case h_7 hr =>
    obtain ⟨d, hd, rfl⟩ := map_eq_ok_iff.mp h
    refine ⟨nofun, nofun, fun k ids hids => ?_, fun _ _ => hr, nofun⟩
    cases hids
    exact params_of_fnDecl ht hn (.inl hr) hd
  case h_8 hr =>
    obtain ⟨d, hd, rfl⟩ := map_eq_ok_iff.mp h
    refine ⟨nofun, nofun, fun k ids hids => ?_, nofun, fun _ _ => hr⟩
    cases hids
    exact params_of_fnDecl ht hn (.inr hr) hd
  case h_16 =>
    split at h
    · obtain ⟨d, hd, rfl⟩ := map_eq_ok_iff.mp h
      constructor <;> simp [Ast.members?]
    · exact nomatch h
  all_goals
    obtain ⟨d, hd, rfl⟩ := map_eq_ok_iff.mp h
    constructor <;> simp [Ast.members?]

/-- What a node means as a function tells by itself whether it is a method. -/
theorem hasSelf_of_meaning {a : Ast} (h : t.meaning n = .ok a) :
    (∀ d, a = .fn d → d.hasSelf = false) ∧ ∀ d, a = .method d → d.hasSelf = true := by
  have hlists := listsFunctions_of_meaning ht hn h
  constructor
  · intro d hd
    obtain ⟨d', hd', hself⟩ := meaning_fnDecl ht hn (hlists.fn d hd)
    rw [h, hd] at hd'
    cases hd'
    exact hself
  · intro d hd
    obtain ⟨d', hd', hself⟩ := meaning_methodDecl ht hn (hlists.method d hd)
    rw [h, hd] at hd'
    cases hd'
    exact hself

end WellFormed

end Lowering

theorem FnDecl.describe_eq (d : FnDecl) :
    d.describe =
      (if d.hasSelf then "Method" else "Fn") ++ " " ++ d.id ++ describeGenerics d.generics := by
  rw [describe]
  cases d.hasSelf <;> rfl

theorem Ast.describe_function {a : Ast} {d : FnDecl} (hd : a = .fn d ∨ a = .method d)
    (hfn : ∀ d, a = .fn d → d.hasSelf = false) (hmethod : ∀ d, a = .method d → d.hasSelf = true) :
    a.describe = a.kindName ++ " " ++ d.id ++ describeGenerics d.generics := by
  have hdescribe : a.describe = d.describe := by
    rcases hd with rfl | rfl <;> rfl
  rw [hdescribe, d.describe_eq]
  rcases hd with hd | hd
  · rw [hfn d hd, hd]
    rfl
  · rw [hmethod d hd, hd]
    rfl

namespace Session

/-- Wherever a session stands, what a declaration or a file lists as methods are functions that take
`self`, what it lists as functions are functions that do not, and no parameter of either is called
`self`; so the word that a function is described with is the name of its kind. -/
theorem methods_take_self {source : Source} {t : Tree} (h : Tree.parse source = .ok t)
    (ops : List Operation) {n : Node} (hn : n ∈ t.nodes) {a : Ast} :
    let s := ((start t).run ops).2
    (s.step (.meaning n.id)).1 = .meaning a →
      (∀ k ids, a.members? "methods" = some (k, ids) → ∀ id ∈ ids,
        ∃ d, (s.step (.meaningAs id .fn)).1 = .meaning (.method d) ∧ d.hasSelf = true) ∧
      (∀ k ids, a.members? "fns" = some (k, ids) → ∀ id ∈ ids,
        ∃ d, (s.step (.meaningAs id .fn)).1 = .meaning (.fn d) ∧ d.hasSelf = false) ∧
      (∀ k ids, a.members? "params" = some (k, ids) → ∀ id ∈ ids,
        ∃ d, (s.step (.meaningAs id .param)).1 = .meaning (.param d) ∧ d.id ≠ "self") ∧
      (∀ d, a = .fn d → d.hasSelf = false) ∧ (∀ d, a = .method d → d.hasSelf = true) ∧
      ∀ d, a = .fn d ∨ a = .method d →
        a.describe = a.kindName ++ " " ++ d.id ++ describeGenerics d.generics := by
  obtain ⟨ht, rfl⟩ := Tree.wellFormed_of_parse h
  intro s ha
  have hmeaning : t.meaning n = .ok a := (step_meaning_eq_iff ht ops hn).mp ha
  have hresolve {c : Node} (hc : c ∈ t.nodes) {b : Ast} (hb : t.meaning c = .ok b) :
      (s.step (.meaningAs c.id b.kind)).1 = .meaning b :=
    (step_meaningAs_eq_iff ht ops b.kind hc).mpr (Tree.meaningAs_eq_ok_iff.mpr ⟨hb, rfl⟩)
  have hlists := Lowering.listsFunctions_of_meaning ht hn hmeaning
  obtain ⟨hfn, hmethod⟩ := Lowering.hasSelf_of_meaning ht hn hmeaning
  refine ⟨fun k ids hids id hid => ?_, fun k ids hids id hid => ?_, fun k ids hids id hid => ?_,
    hfn, hmethod, fun d hd => a.describe_function hd hfn hmethod⟩
  · obtain ⟨c, hc, hr, rfl⟩ := hlists.methods k ids hids id hid
    have hcn := Tree.child_mem_nodes hn hc
    obtain ⟨d, hd, hself⟩ := Lowering.meaning_methodDecl ht hcn hr
    have hanswer := hresolve hcn hd
    exact ⟨d, hanswer, hself⟩
  · obtain ⟨c, hc, hr, rfl⟩ := hlists.fns k ids hids id hid
    have hcn := Tree.child_mem_nodes hn hc
    obtain ⟨d, hd, hself⟩ := Lowering.meaning_fnDecl ht hcn hr
    have hanswer := hresolve hcn hd
    exact ⟨d, hanswer, hself⟩
  · obtain ⟨list, hlist, c, hc, hr, rfl⟩ := hlists.params k ids hids id hid
    have hcn := Tree.child_mem_nodes (Tree.child_mem_nodes hn hlist) hc
    obtain ⟨d, hd, hname⟩ := Lowering.meaning_param ht hcn hr
    have hanswer := hresolve hcn hd
    exact ⟨d, hanswer, hname⟩

/-- A struct with a method and a function, asked for after a question that fails. -/
theorem methods_take_self_struct :
    ∃ t n a, Tree.parse "struct S{fn f(self){}fn h(){}}".toList = .ok t ∧
      n ∈ t.nodes ∧ a.members? "methods" = some (.fn, [5]) ∧
      let s := ((start t).run [.path n.id]).2
      (s.step (.meaning n.id)).1 = .meaning a ∧
        ∃ d, (s.step (.meaningAs 5 .fn)).1 = .meaning (.method d) ∧ d.hasSelf = true := by
  have hfound : (Tree.parse "struct S{fn f(self){}fn h(){}}".toList).toOption.map (fun t =>
      decide (∃ n ∈ t.nodes, ((t.meaning n).toOption.bind fun a => a.members? "methods") =
        some (.fn, [5]))) = some true := by
    decide +kernel
  obtain ⟨t, h, hfound⟩ := Tree.exists_parse_of_map hfound
  obtain ⟨n, hn, hsome⟩ := of_decide_eq_true hfound
  obtain ⟨a, ha, hmembers⟩ := Option.bind_eq_some_iff.mp hsome
  obtain ⟨ht, -⟩ := Tree.wellFormed_of_parse h
  have hok : t.meaning n = .ok a := by
    cases hm : t.meaning n with
    | error e =>
        rw [hm] at ha
        exact nomatch ha
    | ok b =>
        rw [hm] at ha
        exact congrArg Except.ok (Option.some.inj ha)
  have hstep := (step_meaning_eq_iff ht [.path n.id] hn).mpr hok
  have hmethods := (methods_take_self h [.path n.id] hn hstep).1
  exact ⟨t, n, a, h, hn, hmembers, hstep, hmethods _ _ hmembers 5 List.mem_cons_self⟩

end Session

end XiFront

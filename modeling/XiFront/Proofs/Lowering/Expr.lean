import Mathlib.Data.Set.List
import XiFront.Proofs.Lowering.Item
import XiFront.Proofs.Lowering.Literal

namespace XiFront.Lowering

open Peg

theorem unaryOps_eq (n : Node) {cs : List Node} {os : List UnaryOp}
    (h : cs.map Node.rule = os.map Rule.unary) : unaryOps n cs = .ok os := by
  induction cs generalizing os with
  | nil =>
      cases List.map_eq_nil_iff.mp h.symm
      rfl
  | cons c cs ih =>
      obtain ⟨o, os, rfl, ho, hos⟩ := List.map_eq_cons_iff.mp h.symm
      rw [unaryOps, ← ho]
      simp only [ih hos.symm]
      rfl

theorem unary_eq {n operand : Node} {cs : List Node} {os : List UnaryOp}
    (hchildren : n.children = cs ++ [operand]) (h : cs.map Node.rule = os.map Rule.unary) :
    unary n = .ok (.unary os operand.handle) := by
  unfold unary
  simp only [hchildren, List.getLast?_concat, List.dropLast_concat, unaryOps_eq n h]
  rfl

theorem castTypes_eq {n : Node} {cs : List Node} (h : ∀ c ∈ cs, c.rule = .ty) :
    castTypes n cs = .ok (cs.map Node.handle) := by
  induction cs with
  | nil => rfl
  | cons c cs ih =>
      rw [List.forall_mem_cons] at h
      rw [castTypes, if_pos h.1, ih h.2]
      rfl

theorem binaryOps_eq {t : Tree} (ht : t.WellFormed) (n : Node) {v : Level} {cs : List Node}
    (hcs : ∀ c ∈ cs, c ∈ t.nodes)
    (h : Repeated (fun w => ∃ o e, w = [Rule.binary o, e] ∧ o.level = v ∧ e.isExpr = true)
      (cs.map Node.rule)) :
    ∃ os, binaryOps n cs = .ok os ∧
      (os.map fun o => o.2.entry) = Node.entries (cs.flatMap Node.offers) := by
  generalize hrules : cs.map Node.rule = l at h
  induction h generalizing cs with
  | nil =>
      cases List.map_eq_nil_iff.mp hrules
      exact ⟨[], rfl, rfl⟩
  | append hw _ ih =>
      obtain ⟨o, e, rfl, -, he⟩ := hw
      obtain ⟨c, cs, rfl, hc, hcs'⟩ := List.map_eq_cons_iff.mp hrules
      obtain ⟨operand, cs, rfl, rfl, hrest⟩ := List.map_eq_cons_iff.mp hcs'
      rw [List.forall_mem_cons, List.forall_mem_cons] at hcs
      obtain ⟨os, hos, hentries⟩ := ih hcs.2.2 hrest
      have hoperator : c.offers = [] :=
        offers_eq_nil ht hcs.1 (by rw [hc]; rfl) (by rw [hc]; exact id)
      refine ⟨(o, operand.handle) :: os, ?_, ?_⟩
      · rw [binaryOps, hc]
        simp only [hos]
        rfl
      · rw [List.flatMap_cons, List.flatMap_cons, hoperator, List.nil_append,
          Node.offers_of_meaning (Rule.hasMeaning_of_isExpr he), List.singleton_append,
          Node.entries_expr he, ← hentries, List.map_cons]

theorem binary_eq {n first : Node} {cs : List Node} {os : List (BinaryOp × Handle .expr)}
    (hchildren : n.children = first :: cs) (h : binaryOps n cs = .ok os) :
    binary n = .ok (.binary first.handle os) := by
  rw [binary, Node.child_eq (by rw [hchildren]; rfl), hchildren, List.tail_cons, h]
  rfl

variable {t : Tree} (ht : t.WellFormed) {n : Node} (hn : n ∈ t.nodes)
include ht hn

theorem unary_yields (hr : n.rule = .unaryExpr) :
    t.Yields (fun e => e.handles = Node.entries n.referents) (unary n) := by
  have hlayout := ht.layout hn
  rw [hr] at hlayout
  obtain ⟨l, e, hrules, hoperators, he⟩ := hlayout
  obtain ⟨operators, last, hchildren, rfl, hlast⟩ := List.map_eq_append_iff.mp hrules
  obtain ⟨operand, rfl, rfl⟩ := List.map_eq_singleton_iff.mp hlast
  have hunary : operators.map Node.rule ∈ Set.range (List.map Rule.unary) := by
    rw [Set.range_list_map]
    intro r hr
    rcases hoperators r hr with h | h | h <;> exact ⟨_, h.symm⟩
  obtain ⟨os, hos⟩ := hunary
  have hoffers : operators.flatMap Node.offers = [] := by
    rw [List.flatMap_eq_nil_iff]
    intro c hc
    obtain ⟨o, ho⟩ : ∃ o, c.rule = .unary o := by
      rcases hoperators c.rule (List.mem_map_of_mem hc) with h | h | h <;> exact ⟨_, h⟩
    have hmem : c ∈ t.nodes := Tree.child_mem_nodes hn (by simp [hchildren, hc])
    exact offers_eq_nil ht hmem (by rw [ho]; rfl) (by rw [ho]; exact id)
  rw [unary_eq hchildren hos.symm, Node.referents_of_passesAll (by rw [hr]; rfl), hchildren,
    List.flatMap_append, hoffers, List.nil_append, List.flatMap_singleton,
    Node.offers_of_meaning (Rule.hasMeaning_of_isExpr he), Node.entries_expr he]
  exact rfl

theorem cast_yields (hr : n.rule = .castExpr) :
    t.Yields (fun e => e.handles = Node.entries n.referents) (cast n) := by
  have hlayout := ht.layout hn
  rw [hr] at hlayout
  obtain ⟨l, e, hrules, he, htypes⟩ := hlayout
  obtain ⟨operand, types, hchildren, rfl, rfl⟩ := List.map_eq_cons_iff.mp hrules
  have hty : ∀ c ∈ types, c.rule = .ty := List.forall_mem_map.mp htypes
  have hmeaning : ∀ c ∈ n.children, c.rule.hasMeaning = true := by
    rw [hchildren, List.forall_mem_cons]
    exact ⟨Rule.hasMeaning_of_isExpr he, fun c hc => by rw [hty c hc]; rfl⟩
  rw [cast, Node.child_eq (by rw [hchildren]; rfl), Node.referents_eq_children (by rw [hr]; rfl) hmeaning,
    hchildren, List.tail_cons, castTypes_eq hty, Node.entries_expr he,
    Node.entries_map fun c hc => by rw [hty c hc]; rfl]
  exact rfl

theorem binary_yields {v : Level} (hr : n.rule = .chain v) :
    t.Yields (fun e => e.handles = Node.entries n.referents) (binary n) := by
  have hlayout := ht.layout hn
  rw [hr] at hlayout
  obtain ⟨l, e, hrules, he, hothers⟩ := hlayout
  obtain ⟨first, others, hchildren, rfl, rfl⟩ := List.map_eq_cons_iff.mp hrules
  have hmem : ∀ c ∈ others, c ∈ t.nodes :=
    fun c hc => Tree.child_mem_nodes hn (by simp [hchildren, hc])
  obtain ⟨os, hos, hentries⟩ := binaryOps_eq ht n hmem hothers
  rw [binary_eq hchildren hos, Node.referents_of_passesAll (by rw [hr]; rfl), hchildren,
    List.flatMap_cons, Node.offers_of_meaning (Rule.hasMeaning_of_isExpr he),
    List.singleton_append, Node.entries_expr he, ← hentries]
  exact rfl

theorem wrapped_expr (hr : n.rule = .indexAccess ∨ n.rule = .letInit) :
    ∃ e : Node, n.child 0 = .ok e ∧ e.rule.isExpr = true ∧ n.offers = [e] := by
  have hlayout := ht.layout hn
  obtain ⟨r, hrules, hexpr⟩ : ∃ r, n.children.map Node.rule = [r] ∧ r.isExpr = true := by
    rcases hr with hr | hr
    · rw [hr] at hlayout
      exact hlayout
    · rw [hr] at hlayout
      exact hlayout
  have hpasses : n.rule.hasMeaning = false ∧ n.rule.passesAll = true := by
    rcases hr with hr | hr <;> rw [hr] <;> decide
  obtain ⟨e, hchildren, rfl⟩ := List.map_eq_singleton_iff.mp hrules
  refine ⟨e, Node.child_eq (by rw [hchildren]; rfl), hexpr, ?_⟩
  rw [Node.offers_of_not_meaning hpasses.1, Node.referents_of_passesAll hpasses.2, hchildren,
    List.flatMap_singleton, Node.offers_of_meaning (Rule.hasMeaning_of_isExpr hexpr)]

theorem named_access (hr : n.rule = .fieldAccess ∨ n.rule = .staticAccess) :
    (∃ id, n.identAt t.source 0 = .ok id) ∧ n.offers = [] := by
  have hlayout := ht.layout hn
  have hone : n.children.map Node.rule = [.ident] := by
    rcases hr with hr | hr
    · rw [hr] at hlayout
      exact hlayout
    · rw [hr] at hlayout
      exact hlayout
  have hspells : n.rule.hasMeaning = false ∧ n.rule.spellsNames = true := by
    rcases hr with hr | hr <;> rw [hr] <;> decide
  obtain ⟨d, hchildren, hd⟩ := List.map_eq_singleton_iff.mp hone
  refine ⟨⟨_, Node.identAt_eq t.source (by rw [hchildren]; rfl) hd⟩, ?_⟩
  rw [Node.offers_of_not_meaning hspells.1,
    Node.referents_of_named hspells.2 hchildren hd nofun, List.flatMap_nil]

theorem accessStep_yields {c : Node} (hc : c ∈ n.children)
    (hr : c.rule = .args ∨ c.rule = .fieldAccess ∨ c.rule = .staticAccess ∨
      c.rule = .indexAccess) :
    t.Yields (fun a => a.handles = Node.entries c.offers) (accessStep n t.source c) := by
  have hcn := Tree.child_mem_nodes hn hc
  rcases hr with hr | hr | hr | hr
  · rw [accessStep, hr, entries_args ht hcn hr]
    exact rfl
  · obtain ⟨⟨id, hid⟩, hoffers⟩ := named_access ht hcn (.inl hr)
    rw [accessStep, hr]
    simp only [hid, hoffers]
    exact rfl
  · obtain ⟨⟨id, hid⟩, hoffers⟩ := named_access ht hcn (.inr hr)
    rw [accessStep, hr]
    simp only [hid, hoffers]
    exact rfl
  · obtain ⟨e, hchild, hexpr, hoffers⟩ := wrapped_expr ht hcn (.inl hr)
    rw [accessStep, hr]
    simp only [hchild, hoffers, Node.entries_expr hexpr]
    exact rfl

theorem access_yields (hr : n.rule = .callExpr) :
    t.Yields (fun e => e.handles = Node.entries n.referents) (access n t.source) := by
  have hlayout := ht.layout hn
  rw [hr] at hlayout
  obtain ⟨l, e, hrules, he, hsteps⟩ := hlayout
  obtain ⟨base, steps, hchildren, rfl, rfl⟩ := List.map_eq_cons_iff.mp hrules
  have hall : ∀ c ∈ steps,
      t.Yields (fun a => a.handles = Node.entries c.offers) (accessStep n t.source c) := by
    intro c hc
    have hmem : c ∈ n.children := by
      rw [hchildren]
      exact List.mem_cons_of_mem base hc
    exact accessStep_yields ht hn hmem (List.forall_mem_map.mp hsteps c hc)
  rw [access, Node.child_eq (by rw [hchildren]; rfl), Node.referents_of_passesAll (by rw [hr]; rfl),
    hchildren, List.tail_cons]
  show t.Yields _ (do
    let as ← steps.mapM (accessStep n t.source)
    pure (ExprForm.access base.handle as))
  refine (Tree.Yields.mapM hall).bind fun as _ has => ?_
  show ExprForm.handles _ = _
  rw [ExprForm.handles, Node.entries_flatMap has, List.flatMap_cons,
    Node.offers_of_meaning (Rule.hasMeaning_of_isExpr he), List.singleton_append,
    Node.entries_expr he]

theorem fieldInit_yields (hr : n.rule = .fieldInit) :
    t.Yields (fun f => f.value.toList.map Handle.entry = Node.entries n.offers)
      (fieldInit t.source n) := by
  have hlayout := ht.layout hn
  rw [hr] at hlayout
  obtain ⟨value, hrules, hvalue⟩ := hlayout
  obtain ⟨name, others, hchildren, hname, rfl⟩ := List.map_eq_cons_iff.mp hrules
  rw [fieldInit, if_pos hr, Node.identAt_eq t.source (by rw [hchildren]; rfl) hname,
    Node.offers_of_not_meaning (by rw [hr]; rfl),
    Node.referents_of_spellsFirst (by rw [hr]; rfl) hchildren hname, hchildren]
  rcases hvalue with hnil | ⟨e, hone, he⟩
  · cases List.map_eq_nil_iff.mp hnil
    exact rfl
  · obtain ⟨v, rfl, rfl⟩ := List.map_eq_singleton_iff.mp hone
    rw [List.flatMap_singleton, Node.offers_of_meaning (Rule.hasMeaning_of_isExpr he),
      Node.entries_expr he]
    exact rfl

theorem newInit_yields {c : Node} (hc : c ∈ n.children)
    (hr : c.rule = .structInit ∨ c.rule = .indexAccess) :
    t.Yields (fun i => i.handles = Node.entries c.offers) (newInit n t.source c) := by
  have hcn := Tree.child_mem_nodes hn hc
  rcases hr with hr | hr
  · have hfields := ht.layout hcn
    rw [hr] at hfields
    rw [newInit, hr, Node.offers_of_not_meaning (by rw [hr]; rfl),
      Node.referents_of_passesAll (by rw [hr]; rfl)]
    refine Tree.Yields.bind (Tree.Yields.mapM fun d hd => fieldInit_yields ht
      (Tree.child_mem_nodes hcn hd) (List.forall_mem_map.mp hfields d hd)) fun fs _ hfs => ?_
    exact Node.entries_flatMap hfs
  · obtain ⟨e, hchild, hexpr, hoffers⟩ := wrapped_expr ht hcn (.inl hr)
    rw [newInit, hr]
    simp only [hchild, hoffers, Node.entries_expr hexpr]
    exact rfl

theorem new_yields (hr : n.rule = .newExpr) :
    t.Yields (fun e => e.handles = Node.entries n.referents) (new n t.source) := by
  have hlayout := ht.layout hn
  rw [hr] at hlayout
  obtain ⟨init, hrules, hinit⟩ := hlayout
  obtain ⟨ref, others, hchildren, href, rfl⟩ := List.map_eq_cons_iff.mp hrules
  obtain ⟨c, rfl, hc⟩ : ∃ c, others = [c] ∧ (c.rule = .structInit ∨ c.rule = .indexAccess) := by
    rcases hinit with hinit | hinit
    · obtain ⟨c, hc, hcr⟩ := List.map_eq_singleton_iff.mp hinit
      exact ⟨c, hc, .inl hcr⟩
    · obtain ⟨c, hc, hcr⟩ := List.map_eq_singleton_iff.mp hinit
      exact ⟨c, hc, .inr hcr⟩
  have hmeaning : ref.rule.hasMeaning = true := by rw [href]; rfl
  rw [new, Node.childOf_eq_ok_iff.mpr ⟨show n.children[0]? = some ref by rw [hchildren]; rfl, href⟩,
    Node.child_eq (show n.children[1]? = some c by rw [hchildren]; rfl),
    Node.referents_of_passesAll (by rw [hr]; rfl), hchildren, List.flatMap_cons,
    List.flatMap_singleton, Node.offers_of_meaning hmeaning, List.singleton_append,
    Node.entries_type href]
  show t.Yields _ (do
    let init ← newInit n t.source c
    pure (ExprForm.new ref.handle init))
  refine (newInit_yields ht hn (by simp [hchildren]) hc).bind fun i _ hi => ?_
  exact congrArg _ hi

theorem assign_yields (hr : n.rule = .assignExpr) :
    t.Yields (fun e => e.handles = Node.entries n.referents) (assign n) := by
  have hlayout := ht.layout hn
  rw [hr] at hlayout
  obtain ⟨l, r, hrules, hleft, hright⟩ := hlayout
  obtain ⟨left, others, hchildren, rfl, hothers⟩ := List.map_eq_cons_iff.mp hrules
  obtain ⟨right, rfl, rfl⟩ := List.map_eq_singleton_iff.mp hothers
  rw [assign, Node.child_eq (show n.children[0]? = some left by rw [hchildren]; rfl),
    Node.child_eq (show n.children[1]? = some right by rw [hchildren]; rfl),
    Node.referents_of_exprs (by rw [hr]; rfl) (by simp [hchildren, hleft, hright]), hchildren,
    Node.entries_expr hleft, Node.entries_expr hright]
  exact rfl

theorem entries_value (hr : n.rule = .breakExpr ∨ n.rule = .returnExpr) :
    (n.children.head?.map (Node.handle : Node → Handle .expr)).toList.map Handle.entry =
      Node.entries n.referents := by
  have hlayout := ht.layout hn
  have hcases : n.children.map Node.rule = [] ∨
      ∃ e, e.isExpr = true ∧ n.children.map Node.rule = [e] := by
    rcases hr with hr | hr
    · rw [hr] at hlayout
      exact hlayout
    · rw [hr] at hlayout
      exact hlayout
  have hexprs : (∀ c ∈ n.children, c.rule.isExpr = true) ∧ n.children.length ≤ 1 := by
    rw [← List.forall_mem_map (P := fun r : Rule => r.isExpr = true), ← List.length_map Node.rule]
    rcases hcases with h | ⟨e, he, h⟩ <;> simp [h]
    exact he
  have hpasses : n.rule.passesAll = true := by
    rcases hr with hr | hr <;> rw [hr] <;> rfl
  rw [Node.referents_of_exprs hpasses hexprs.1]
  exact Node.entries_head? (fun c hc => Rule.kind?_of_isExpr (hexprs.1 c hc)) hexprs.2

theorem block_yields (hr : n.rule = .blockExpr) :
    t.Yields (fun e => e.handles = Node.entries n.referents) (block n) := by
  have hlayout := ht.layout hn
  rw [hr] at hlayout
  obtain ⟨l, l', hrules, hl, htail⟩ := hlayout
  obtain ⟨stmts, tail, hchildren, rfl, rfl⟩ := List.map_eq_append_iff.mp hrules
  have hrule : ∀ c ∈ stmts, c.rule = .letStmt ∨ c.rule = .exprStmt := List.forall_mem_map.mp hl
  have hstmt : ∀ c ∈ stmts, isStmt c = true := fun c hc => by simpa [isStmt] using hrule c hc
  have hkind : ∀ c ∈ stmts, c.rule.kind? = some .stmt := by
    intro c hc
    rcases hrule c hc with hc | hc <;> rw [hc] <;> rfl
  have hmeaning : stmts.flatMap Node.offers = stmts :=
    Node.flatMap_offers fun c hc => by rw [← Rule.isSome_kind?, hkind c hc]; rfl
  rw [Node.referents_of_passesAll (by rw [hr]; rfl)]
  unfold block
  rw [hchildren, List.takeWhile_append_of_pos hstmt, List.dropWhile_append_of_pos hstmt,
    List.flatMap_append, hmeaning, Node.entries_append, Node.entries_map hkind]
  rcases htail with hnil | ⟨r, hexpr, hone⟩
  · cases List.map_eq_nil_iff.mp hnil
    rw [List.takeWhile_nil, List.dropWhile_nil, List.append_nil]
    exact rfl
  · obtain ⟨e, rfl, rfl⟩ := List.map_eq_singleton_iff.mp hone
    have hother : isStmt e = false := by
      unfold isStmt
      cases hrule : e.rule
      case letStmt | exprStmt =>
        rw [hrule] at hexpr
        exact nomatch hexpr
      all_goals rfl
    simp only [List.takeWhile_cons, List.dropWhile_cons, hother, Bool.false_eq_true, if_false,
      List.append_nil]
    rw [List.flatMap_singleton, Node.offers_of_meaning (Rule.hasMeaning_of_isExpr hexpr),
      Node.entries_expr hexpr]
    exact rfl

theorem conditional_yields (hr : n.rule = .ifExpr) :
    t.Yields (fun e => e.handles = Node.entries n.referents) (conditional n) := by
  have hlayout := ht.layout hn
  rw [hr] at hlayout
  obtain ⟨l, e, hrules, hexpr, halternative⟩ := hlayout
  obtain ⟨condition, others, hchildren, rfl, hothers⟩ := List.map_eq_cons_iff.mp hrules
  obtain ⟨consequence, alternative, rfl, hblock, rfl⟩ := List.map_eq_cons_iff.mp hothers
  have hblock' : consequence.rule.isExpr = true := by rw [hblock]; rfl
  have hother : (∀ c ∈ alternative, c.rule.isExpr = true) ∧ alternative.length ≤ 1 := by
    rw [← List.forall_mem_map (P := fun r : Rule => r.isExpr = true), ← List.length_map Node.rule]
    rcases halternative with h | h | h <;> simp [h, Rule.isExpr]
  have hexprs : ∀ c ∈ n.children, c.rule.isExpr = true := by
    rw [hchildren, List.forall_mem_cons, List.forall_mem_cons]
    exact ⟨hexpr, hblock', hother.1⟩
  rw [conditional, Node.child_eq (show n.children[0]? = some condition by rw [hchildren]; rfl),
    Node.childOf_eq_ok_iff.mpr
      ⟨show n.children[1]? = some consequence by rw [hchildren]; rfl, hblock⟩,
    Node.referents_of_exprs (by rw [hr]; rfl) hexprs, hchildren, Node.entries_expr hexpr,
    Node.entries_expr hblock',
    ← Node.entries_head? (fun c hc => Rule.kind?_of_isExpr (hother.1 c hc)) hother.2,
    List.head?_eq_getElem?]
  exact rfl

theorem loop_yields (hr : n.rule = .whileExpr) :
    t.Yields (fun e => e.handles = Node.entries n.referents) (loop n) := by
  have hlayout := ht.layout hn
  rw [hr] at hlayout
  obtain ⟨e, hrules, hexpr⟩ := hlayout
  obtain ⟨condition, others, hchildren, rfl, hothers⟩ := List.map_eq_cons_iff.mp hrules
  obtain ⟨body, rfl, hblock⟩ := List.map_eq_singleton_iff.mp hothers
  have hblock' : body.rule.isExpr = true := by rw [hblock]; rfl
  rw [loop, Node.child_eq (show n.children[0]? = some condition by rw [hchildren]; rfl),
    Node.childOf_eq_ok_iff.mpr ⟨show n.children[1]? = some body by rw [hchildren]; rfl, hblock⟩,
    Node.referents_of_exprs (by rw [hr]; rfl) (by simp [hchildren, hexpr, hblock']), hchildren,
    Node.entries_expr hexpr, Node.entries_expr hblock']
  exact rfl

theorem typeExpr_yields (hr : n.rule = .typeExpr) :
    t.Yields (fun e => e.handles = Node.entries n.referents) (expr n t.source) := by
  have hlayout := ht.layout hn
  rw [hr] at hlayout
  obtain ⟨c, hchildren, hc⟩ := List.map_eq_singleton_iff.mp hlayout
  have hmeaning : ∀ d ∈ n.children, d.rule.hasMeaning = true := by
    rw [hchildren, List.forall_mem_singleton, hc]
    rfl
  rw [Node.referents_eq_children (by rw [hr]; rfl) hmeaning, hchildren, Node.entries_type hc, expr,
    hr]
  simp only [Node.childOf_eq_ok_iff.mpr
    ⟨show n.children[0]? = some c by rw [hchildren]; rfl, hc⟩]
  exact rfl

theorem referents_word (hleaf : n.rule.Layout (n.children.map Node.rule) →
    n.children.map Node.rule = []) : Node.entries n.referents = [] := by
  rw [Node.referents_of_nil (List.map_eq_nil_iff.mp (hleaf (ht.layout hn))), Node.entries_nil]

theorem literal_yields (hleaf : n.rule.Layout (n.children.map Node.rule) →
    n.children.map Node.rule = []) {x : Except Error Literal} (h : LiteralCase t.source n x) :
    t.Yields (fun e => e.handles = Node.entries n.referents) (ExprForm.literal <$> x) := by
  rcases h with ⟨-, l, rfl⟩ | ⟨hbad, text, rfl⟩
  · exact (referents_word ht hn hleaf).symm
  · exact ⟨n, hn, .literal hbad text⟩

theorem expr_yields (hr : n.rule.isExpr = true) :
    t.Yields (fun e => e.handles = Node.entries n.referents) (expr n t.source) := by
  cases hrule : n.rule
  case intLiteral =>
    rw [expr, hrule]
    exact literal_yields ht hn (by rw [hrule]; exact id) (intLiteral_settles t.source hrule)
  case charLiteral =>
    rw [expr, hrule]
    exact literal_yields ht hn (by rw [hrule]; exact id) (charLiteral_settles ht hn hrule)
  case strLiteral =>
    rw [expr, hrule]
    exact literal_yields ht hn (by rw [hrule]; exact id) (strLiteral_settles ht hn hrule)
  case typeExpr => exact typeExpr_yields ht hn hrule
  case unaryExpr =>
    rw [expr, hrule]
    exact unary_yields ht hn hrule
  case castExpr =>
    rw [expr, hrule]
    exact cast_yields ht hn hrule
  case chain v =>
    rw [expr, hrule]
    exact binary_yields ht hn hrule
  case callExpr =>
    rw [expr, hrule]
    exact access_yields ht hn hrule
  case newExpr =>
    rw [expr, hrule]
    exact new_yields ht hn hrule
  case assignExpr =>
    rw [expr, hrule]
    exact assign_yields ht hn hrule
  case breakExpr =>
    rw [expr, hrule]
    exact entries_value ht hn (.inl hrule)
  case returnExpr =>
    rw [expr, hrule]
    exact entries_value ht hn (.inr hrule)
  case blockExpr =>
    rw [expr, hrule]
    exact block_yields ht hn hrule
  case ifExpr =>
    rw [expr, hrule]
    exact conditional_yields ht hn hrule
  case whileExpr =>
    rw [expr, hrule]
    exact loop_yields ht hn hrule
  case ident | floatLiteral =>
    rw [expr, referents_word ht hn (by rw [hrule]; exact id), hrule]
    exact rfl
  case kw k =>
    rw [hrule] at hr
    rw [expr, referents_word ht hn (by rw [hrule]; exact id), hrule]
    cases k
    case lowerSelf | null | true_ | false_ | continue_ => exact rfl
    all_goals exact nomatch hr
  all_goals
    rw [hrule] at hr
    exact nomatch hr

theorem let_children (hr : n.rule = .letStmt) :
    ∃ pattern types inits, n.children = pattern :: (types ++ inits) ∧
      (pattern.rule = .ident ∨ pattern.rule = .tuplePattern) ∧
      (types = [] ∨ ∃ c, types = [c] ∧ c.rule = .ty) ∧
      (inits = [] ∨ ∃ c, inits = [c] ∧ c.rule = .letInit) := by
  have hlayout := ht.layout hn
  rw [hr] at hlayout
  obtain ⟨l₁, l₂, l₃, hrules, hpattern, htypes, hinits⟩ := hlayout
  obtain ⟨r, rfl, hr⟩ : ∃ r, l₁ = [r] ∧ (r = Rule.ident ∨ r = Rule.tuplePattern) := by
    rcases hpattern with rfl | rfl
    · exact ⟨_, rfl, .inl rfl⟩
    · exact ⟨_, rfl, .inr rfl⟩
  obtain ⟨pattern, others, hchildren, rfl, hothers⟩ := List.map_eq_cons_iff.mp hrules
  obtain ⟨types, inits, rfl, rfl, rfl⟩ := List.map_eq_append_iff.mp
    (show others.map Node.rule = l₂ ++ l₃ from hothers)
  exact ⟨pattern, types, inits, hchildren, hr,
    htypes.imp List.map_eq_nil_iff.mp List.map_eq_singleton_iff.mp,
    hinits.imp List.map_eq_nil_iff.mp List.map_eq_singleton_iff.mp⟩

omit hn in
theorem letParts_eq {types inits : List Node}
    (htypes : types = [] ∨ ∃ c, types = [c] ∧ c.rule = .ty)
    (hinits : inits = [] ∨ ∃ c, inits = [c] ∧ c.rule = .letInit) (hmem : ∀ c ∈ inits, c ∈ t.nodes) :
    ∃ type init, letParts n none none (types ++ inits) = .ok (type, init) ∧
      type.toList.map Handle.entry ++ init.toList.map Handle.entry =
        Node.entries ((types ++ inits).flatMap Node.offers) := by
  have hinit (type : Option (Handle .type)) : ∃ init, letParts n type none inits = .ok (type, init) ∧
      init.toList.map Handle.entry = Node.entries (inits.flatMap Node.offers) := by
    rcases hinits with rfl | ⟨c, rfl, hc⟩
    · exact ⟨none, rfl, rfl⟩
    · obtain ⟨e, hchild, hexpr, hoffers⟩ := wrapped_expr ht (hmem c (by simp)) (.inr hc)
      refine ⟨some e.handle, ?_, ?_⟩
      · rw [letParts, hc]
        simp only [hchild]
        rfl
      · rw [List.flatMap_singleton, hoffers, Node.entries_expr hexpr]
        rfl
  rcases htypes with rfl | ⟨c, rfl, hc⟩
  · obtain ⟨init, hparts, hentries⟩ := hinit none
    exact ⟨none, init, hparts, hentries⟩
  · obtain ⟨init, hparts, hentries⟩ := hinit (some c.handle)
    have hmeaning : c.rule.hasMeaning = true := by rw [hc]; rfl
    refine ⟨some c.handle, init, ?_, ?_⟩
    · rw [List.singleton_append, letParts, hc]
      exact hparts
    · rw [List.singleton_append, List.flatMap_cons, Node.offers_of_meaning hmeaning,
        List.singleton_append, Node.entries_type hc, ← hentries]
      rfl

theorem letStmt_yields (hr : n.rule = .letStmt) :
    t.Yields (fun s => s.handles = Node.entries n.referents) (letStmt n t.source) := by
  obtain ⟨pattern, types, inits, hchildren, hpattern, htypes, hinits⟩ := let_children ht hn hr
  have hget : n.children[0]? = some pattern := by rw [hchildren]; rfl
  rw [letStmt, Node.child_eq hget]
  simp only [bind, Except.bind]
  rcases hpattern with hp | hp
  · have hname : patternName n t.source pattern = .ok (pattern.name t.source) := by
      rw [patternName, hp]
      rfl
    have hmem : ∀ c ∈ inits, c ∈ t.nodes :=
      fun c hc => Tree.child_mem_nodes hn (by simp [hchildren, hc])
    obtain ⟨type, init, hparts, hentries⟩ := letParts_eq ht (n := n) htypes hinits hmem
    rw [hname, Node.referents_of_spellsFirst (by rw [hr]; rfl) hchildren hp, hchildren,
      List.tail_cons, hparts, ← hentries]
    exact rfl
  · have hname : patternName n t.source pattern =
        .error (.unsupported pattern.position "tuple pattern") := by
      rw [patternName, hp]
      rfl
    rw [hname]
    exact ⟨n, hn, .pattern ⟨hr, hget, hp⟩⟩

theorem exprStmt_yields (hr : n.rule = .exprStmt) :
    t.Yields (fun s => s.handles = Node.entries n.referents) (exprStmt n) := by
  have hlayout := ht.layout hn
  rw [hr] at hlayout
  obtain ⟨r, hexpr, hrules⟩ := hlayout
  obtain ⟨e, hchildren, rfl⟩ := List.map_eq_singleton_iff.mp hrules
  rw [exprStmt, Node.child_eq (by rw [hchildren]; rfl),
    Node.referents_of_exprs (by rw [hr]; rfl) (by simp [hchildren, hexpr]), hchildren,
    Node.entries_expr hexpr]
  exact rfl

end XiFront.Lowering

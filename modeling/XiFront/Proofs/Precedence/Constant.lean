import XiFront.Proofs.Lowering.Meaning
import XiFront.Proofs.Parse.Constant
import XiFront.Proofs.Precedence.Reading

namespace XiFront

open Peg

mutual

/-- The expression at a handle, with all that it refers to, is a grouping. -/
inductive Tree.Denotes (t : Tree) : Handle .expr → Grouping → Prop
  | name {h : Handle .expr} {n : Node} {id : List Char} (hn : t.node? h.id = some n)
      (hmeaning : t.meaning n = .ok (.expr (.name (String.ofList id)))) : Denotes t h (.name id)
  | unary {h operand : Handle .expr} {n : Node} {operators : List UnaryOp} {g : Grouping}
      (hn : t.node? h.id = some n)
      (hmeaning : t.meaning n = .ok (.expr (.unary operators operand)))
      (hoperand : Denotes t operand g) : Denotes t h (.unary operators g)
  | binary {h first : Handle .expr} {n : Node} {others : List (BinaryOp × Handle .expr)}
      {g : Grouping} {gs : List (BinaryOp × Grouping)} (hn : t.node? h.id = some n)
      (hmeaning : t.meaning n = .ok (.expr (.binary first others))) (hfirst : Denotes t first g)
      (hothers : DenotesAll t others gs) : Denotes t h (.binary g gs)

/-- The same for operators, each with the operand to its right. -/
inductive Tree.DenotesAll (t : Tree) :
    List (BinaryOp × Handle .expr) → List (BinaryOp × Grouping) → Prop
  | nil : DenotesAll t [] []
  | cons {o : BinaryOp} {h : Handle .expr} {g : Grouping} {others : List (BinaryOp × Handle .expr)}
      {gs : List (BinaryOp × Grouping)} (hfirst : Denotes t h g)
      (hothers : DenotesAll t others gs) : DenotesAll t ((o, h) :: others) ((o, g) :: gs)

end

mutual

theorem Node.Means.denotes {t : Tree} (ht : t.WellFormed) {n : Node} {g : Grouping}
    (h : n.Means t.source g) (hn : n ∈ t.nodes) : t.Denotes n.handle g :=
  have hnode : t.node? n.id = some n := ht.node?_eq_some_iff.mpr ⟨hn, rfl⟩
  match h with
  | .name hr hname => by
      refine .name hnode ?_
      rw [Tree.meaning, Lowering.lower_of_isExpr t.source (by rw [hr]; rfl), Lowering.expr, hr, ← hname]
      rfl
  | .unary hr hchildren hcs h => by
      have hm := h.denotes ht (Tree.child_mem_nodes hn (by rw [hchildren]; simp))
      refine .unary hnode ?_ hm
      rw [Tree.meaning, Lowering.lower_of_isExpr t.source (by rw [hr]; rfl), Lowering.expr, hr]
      exact congrArg (Ast.expr <$> ·) (Lowering.unary_eq hchildren hcs)
  | .binary hr hchildren h hcs => by
      have hm := h.denotes ht (Tree.child_mem_nodes hn (by rw [hchildren]; simp))
      obtain ⟨others, hops, hothers⟩ := hcs.denotes ht n fun c hc =>
        Tree.child_mem_nodes hn (by rw [hchildren]; exact List.mem_cons_of_mem _ hc)
      refine .binary hnode ?_ hm hothers
      rw [Tree.meaning, Lowering.lower_of_isExpr t.source (by rw [hr]; rfl), Lowering.expr, hr]
      exact congrArg (Ast.expr <$> ·) (Lowering.binary_eq hchildren hops)

theorem Node.MeansAll.denotes {t : Tree} (ht : t.WellFormed) {cs : List Node}
    {gs : List (BinaryOp × Grouping)} (h : Node.MeansAll t.source cs gs) (n : Node)
    (hcs : ∀ c ∈ cs, c ∈ t.nodes) :
    ∃ others, Lowering.binaryOps n cs = .ok others ∧ t.DenotesAll others gs :=
  match h with
  | .nil => ⟨[], rfl, .nil⟩
  | .cons (c := c) (m := m) (o := o) hr h hcs' => by
      have hm := h.denotes ht (hcs _ (by simp))
      obtain ⟨others, hops, hothers⟩ := hcs'.denotes ht n fun d hd => hcs d (by simp [hd])
      refine ⟨(o, m.handle) :: others, ?_, .cons hm hothers⟩
      rw [Lowering.binaryOps]
      simp only [hr, hops]
      rfl

end

def Run.constant (run : Run) : Source :=
  "const X: i32 = ".toList ++ run.text ++ [';']

theorem Run.constant_eq (run : Run) : run.constant = constantSource .i32 (run.spaced []) := by
  have hhead : "const X: i32 = ".toList =
      "const X: ".toList ++ Scalar.i32.keyword.spelling ++ " = ".toList := by
    decide
  unfold Run.constant constantSource
  rw [Run.text_eq_spaced]
  exact congrArg (· ++ run.spaced [] ++ [';']) hhead

variable {source : Source} {ops : List BinaryOp} {gap rest : List Char}

def Run.leads : List Lead :=
  .name :: UnaryOp.all.map fun o => .sign o.sign

theorem Operand.lead (x : Operand) (h : Ends ops gap rest) :
    ∃ l ∈ Run.leads, Lead.ofText? (x.spaced gap ++ rest) = some l := by
  obtain ⟨prefixes, w, hw⟩ := x
  cases prefixes with
  | nil =>
      refine ⟨.name, List.mem_cons_self, ?_⟩
      rw [Operand.spaced, List.flatMap_nil, List.nil_append, List.append_assoc]
      exact lead_name hw h
  | cons o os =>
      refine ⟨.sign o.sign, List.mem_cons_of_mem _ (List.mem_map_of_mem o.mem_all), ?_⟩
      rw [Operand.spaced, List.flatMap_cons, List.append_assoc, List.append_assoc, List.append_assoc]
      exact lead_unary o

theorem Run.lead (run : Run) (h : Ends ops gap rest) :
    ∃ l ∈ Run.leads, Lead.ofText? (run.spaced gap ++ rest) = some l := by
  obtain ⟨x, others⟩ := run
  cases others with
  | nil => exact x.lead h
  | cons p others =>
      obtain ⟨o, y⟩ := p
      have hnext (cs : List Char) : Ends [] [' '] (o.spelling ++ ' ' :: cs) :=
        .operator List.not_mem_nil cs
      rw [Run.spaced, Run.spacedFrom, List.append_assoc, List.append_assoc]
      exact x.lead (hnext _)

theorem scans_expr (run : Run) (rest : List Char) :
    Scans source (.rule .expr) (run.spaced []) (';' :: rest)
      (Groups source (run.group precedence)) := by
  have hends : Ends precedence.flatten [] (';' :: rest) := .done rest
  obtain ⟨l, hl, hlead⟩ := run.lead hends
  have havoids : ∀ l ∈ Run.leads,
      ∀ e ∈ [Expr.rule (.kw .continue_), .rule .breakExpr, .rule .returnExpr],
        e.avoids 2 l = true := by
    decide +kernel
  have hchain : Scans source (.rule (.chain .logOr)) (run.spaced []) (';' :: rest) _ :=
    readsRuns_logOr source (fun p _ => mem_precedence p.1) hends
  exact hchain.expr (run.firm_spaced _ _) hlead (havoids l hl)

mutual

def Grouping.nodeCount : Grouping → Nat
  | .name _ => 1
  | .unary operators operand => operators.length + operand.nodeCount + 1
  | .binary first others => first.nodeCount + nodeCountAll others + 1

def Grouping.nodeCountAll : List (BinaryOp × Grouping) → Nat
  | [] => 0
  | (_, g) :: gs => 1 + g.nodeCount + nodeCountAll gs

end

theorem Tree.WellFormed.sizeAll_unary {t : Tree} (ht : t.WellFormed) {cs : List Node}
    {operators : List UnaryOp} (hcs : ∀ c ∈ cs, c ∈ t.nodes)
    (h : cs.map Node.rule = operators.map Rule.unary) : Node.sizeAll cs = operators.length := by
  induction cs generalizing operators with
  | nil =>
      rw [List.map_eq_nil_iff.mp h.symm]
      rfl
  | cons c cs ih =>
      obtain ⟨o, os, rfl, hc, h⟩ := List.map_eq_cons_iff.mp h.symm
      rw [List.forall_mem_cons] at hcs
      have htight : (Rule.production c.rule).tight = true := by
        rw [← hc]
        rfl
      rw [Node.sizeAll_cons, ht.size_of_token hcs.1 htight, ih hcs.2 h.symm, List.length_cons,
        Nat.add_comm]

mutual

theorem Node.Means.size {t : Tree} (ht : t.WellFormed) {n : Node} {g : Grouping}
    (h : n.Means t.source g) (hn : n ∈ t.nodes) : n.size = g.nodeCount :=
  match h with
  | .name hr _ => ht.size_of_token hn (by rw [hr]; rfl)
  | .unary hr hchildren hcs h => by
      have hchild {c : Node} (hc : c ∈ n.children) := Tree.child_mem_nodes hn hc
      rw [hchildren] at hchild
      have hm := h.size ht (hchild (by simp))
      have hprefixes := ht.sizeAll_unary (fun c hc => hchild (List.mem_append_left _ hc)) hcs
      rw [Node.size_eq, hchildren, Node.sizeAll_append, Node.sizeAll_cons, hprefixes, hm]
      rfl
  | .binary hr hchildren h hcs => by
      have hchild {c : Node} (hc : c ∈ n.children) := Tree.child_mem_nodes hn hc
      rw [hchildren] at hchild
      have hm := h.size ht (hchild List.mem_cons_self)
      have hothers := hcs.size ht fun c hc => hchild (List.mem_cons_of_mem _ hc)
      rw [Node.size_eq, hchildren, Node.sizeAll_cons, hm, hothers]
      rfl

theorem Node.MeansAll.size {t : Tree} (ht : t.WellFormed) {cs : List Node}
    {gs : List (BinaryOp × Grouping)} (h : Node.MeansAll t.source cs gs)
    (hcs : ∀ c ∈ cs, c ∈ t.nodes) : Node.sizeAll cs = Grouping.nodeCountAll gs :=
  match h with
  | .nil => rfl
  | .cons hr h hcs' => by
      rw [List.forall_mem_cons, List.forall_mem_cons] at hcs
      have htight := ht.size_of_token hcs.1 (by rw [hr]; rfl)
      have hm := h.size ht hcs.2.1
      have hothers := hcs'.size ht hcs.2.2
      rw [Node.sizeAll_cons, Node.sizeAll_cons, htight, hm, hothers, ← Nat.add_assoc]
      rfl

end

theorem Run.exists_isOf (run : Run) :
    ∃ (t : Tree) (n : Node) (d : GlobalDecl), t.IsOf run.constant ∧
      t.size = (run.group precedence).nodeCount + 5 ∧ t.root.children = [n] ∧
      t.meaning n = .ok (.global d) ∧ d.id = "X" ∧ t.Denotes d.value (run.group precedence) := by
  rw [run.constant_eq]
  obtain ⟨t, n, v, type, hof, hsize, hroot, hmeaning, hv, hvalue⟩ :=
    Tree.exists_isOf_constant (V := (·.Means _ (run.group precedence))) .i32
      (run.firm_spaced _ _) (scans_expr run [])
  rw [← hof.source_eq] at hvalue
  rw [hvalue.size hof.wellFormed hv] at hsize
  exact ⟨t, n, _, hof, hsize, hroot, hmeaning, rfl, hvalue.denotes hof.wellFormed hv⟩

end XiFront

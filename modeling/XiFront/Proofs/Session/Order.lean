import XiFront.Proofs.Lowering.Declaration
import XiFront.Proofs.Session.Inquiry

namespace XiFront

/-- The meaning of a node, which must be of the given kind, computed afresh. -/
def Tree.meaningAs (t : Tree) (k : Kind) (n : Node) : Except Error Ast := do
  let a ← t.meaning n
  if a.kind = k then pure a else throw (Lowering.kindError n k a)

/-- How many of the nodes have a meaning, if each that should have one does. -/
def Tree.countMeanings (t : Tree) : List Node → Except Error Nat
  | [] => pure 0
  | n :: ns => do
      if n.rule.hasMeaning then
        let _ ← t.meaning n
        let others ← t.countMeanings ns
        pure (others + 1)
      else t.countMeanings ns

namespace Inquiry

variable {t : Tree} (ht : t.WellFormed)
include ht

theorem fills_pathOf {n : Node} (hn : n ∈ t.nodes) :
    Fills t n.innerTypes (Lowering.pathOf t.source visit n)
      (Lowering.pathOf t.source (fun _ inner => inner) n) := by
  by_cases hr : n.rule = .path
  · exact (fills_type_parts ht n hn).2.2.1 hr
  · obtain ⟨id, rule, start, stop, position, children⟩ := n
    rw [Lowering.pathOf, Lowering.pathOf, if_pos hr, if_pos hr]
    exact .throw _

theorem fills_implPaths {n : Node} (hn : n ∈ t.nodes) :
    Fills t (n.innerTypesOf .impls) (Lowering.implPaths t.source visit n)
      (Lowering.implPaths t.source (fun _ inner => inner) n) := by
  unfold Lowering.implPaths Node.innerTypesOf
  cases hfirst : n.first? .impls with
  | none => exact .pure _
  | some c =>
      obtain ⟨hc, hr⟩ := Node.mem_of_first? hfirst
      have hcn := Tree.child_mem_nodes hn hc
      have hall : ∀ ps : List Node, (∀ p ∈ ps, p ∈ c.children) →
          Fills t (Node.innerTypesAll ps) (ps.mapM (Lowering.pathOf t.source visit))
            (ps.mapM (Lowering.pathOf t.source fun _ inner => inner)) := by
        intro ps hps
        induction ps with
        | nil => exact .pure _
        | cons p ps ih =>
            rw [List.forall_mem_cons] at hps
            rw [List.mapM_cons, List.mapM_cons]
            refine (fills_pathOf ht (Tree.child_mem_nodes hcn hps.1)).bind fun _ _ => ?_
            exact (ih hps.2).bind_nil fun _ _ => .pure _
      simp only [Node.innerTypes_eq_all (.inr (.inr hr))]
      exact hall c.children fun _ hp => hp

theorem fills_useDecl {n : Node} (hn : n ∈ t.nodes) :
    Fills t (n.innerTypesOf .path) (Lowering.useDecl t.source visit n)
      (Lowering.useDecl t.source (fun _ inner => inner) n) := by
  unfold Lowering.useDecl
  cases hchild : n.childOf 0 .path with
  | error e => exact .throw e
  | ok c =>
      obtain ⟨hget, hr⟩ := Node.childOf_eq_ok_iff.mp hchild
      rw [Node.innerTypesOf_head hget hr]
      refine (Fills.pure c).bind fun d hd => ?_
      cases hd
      refine (fills_pathOf ht (Tree.child_mem_nodes hn (List.mem_of_getElem? hget))).bind_nil
        fun path _ => ?_
      cases n.children[1]? with
      | none => exact .pure _
      | some _ => exact (Fills.ofExcept _).bind_nil fun _ _ => .pure _

/-- Looking into a node looks into the types that it brings, and into nothing else. -/
theorem fills_lower {n : Node} (hn : n ∈ t.nodes) :
    Fills t n.eager (Lowering.lower t.source visit n) (t.meaning n) := by
  unfold Tree.meaning Lowering.lower Node.eager
  generalize hr : n.rule = r
  cases r
  case useStmt => exact (fills_useDecl ht hn).map _
  case structDecl =>
    obtain ⟨parts⟩ := Lowering.decl_parts ht hn (.inl hr)
    simp only [Lowering.structDecl_eq parts]
    exact ((fills_implPaths ht hn).map _).map _
  case interfaceDecl =>
    obtain ⟨parts⟩ := Lowering.decl_parts ht hn (.inr (.inl hr))
    simp only [Lowering.interfaceDecl_eq parts]
    exact ((fills_implPaths ht hn).map _).map _
  case enumDecl =>
    obtain ⟨parts⟩ := Lowering.decl_parts ht hn (.inr (.inr hr))
    simp only [Lowering.enumDecl_eq parts hr]
    exact (Fills.pure _).map _
  case ty => exact ((fills_type_parts ht n hn).1 hr).map _
  case file | enumField | fnDecl | methodDecl | field | param | global | attrib
      | letStmt | exprStmt =>
    exact (Fills.ofExcept _).map _
  -- Any other rule is an expression or has no meaning.
  all_goals
    dsimp only
    split
    · exact (Fills.ofExcept _).map _
    · exact .throw _

theorem fills_meaning {n : Node} (hn : n ∈ t.nodes) :
    Fills t (n :: n.eager) (meaning t n) (t.meaning n) := by
  intro k hk
  rw [run_meaning]
  cases hget : k.get? n.id with
  | none => exact (fills_lower ht hn).remember ht hn hk hget fun a ha => ha
  | some a =>
      rw [hk.meaning_eq ht hn hget]
      obtain ⟨hgains, hfilled⟩ := Fills.known hn hk hget
      exact ⟨k, rfl, hgains, fun _ _ => hfilled⟩

theorem answers_meaningAs (k : Kind) {n : Node} (hn : n ∈ t.nodes) :
    Answers t (meaningAs t k n) (t.meaningAs k n) := by
  refine (fills_meaning ht hn).answers.bind fun a _ => ?_
  by_cases hkind : a.kind = k
  · rw [if_pos hkind, if_pos hkind]
    exact .pure a
  · rw [if_neg hkind, if_neg hkind]
    exact .throw _

omit ht in
def Settled (t : Tree) (q : Inquiry α) : Prop :=
  ∃ x, Answers t q x

omit ht in
theorem Settled.pure (a : α) : Settled t (Pure.pure a) :=
  ⟨.ok a, .pure a⟩

omit ht in
theorem Settled.bind {q : Inquiry α} {f : α → Inquiry β} (hq : Settled t q)
    (hf : ∀ a, Settled t (f a)) : Settled t (q >>= f) := by
  obtain ⟨x, hx⟩ := hq
  cases x with
  | error e => exact ⟨.error e, hx.bind (g := fun _ => .error e) fun _ h => nomatch h⟩
  | ok a =>
      obtain ⟨y, hy⟩ := hf a
      refine ⟨y, hx.bind (g := fun _ => y) fun b hb => ?_⟩
      cases hb
      exact hy

omit ht in
theorem Settled.map {q : Inquiry α} (hq : Settled t q) (f : α → β) : Settled t (f <$> q) := by
  obtain ⟨x, hx⟩ := hq
  exact ⟨f <$> x, hx.map f⟩

theorem settled_meaning {n : Node} (hn : n ∈ t.nodes) : Settled t (meaning t n) :=
  ⟨t.meaning n, (fills_meaning ht hn).answers⟩

theorem settled_meaningAs (k : Kind) {n : Node} (hn : n ∈ t.nodes) :
    Settled t (meaningAs t k n) :=
  ⟨t.meaningAs k n, answers_meaningAs ht k hn⟩

theorem fills_countMeanings {ns : List Node} (hns : ∀ n ∈ ns, n ∈ t.nodes) :
    Fills t ((ns.filter (·.rule.hasMeaning)).flatMap fun n => n :: n.eager) (countMeanings t ns)
      (t.countMeanings ns) := by
  induction ns with
  | nil => exact .pure 0
  | cons n ns ih =>
      rw [List.forall_mem_cons] at hns
      rw [countMeanings, Tree.countMeanings]
      by_cases hmeaning : n.rule.hasMeaning = true
      · have hkeep : (n :: ns).filter (·.rule.hasMeaning) = n :: ns.filter (·.rule.hasMeaning) :=
          List.filter_cons_of_pos hmeaning
        rw [if_pos hmeaning, if_pos hmeaning, hkeep, List.flatMap_cons]
        refine (fills_meaning ht hns.1).bind fun _ _ => ?_
        exact (ih hns.2).bind_nil fun _ _ => .pure _
      · have hdrop : (n :: ns).filter (·.rule.hasMeaning) = ns.filter (·.rule.hasMeaning) :=
          List.filter_cons_of_neg hmeaning
        rw [if_neg hmeaning, if_neg hmeaning, hdrop]
        exact ih hns.2

theorem settled_member (k : Kind) (ids : List Nat) (place : Nat) :
    Settled t (member t k ids place) := by
  unfold member
  cases ids[place]? with
  | none => exact .pure none
  | some id =>
      cases hnode : t.node? id with
      | none =>
          simp only [hnode]
          exact .pure none
      | some n =>
          simp only [hnode]
          have hn := (ht.node?_eq_some_iff.mp hnode).1
          exact (settled_meaningAs ht k hn).bind fun _ => .pure _

theorem settled_members (k : Kind) (ids : List Nat) : Settled t (members t k ids) := by
  induction ids with
  | nil => exact .pure []
  | cons id ids ih =>
      rw [members]
      cases hnode : t.node? id with
      | none => exact ih
      | some n =>
          have hn := (ht.node?_eq_some_iff.mp hnode).1
          exact (settled_meaningAs ht k hn).bind fun _ => ih.bind fun _ => .pure _

end Inquiry

namespace Session

open Inquiry

/-- A step from any sound knowledge of the tree: its answer does not depend on what is known, and
what is known grows. -/
def Steady (t : Tree) (step : Known → Answer × Session) : Prop :=
  ∃ answer, ∀ known : Known, known.Sound t →
    ∃ known', step known = (answer, ⟨t, known'⟩) ∧ Known.Grows t known known'

def Answer.ofExcept (answer : α → Answer) : Except Error α → Answer
  | .ok a => answer a
  | .error e => .failed e

theorem ask_of_run {t : Tree} {q : Inquiry α} {x : Except Error α} {known known' : Known}
    (h : q.run.run known = (x, known')) (answer : α → Answer) :
    ask ⟨t, known⟩ q answer = (.ofExcept answer x, ⟨t, known'⟩) := by
  cases x <;> simp only [ask, h, Answer.ofExcept]

theorem ask_eq {t : Tree} {q : Inquiry α} {x : Except Error α}
    (hq : Answers t q x) {known : Known} (hknown : known.Sound t) (answer : α → Answer) :
    ∃ known', ask ⟨t, known⟩ q answer = (.ofExcept answer x, ⟨t, known'⟩) ∧
      Known.Grows t known known' := by
  obtain ⟨known', hrun, hgrows⟩ := hq known hknown
  exact ⟨known', ask_of_run hrun answer, hgrows⟩

theorem steady_ask {t : Tree} {q : Inquiry α} (hq : Settled t q) (answer : α → Answer) :
    Steady t fun known => ask ⟨t, known⟩ q answer := by
  obtain ⟨x, hx⟩ := hq
  exact ⟨.ofExcept answer x, fun known hknown => ask_eq hx hknown answer⟩

theorem steady_withNode {t : Tree} (ht : t.WellFormed) (id : Nat)
    {q : Known → Node → Answer × Session}
    (hq : ∀ n ∈ t.nodes, Steady t fun known => q known n) :
    Steady t fun known => withNode ⟨t, known⟩ id (q known) := by
  cases hnode : t.node? id with
  | none =>
      refine ⟨.noSuchNode, fun known hknown => ⟨known, ?_, .refl hknown⟩⟩
      simp only [withNode, hnode]
  | some n =>
      obtain ⟨answer, hanswer⟩ := hq n (ht.node?_eq_some_iff.mp hnode).1
      refine ⟨answer, fun known hknown => ?_⟩
      simp only [withNode, hnode]
      exact hanswer known hknown

theorem steady_withList {t : Tree} (ht : t.WellFormed) (id : Nat) (list : String)
    {q : Kind → List Nat → Inquiry Answer} (hq : ∀ k ids, Settled t (q k ids)) :
    Steady t fun known => withList ⟨t, known⟩ id list q := by
  simp only [withList]
  refine steady_withNode ht id fun n hn => ?_
  refine steady_ask ?_ fun a => a
  refine (settled_meaning ht hn).bind fun a => ?_
  cases a.members? list with
  | none => exact .pure _
  | some found => exact hq found.1 found.2

theorem steady_step {t : Tree} (ht : t.WellFormed) (o : Operation) :
    Steady t fun known => step ⟨t, known⟩ o := by
  cases o with
  | meaning id =>
      simp only [step]
      exact steady_withNode ht id fun n hn => steady_ask (settled_meaning ht hn) _
  | meaningAs id k =>
      simp only [step]
      exact steady_withNode ht id fun n hn => steady_ask (settled_meaningAs ht k hn) _
  | file =>
      have hroot : t.root ∈ t.nodes := Tree.mem_nodes.mpr t.root.self_mem_preorder
      simp only [step]
      exact steady_ask (settled_meaningAs ht .file hroot) _
  | all =>
      simp only [step]
      exact steady_ask ⟨_, (fills_countMeanings ht fun n (hn : n ∈ t.nodes) => hn).answers⟩ _
  | path id =>
      simp only [step]
      exact steady_withNode ht id fun n hn =>
        steady_ask ⟨_, (fills_pathOf ht hn).answers⟩ _
  | member id list place =>
      simp only [step]
      exact steady_withList ht id list fun k ids => (settled_member ht k ids place).map _
  | members id list =>
      simp only [step]
      exact steady_withList ht id list fun k ids => (settled_members ht k ids).map _
  | memberOf k ids place =>
      simp only [step]
      exact steady_ask (settled_member ht k ids place) _
  | membersOf k ids =>
      simp only [step]
      exact steady_ask (settled_members ht k ids) _

/-- A run answers every operation as a fresh session does. -/
theorem run_spec {t : Tree} (ht : t.WellFormed) (ops : List Operation) {known : Known}
    (hknown : known.Sound t) :
    ∃ known',
      run ⟨t, known⟩ ops = (ops.map fun o => ((start t).step o).1, ⟨t, known'⟩) ∧
        Known.Grows t known known' := by
  induction ops generalizing known with
  | nil => exact ⟨known, rfl, .refl hknown⟩
  | cons o ops ih =>
      obtain ⟨answer, hanswer⟩ := steady_step ht o
      obtain ⟨known₁, hstep, hgrows₁⟩ := hanswer known hknown
      obtain ⟨_, hempty, -⟩ := hanswer .empty (.empty t)
      obtain ⟨known₂, hrun, hgrows₂⟩ := ih hgrows₁.sound
      have hfirst : step ⟨t, known⟩ o = (answer, ⟨t, known₁⟩) := hstep
      have hfresh : ((start t).step o).1 = answer := congrArg Prod.fst hempty
      refine ⟨known₂, ?_, hgrows₁.trans hgrows₂⟩
      rw [List.map_cons, hfresh, run, hfirst]
      simp only [hrun]

theorem run_known_append (s : Session) (ops ops' : List Operation) :
    (s.run (ops ++ ops')).2 = ((s.run ops).2.run ops').2 := by
  induction ops generalizing s with
  | nil => rfl
  | cons o ops ih =>
      rw [List.cons_append, run, run]
      exact ih (s.step o).2

theorem run_known {t : Tree} (ht : t.WellFormed) (ops others : List Operation) :
    ((start t).run ops).2.known.Sound t ∧
      ((start t).run ops).2.known.entries <:+
        ((start t).run (ops ++ others)).2.known.entries := by
  obtain ⟨known₁, hrun, hgrows⟩ := run_spec ht ops (.empty t)
  have hrun : (start t).run ops = (ops.map fun o => ((start t).step o).1, ⟨t, known₁⟩) := hrun
  obtain ⟨known₂, hothers, hlater⟩ := run_spec ht others hgrows.sound
  refine ⟨by rw [hrun]; exact hgrows.sound, ?_⟩
  rw [run_known_append, hrun, hothers]
  exact hlater.older

theorem run_session {t : Tree} (ht : t.WellFormed) (ops : List Operation) :
    ∃ known, ((start t).run ops).2 = ⟨t, known⟩ ∧ known.Sound t := by
  obtain ⟨known, hrun, hgrows⟩ := run_spec ht ops (.empty t)
  exact ⟨known, congrArg Prod.snd hrun, hgrows.sound⟩

theorem step_meaning_of_run {t : Tree} (ht : t.WellFormed) (ops : List Operation) {n : Node}
    (hn : n ∈ t.nodes) :
    (((start t).run ops).2.step (.meaning n.id)).1 = .ofExcept .meaning (t.meaning n) := by
  obtain ⟨known, hsession, hknown⟩ := run_session ht ops
  obtain ⟨known', hask, -⟩ := ask_eq (fills_meaning ht hn).answers hknown .meaning
  have hnode : t.node? n.id = some n := ht.node?_eq_some_iff.mpr ⟨hn, rfl⟩
  rw [hsession]
  simp only [step, withNode, hnode, hask]

theorem step_meaningAs_of_run {t : Tree} (ht : t.WellFormed) (ops : List Operation) (k : Kind)
    {n : Node} (hn : n ∈ t.nodes) :
    (((start t).run ops).2.step (.meaningAs n.id k)).1 =
      .ofExcept .meaning (t.meaningAs k n) := by
  obtain ⟨known, hsession, hknown⟩ := run_session ht ops
  obtain ⟨known', hask, -⟩ := ask_eq (answers_meaningAs ht k hn) hknown .meaning
  have hnode : t.node? n.id = some n := ht.node?_eq_some_iff.mpr ⟨hn, rfl⟩
  rw [hsession]
  simp only [step, withNode, hnode, hask]

theorem step_meaning_eq_iff {t : Tree} (ht : t.WellFormed) (ops : List Operation) {n : Node}
    (hn : n ∈ t.nodes) {a : Ast} :
    (((start t).run ops).2.step (.meaning n.id)).1 = .meaning a ↔ t.meaning n = .ok a := by
  rw [step_meaning_of_run ht ops hn]
  cases t.meaning n <;> simp [Answer.ofExcept]

theorem step_meaningAs_eq_iff {t : Tree} (ht : t.WellFormed) (ops : List Operation) (k : Kind)
    {n : Node} (hn : n ∈ t.nodes) {a : Ast} :
    (((start t).run ops).2.step (.meaningAs n.id k)).1 = .meaning a ↔
      t.meaningAs k n = .ok a := by
  rw [step_meaningAs_of_run ht ops k hn]
  cases t.meaningAs k n <;> simp [Answer.ofExcept]

theorem step_all_of_run {t : Tree} (ht : t.WellFormed) (ops : List Operation) :
    (((start t).run ops).2.step .all).1 = .ofExcept .count (t.countMeanings t.nodes) := by
  obtain ⟨known, hsession, hknown⟩ := run_session ht ops
  have hall := (fills_countMeanings ht fun n (hn : n ∈ t.nodes) => hn).answers
  obtain ⟨known', hask, -⟩ := ask_eq hall hknown .count
  rw [hsession]
  simp only [step, Inquiry.all, hask]

/-- However a session has been used before, an operation gets the answer that it gets as the first
one on the tree; what is recorded of a node is what it means on a fresh tree, stays as it is, and
is recorded once. -/
theorem run_answers_as_fresh {source : Source} {t : Tree} (h : Tree.parse source = .ok t)
    (ops : List Operation) :
    ((start t).run ops).1 = ops.map (fun o => ((start t).step o).1) ∧
      (∀ id a, ((start t).run ops).2.known.get? id = some a →
        ((start t).step (.meaning id)).1 = .meaning a ∧
          ∃ n, t.node? id = some n ∧ t.meaning n = .ok a) ∧
      (∀ others id a, ((start t).run ops).2.known.get? id = some a →
        ((start t).run (ops ++ others)).2.known.get? id = some a) ∧
      (∀ others, ((start t).run ops).2.known.entries <:+
        ((start t).run (ops ++ others)).2.known.entries) ∧
      ((start t).run ops).2.known.ids.Nodup := by
  obtain ⟨ht, -⟩ := Tree.wellFormed_of_parse h
  obtain ⟨known, hrun, -⟩ := run_spec ht ops (.empty t)
  have hsound := (run_known ht ops []).1
  refine ⟨congrArg Prod.fst hrun, fun id a hget => ?_, fun others id a hget => ?_,
    fun others => (run_known ht ops others).2, hsound.nodup⟩
  · obtain ⟨n, hn, rfl, hmeaning⟩ := hsound.meaning id a (Known.mem_of_get? hget)
    refine ⟨?_, n, ht.node?_eq_some_iff.mpr ⟨hn, rfl⟩, hmeaning⟩
    have hstep := step_meaning_of_run ht [] hn
    rw [hmeaning] at hstep
    exact hstep
  · have hmem := (run_known ht ops others).2.subset (Known.mem_of_get? hget)
    exact (run_known ht (ops ++ others) []).1.get?_iff.mpr hmem

/-- A tuple as a type argument: the path fails, but leaves the elements of the tuple recorded. -/
theorem run_answers_as_fresh_tuple :
    ∃ t, Tree.parse "use m<(a,b)>;".toList = .ok t ∧
      let ops : List Operation := [.path 12, .meaning 8, .all, .meaningAs 4 .expr, .path 12]
      ((start t).run ops).1 = ops.map (fun o => ((start t).step o).1) ∧
      ((start t).run ops).2.known.ids.Nodup := by
  have hok : (Tree.parse "use m<(a,b)>;".toList).toBool = true := by decide +kernel
  obtain ⟨t, h⟩ := exists_eq_ok hok
  have hrun := run_answers_as_fresh h [.path 12, .meaning 8, .all, .meaningAs 4 .expr, .path 12]
  exact ⟨t, h, hrun.1, hrun.2.2.2.2⟩

end Session

end XiFront

import Mathlib.Data.List.Perm.Subperm
import XiFront.Proofs.Tree.WellFormed

/-!
The nodes that a meaning refers to.  A node without a meaning passes on what is below it.  A name that
its parent spells out is set aside, and so is all that is below a segment.
-/

namespace XiFront

open Peg

namespace Rule

/-- The rules that spell out the names among their children. -/
def spellsNames : Rule → Bool
  | useStmt | structDecl | interfaceDecl | enumDecl | fnDecl | methodDecl | enumField | field
  | param | attrib | genericParams | fieldAccess | staticAccess => true
  | _ => false

/-- The rules that spell out a name only where it comes first. -/
def spellsFirst : Rule → Bool
  | global | letStmt | fieldInit => true
  | _ => false

/-- Whether a node sets a child aside; `first` says whether the child comes first. -/
def setsAside (r : Rule) (first : Bool) (x : Rule) : Bool :=
  x = ident && (r.spellsNames || r.spellsFirst && first) ||
    r = methodParams && x = kw .lowerSelf || r = segment

/-- Whether the nodes of a rule set no child aside. -/
def passesAll (r : Rule) : Bool :=
  !(r.spellsNames || r.spellsFirst || r = methodParams || r = segment)

theorem setsAside_of_passesAll {r x : Rule} (h : r.passesAll = true) (first : Bool) :
    r.setsAside first x = false := by
  simp only [passesAll, Bool.not_eq_true', Bool.or_eq_false_iff] at h
  simp [setsAside, h]

theorem setsAside_of_spellsNames {r x : Rule} (h : r.spellsNames = true) (first : Bool) :
    r.setsAside first x = decide (x = ident) := by
  have hparams : r ≠ methodParams := by
    rintro rfl
    exact nomatch h
  have hsegment : r ≠ segment := by
    rintro rfl
    exact nomatch h
  simp [setsAside, h, hparams, hsegment]

theorem setsAside_of_spellsFirst {r x : Rule} (h : r.spellsFirst = true) (first : Bool) :
    r.setsAside first x = (decide (x = ident) && first) := by
  have hr : r = global ∨ r = letStmt ∨ r = fieldInit := by
    cases r <;> simp_all [spellsFirst]
  rcases hr with rfl | rfl | rfl <;> simp [setsAside, spellsNames, spellsFirst]

end Rule

namespace Node

/-! Collecting nodes.  For each child, `f` is told whether it is set aside, and what is collected
below it. -/

mutual

def gather (f : Bool → Node → List Node → List Node) : Node → List Node
  | ⟨_, r, _, _, _, children⟩ => gatherAll f r true children

def gatherAll (f : Bool → Node → List Node → List Node) (r : Rule) (first : Bool) :
    List Node → List Node
  | [] => []
  | c :: cs => f (r.setsAside first c.rule) c (gather f c) ++ gatherAll f r false cs

end

variable {f g k : Bool → Node → List Node → List Node} {n m : Node}

theorem gather_eq (n : Node) : n.gather f = gatherAll f n.rule true n.children := by
  cases n
  rfl

@[simp] theorem gatherAll_nil (r : Rule) (first : Bool) : gatherAll f r first [] = [] := rfl

theorem gatherAll_cons (r : Rule) (first : Bool) (c : Node) (cs : List Node) :
    gatherAll f r first (c :: cs) =
      f (r.setsAside first c.rule) c (c.gather f) ++ gatherAll f r false cs := rfl

/-- What holds of nothing, of what comes one after the other, and one level higher up, holds of all
that is collected. -/
theorem gather_rel {R : List Node → List Node → List Node → Prop} (hnil : R [] [] [])
    (happend : ∀ ⦃xs ys zs xs' ys' zs'⦄, R xs ys zs → R xs' ys' zs' →
      R (xs ++ xs') (ys ++ ys') (zs ++ zs'))
    (hstep : ∀ aside c, R (c.gather f) (c.gather g) (c.gather k) →
      R (f aside c (c.gather f)) (g aside c (c.gather g)) (k aside c (c.gather k))) (n : Node) :
    R (n.gather f) (n.gather g) (n.gather k) := by
  induction n using induction with
  | h n ih =>
      rw [gather_eq, gather_eq, gather_eq]
      generalize n.children = cs at ih
      generalize true = first
      induction cs generalizing first with
      | nil => exact hnil
      | cons c cs ihcs =>
          rw [List.forall_mem_cons] at ih
          exact happend (hstep _ c ih.1) (ihcs ih.2 false)

theorem mem_gatherAll {r : Rule} {first : Bool} {cs : List Node} :
    m ∈ gatherAll f r first cs ↔ ∃ before c after, cs = before ++ c :: after ∧
      m ∈ f (r.setsAside (first && before.isEmpty) c.rule) c (c.gather f) := by
  induction cs generalizing first with
  | nil => simp
  | cons d cs ih =>
      rw [gatherAll_cons, List.mem_append, ih]
      constructor
      · rintro (hm | ⟨before, c, after, rfl, hm⟩)
        · exact ⟨[], d, cs, rfl, by simpa using hm⟩
        · exact ⟨d :: before, c, after, rfl, by simpa using hm⟩
      · rintro ⟨before, c, after, hcs, hm⟩
        cases before with
        | nil =>
            obtain ⟨rfl, rfl⟩ := List.cons.inj hcs
            exact .inl (by simpa using hm)
        | cons d' before =>
            obtain ⟨rfl, rfl⟩ := List.cons.inj hcs
            exact .inr ⟨before, c, after, rfl, by simpa using hm⟩

theorem mem_gather :
    m ∈ n.gather f ↔ ∃ before c after, n.children = before ++ c :: after ∧
      m ∈ f (n.rule.setsAside before.isEmpty c.rule) c (c.gather f) := by
  rw [gather_eq, mem_gatherAll]
  simp only [Bool.true_and]

/-- What a child has for its parent to refer to: itself, or what is below it. -/
def passedOn (aside : Bool) (c : Node) (below : List Node) : List Node :=
  if aside then [] else if c.rule.hasMeaning then [c] else below

/-- The nodes that the meaning of a node refers to. -/
def referents : Node → List Node :=
  gather passedOn

/-- The nodes that are reached from a node, from referent to referent. -/
def reached : Node → List Node :=
  gather fun aside c below => if aside then [] else if c.rule.hasMeaning then c :: below else below

def asides : Node → List Node :=
  gather fun aside c below => if aside then c.preorder else below

def descendants : Node → List Node :=
  gather fun _ c below => c :: below

theorem descendants_eq (n : Node) : n.descendants = preorderAll n.children := by
  induction n using induction with
  | h n ih =>
      rw [descendants, gather_eq]
      generalize n.children = cs at ih
      generalize true = first
      induction cs generalizing first with
      | nil => rfl
      | cons c cs ihcs =>
          rw [List.forall_mem_cons] at ih
          rw [gatherAll_cons, ihcs ih.2 false, preorderAll_cons, preorder_eq, ← ih.1]
          rfl

theorem preorder_eq_cons (n : Node) : n.preorder = n :: n.descendants := by
  rw [preorder_eq, descendants_eq]

theorem passedOn_sublist (aside : Bool) (c : Node) {below all : List Node}
    (h : below.Sublist all) : (passedOn aside c below).Sublist (c :: all) := by
  rw [passedOn]
  split
  · exact List.nil_sublist _
  · split
    · exact (List.nil_sublist all).cons_cons c
    · exact h.cons c

theorem referents_sublist (n : Node) : n.referents.Sublist n.descendants :=
  gather_rel (R := fun xs _ zs => xs.Sublist zs) (g := fun _ _ _ => []) .slnil
    (fun _ _ _ _ _ _ h h' => h.append h') (fun aside c h => passedOn_sublist aside c h) n

theorem hasMeaning_of_mem_referents (h : m ∈ n.referents) : m.rule.hasMeaning = true := by
  refine gather_rel (R := fun xs _ _ => ∀ m ∈ xs, m.rule.hasMeaning = true) (g := fun _ _ _ => [])
    (k := fun _ _ _ => []) nofun ?_ ?_ n m h
  · intro xs ys zs xs' ys' zs' h h'
    exact List.forall_mem_append.mpr ⟨h, h'⟩
  · intro aside c h
    rw [passedOn]
    split
    · exact nofun
    · split
      · next hc => exact List.forall_mem_singleton.mpr hc
      · exact h

theorem reached_perm (n : Node) :
    n.reached.Perm (n.referents.flatMap fun c => c :: c.reached) := by
  refine gather_rel (R := fun xs ys _ => xs.Perm (ys.flatMap fun c => c :: c.reached))
    (k := fun _ _ _ => []) .nil ?_ ?_ n
  · intro xs ys zs xs' ys' zs' h h'
    rw [List.flatMap_append]
    exact h.append h'
  · intro aside c h
    rw [passedOn]
    split
    · exact .nil
    · split
      · rw [List.flatMap_singleton]
        exact .refl _
      · exact h

theorem perm_append_append (xs xs' ys ys' : List Node) :
    (xs ++ xs' ++ (ys ++ ys')).Perm (xs ++ ys ++ (xs' ++ ys')) := by
  rw [List.append_assoc, List.append_assoc, ← List.append_assoc xs', ← List.append_assoc ys]
  exact (List.perm_append_comm.append_right ys').append_left xs

/-- A node is not both reached and set aside. -/
theorem reached_asides_subperm (n : Node) : (n.reached ++ n.asides).Subperm n.descendants := by
  refine gather_rel (R := fun xs ys zs => (xs ++ ys).Subperm zs) (List.nil_subperm) ?_ ?_ n
  · intro xs ys zs xs' ys' zs' h h'
    exact (perm_append_append xs xs' ys ys').subperm.trans (h.append h')
  · intro aside c h
    cases aside with
    | true =>
        rw [if_pos rfl, if_pos rfl, List.nil_append, preorder_eq_cons]
        exact .refl _
    | false =>
        rw [if_neg Bool.false_ne_true, if_neg Bool.false_ne_true]
        split
        · exact (List.subperm_cons c).mpr h
        · exact h.trans (List.sublist_cons_self c _).subperm

theorem mem_reached_or_asides (h : m ∈ n.descendants) (hm : m.rule.hasMeaning = true) :
    m ∈ n.reached ∨ m ∈ n.asides := by
  refine gather_rel
    (R := fun xs ys zs => ∀ m ∈ zs, m.rule.hasMeaning = true → m ∈ xs ∨ m ∈ ys) nofun ?_ ?_ n m h hm
  · intro xs ys zs xs' ys' zs' h h' m hm hmeaning
    rw [List.mem_append, List.mem_append]
    rcases List.mem_append.mp hm with hm | hm
    · exact (h m hm hmeaning).imp .inl .inl
    · exact (h' m hm hmeaning).imp .inr .inr
  · intro aside c h m hm hmeaning
    cases aside with
    | true =>
        rw [if_pos rfl, if_pos rfl, preorder_eq_cons]
        exact .inr hm
    | false =>
        rw [if_neg Bool.false_ne_true, if_neg Bool.false_ne_true]
        rcases List.mem_cons.mp hm with rfl | hm
        · rw [if_pos hmeaning]
          exact .inl List.mem_cons_self
        · refine (h m hm hmeaning).imp_left fun hm => ?_
          split
          · exact List.mem_cons_of_mem c hm
          · exact hm

def references (n : Node) : List Node :=
  if n.rule.hasMeaning then n.referents else []

/-- No node is referred to twice. -/
theorem references_subperm (n : Node) :
    (n.referents ++ n.descendants.flatMap references).Subperm n.descendants := by
  have hgather : n.descendants.flatMap references =
      n.gather fun _ c below => c.references ++ below := by
    refine gather_rel (R := fun xs ys _ => xs.flatMap references = ys) (k := fun _ _ _ => []) rfl
      ?_ ?_ n
    · rintro xs ys zs xs' ys' zs' rfl rfl
      exact List.flatMap_append
    · rintro aside c h
      rw [List.flatMap_cons, h]
  rw [hgather]
  refine gather_rel (R := fun xs ys zs => (xs ++ ys).Subperm zs) List.nil_subperm ?_ ?_ n
  · intro xs ys zs xs' ys' zs' h h'
    exact (perm_append_append xs xs' ys ys').subperm.trans (h.append h')
  · intro aside c h
    have hbelow := (List.sublist_append_right c.referents _).subperm.trans h
    have hsub := (List.sublist_cons_self c (c.gather fun _ c below => c :: below)).subperm
    rw [passedOn, references]
    cases aside with
    | true =>
        rw [if_pos rfl, List.nil_append]
        split
        · exact h.trans hsub
        · exact hbelow.trans hsub
    | false =>
        rw [if_neg Bool.false_ne_true]
        split
        · exact (List.subperm_cons c).mpr h
        · exact h.trans hsub

theorem mem_asides :
    m ∈ n.asides ↔ ∃ p ∈ n.preorder, ∃ before c after, p.children = before ++ c :: after ∧
      p.rule.setsAside before.isEmpty c.rule = true ∧ m ∈ c.preorder := by
  induction n using induction with
  | h n ih =>
      rw [asides, mem_gather]
      constructor
      · rintro ⟨before, c, after, hchildren, hm⟩
        split at hm
        · next haside => exact ⟨n, n.self_mem_preorder, before, c, after, hchildren, haside, hm⟩
        · have hc : c ∈ n.children := by simp [hchildren]
          obtain ⟨p, hp, haside⟩ := (ih c hc).mp hm
          exact ⟨p, preorder_trans hp (child_mem_preorder hc), haside⟩
      · rintro ⟨p, hp, before, c, after, hchildren, haside, hm⟩
        rcases mem_preorder.mp hp with rfl | ⟨d, hd, hpd⟩
        · exact ⟨before, c, after, hchildren, by rw [if_pos haside]; exact hm⟩
        · obtain ⟨before', after', hchildren'⟩ := List.append_of_mem hd
          refine ⟨before', d, after', hchildren', ?_⟩
          split
          · have hc : c ∈ p.children := by simp [hchildren]
            exact preorder_trans hm (preorder_trans (child_mem_preorder hc) hpd)
          · exact (ih d hd).mpr ⟨p, hpd, before, c, after, hchildren, haside, hm⟩

end Node

namespace Node

/-- What a child that is not set aside has for its parent to refer to. -/
def offers (c : Node) : List Node :=
  passedOn false c c.referents

variable {c : Node} {cs : List Node}

theorem offers_of_meaning (h : c.rule.hasMeaning = true) : c.offers = [c] := by
  rw [offers, passedOn, if_neg Bool.false_ne_true, if_pos h]

theorem offers_of_not_meaning (h : c.rule.hasMeaning = false) : c.offers = c.referents := by
  rw [offers, passedOn, if_neg Bool.false_ne_true, h, if_neg Bool.false_ne_true]

theorem flatMap_offers (h : ∀ c ∈ cs, c.rule.hasMeaning = true) : cs.flatMap offers = cs := by
  induction cs with
  | nil => rfl
  | cons c cs ih =>
      rw [List.forall_mem_cons] at h
      rw [List.flatMap_cons, offers_of_meaning h.1, ih h.2, List.singleton_append]

theorem gatherAll_eq_filter {p : Node → Bool} {r : Rule} {first : Bool}
    (h : ∀ b ≤ first, ∀ c ∈ cs, r.setsAside b c.rule = !p c) :
    gatherAll passedOn r first cs = (cs.filter p).flatMap offers := by
  induction cs generalizing first with
  | nil => rfl
  | cons c cs ih =>
      have hcs : ∀ b ≤ false, ∀ c ∈ cs, r.setsAside b c.rule = !p c :=
        fun b hb d hd => h b (Bool.le_trans hb (Bool.false_le first)) d (List.mem_cons_of_mem c hd)
      rw [gatherAll_cons, h first (Bool.le_refl first) c List.mem_cons_self, ih hcs]
      cases hp : p c with
      | true =>
          rw [List.filter_cons_of_pos hp, List.flatMap_cons]
          rfl
      | false =>
          rw [List.filter_cons_of_neg (by simp [hp])]
          rfl

variable {n : Node}

theorem referents_of_nil (h : n.children = []) : n.referents = [] := by
  rw [referents, gather_eq, h, gatherAll_nil]

theorem referents_of_passesAll (h : n.rule.passesAll = true) :
    n.referents = n.children.flatMap offers := by
  rw [referents, gather_eq, gatherAll_eq_filter (p := fun _ => true), List.filter_true]
  intro b _ c _
  exact Rule.setsAside_of_passesAll h b

theorem referents_eq_children (h : n.rule.passesAll = true)
    (hcs : ∀ c ∈ n.children, c.rule.hasMeaning = true) : n.referents = n.children := by
  rw [referents_of_passesAll h, flatMap_offers hcs]

theorem referents_of_spellsNames (h : n.rule.spellsNames = true) :
    n.referents = (n.children.filter (·.rule ≠ .ident)).flatMap offers := by
  rw [referents, gather_eq, gatherAll_eq_filter]
  intro b _ c _
  simp [Rule.setsAside_of_spellsNames h]

theorem referents_of_named (h : n.rule.spellsNames = true) (hchildren : n.children = c :: cs)
    (hc : c.rule = .ident) (hcs : ∀ d ∈ cs, d.rule ≠ .ident) :
    n.referents = cs.flatMap offers := by
  have hkept : cs.filter (·.rule ≠ .ident) = cs :=
    List.filter_eq_self.mpr fun d hd => decide_eq_true (hcs d hd)
  rw [referents_of_spellsNames h, hchildren, List.filter_cons_of_neg (by simp [hc]), hkept]

theorem referents_of_spellsFirst (h : n.rule.spellsFirst = true) (hchildren : n.children = c :: cs)
    (hc : c.rule = .ident) : n.referents = cs.flatMap offers := by
  rw [referents, gather_eq, hchildren, gatherAll_cons, gatherAll_eq_filter (p := fun _ => true),
    List.filter_true]
  · rw [hc, Rule.setsAside_of_spellsFirst h]
    rfl
  · intro b hb d _
    rw [Rule.setsAside_of_spellsFirst h, Bool.eq_false_of_le_false hb, Bool.and_false]
    rfl

theorem referents_methodParams (hr : n.rule = .methodParams) :
    n.referents = (n.children.filter (·.rule ≠ .kw .lowerSelf)).flatMap offers := by
  rw [referents, gather_eq, gatherAll_eq_filter]
  intro b _ c _
  simp [hr, Rule.setsAside, Rule.spellsNames, Rule.spellsFirst]

theorem referents_segment (hr : n.rule = .segment) : n.referents = [] := by
  rw [referents, gather_eq, gatherAll_eq_filter (p := fun _ => false), List.filter_false]
  · rfl
  · intro b _ c _
    rw [hr]
    exact Bool.or_true _

end Node

theorem Tree.WellFormed.descendant_lt {t : Tree} (ht : t.WellFormed) {m n : Node} (hn : n ∈ t.nodes)
    (hm : m ∈ n.descendants) : m.id < n.id := by
  induction n using Node.induction with
  | h n ih =>
      rw [Node.descendants_eq, Node.mem_preorderAll] at hm
      obtain ⟨c, hc, hm⟩ := hm
      have hlt := ht.child_lt hn hc
      rw [Node.preorder_eq_cons] at hm
      rcases List.mem_cons.mp hm with rfl | hm
      · exact hlt
      · exact Nat.lt_trans (ih c hc (Tree.child_mem_nodes hn hc) hm) hlt

theorem Tree.WellFormed.referents_ascending {t : Tree} (ht : t.WellFormed) {n : Node}
    (hn : n ∈ t.nodes) : (n.referents.map Node.id).Pairwise (· < ·) := by
  induction n using Node.induction with
  | h n ih =>
      have hcs (c : Node) (hc : c ∈ n.children) := ih c hc (Tree.child_mem_nodes hn hc)
      have hpairwise := ht.ascending n (Tree.mem_nodes.mp hn)
      rw [Node.referents, Node.gather_eq]
      generalize n.children = cs at hcs hpairwise
      generalize true = first
      induction cs generalizing first with
      | nil => exact .nil
      | cons c cs ihcs =>
          rw [List.forall_mem_cons] at hcs
          rw [List.pairwise_cons] at hpairwise
          rw [Node.gatherAll_cons, List.map_append, List.pairwise_append]
          have hpassed (aside : Bool) (d x : Node) (hx : x ∈ Node.passedOn aside d d.referents) :
              x ∈ d.preorder := by
            rw [Node.preorder_eq_cons]
            exact (Node.passedOn_sublist aside d d.referents_sublist).subset hx
          refine ⟨?_, ihcs hcs.2 hpairwise.2 false, ?_⟩
          · rw [Node.passedOn]
            split
            · exact .nil
            · split
              · exact List.pairwise_singleton _ _
              · exact hcs.1
          · rw [List.forall_mem_map]
            intro x hx
            rw [List.forall_mem_map]
            intro y hy
            obtain ⟨before, d, after, hd, hyd⟩ := Node.mem_gatherAll.mp hy
            exact hpairwise.1 d (by simp [hd]) x (hpassed _ c x hx) y (hpassed _ d y hyd)

/-- The nodes that no meaning refers to, though they could have one: names that are spelled out, the
`self` of a method, and what is below a segment. -/
inductive Tree.SetsAside (t : Tree) (n : Node) : Prop
  | name {p : Node} (hp : p ∈ t.nodes) (hr : p.rule.spellsNames = true) (hmem : n ∈ p.children)
      (hn : n.rule = .ident)
  | first {p : Node} (hp : p ∈ t.nodes) (hr : p.rule.spellsFirst = true)
      (hfirst : p.children.head? = some n) (hn : n.rule = .ident)
  | self {p : Node} (hp : p ∈ t.nodes) (hr : p.rule = .methodParams) (hmem : n ∈ p.children)
      (hn : n.rule = .kw .lowerSelf)
  | argument {s : Node} (hs : s ∈ t.nodes) (hr : s.rule = .segment)
      (hmem : n ∈ Node.preorderAll s.children)

theorem Tree.WellFormed.preorder_word {t : Tree} (ht : t.WellFormed) {n : Node} (hn : n ∈ t.nodes)
    (hr : n.rule = .ident ∨ n.rule = .kw .lowerSelf) : n.preorder = [n] := by
  have hlayout := ht.layout hn
  have hnil : n.children.map Node.rule = [] := by
    rcases hr with hr | hr
    · rw [hr] at hlayout
      exact hlayout
    · rw [hr] at hlayout
      exact hlayout
  rw [Node.preorder_eq, List.map_eq_nil_iff.mp hnil, Node.preorderAll_nil]

theorem Tree.WellFormed.mem_asides_iff {t : Tree} (ht : t.WellFormed) {n : Node} :
    n ∈ t.root.asides ↔ t.SetsAside n := by
  rw [Node.mem_asides]
  simp only [← Tree.mem_nodes, Rule.setsAside, Bool.or_eq_true, Bool.and_eq_true, decide_eq_true_eq]
  constructor
  · rintro ⟨p, hp, before, c, after, hchildren, haside, hn⟩
    have hmem : c ∈ p.children := by simp [hchildren]
    have hword (hr : c.rule = .ident ∨ c.rule = .kw .lowerSelf) : n = c := by
      rw [ht.preorder_word (Tree.child_mem_nodes hp hmem) hr] at hn
      exact List.mem_singleton.mp hn
    rcases haside with (⟨hc, hr | ⟨hr, hfirst⟩⟩ | ⟨hr, hc⟩) | hr
    · rw [hword (.inl hc)]
      exact .name hp hr hmem hc
    · rw [hword (.inl hc)]
      refine .first hp hr ?_ hc
      rw [hchildren, List.isEmpty_iff.mp hfirst]
      rfl
    · rw [hword (.inr hc)]
      exact .self hp hr hmem hc
    · exact .argument hp hr (Node.mem_preorderAll.mpr ⟨c, hmem, hn⟩)
  · rintro (⟨hp, hr, hmem, hn⟩ | ⟨hp, hr, hfirst, hn⟩ | ⟨hp, hr, hmem, hn⟩ | ⟨hs, hr, hmem⟩)
    · obtain ⟨before, after, hchildren⟩ := List.append_of_mem hmem
      exact ⟨_, hp, before, n, after, hchildren, .inl (.inl ⟨hn, .inl hr⟩), n.self_mem_preorder⟩
    · obtain ⟨after, hchildren⟩ := List.head?_eq_some_iff.mp hfirst
      exact ⟨_, hp, [], n, after, hchildren, .inl (.inl ⟨hn, .inr ⟨hr, rfl⟩⟩), n.self_mem_preorder⟩
    · obtain ⟨before, after, hchildren⟩ := List.append_of_mem hmem
      exact ⟨_, hp, before, n, after, hchildren, .inl (.inr ⟨hr, hn⟩), n.self_mem_preorder⟩
    · obtain ⟨c, hc, hn⟩ := Node.mem_preorderAll.mp hmem
      obtain ⟨before, after, hchildren⟩ := List.append_of_mem hc
      exact ⟨_, hs, before, c, after, hchildren, .inr hr, hn⟩

end XiFront

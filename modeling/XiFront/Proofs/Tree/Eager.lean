import XiFront.Proofs.Lowering.Parts
import XiFront.Proofs.Tree.WellFormed

namespace XiFront

namespace Node

mutual

/-- The types that a type, a path or a part of one brings. -/
def innerTypes : Node → List Node
  | ⟨_, rule, _, _, _, children⟩ =>
      match rule with
      | .ty | .path | .impls => innerTypesAll children
      | .tupleType => elementTypes children
      | .segment => argumentTypes children
      | _ => []

def innerTypesAll : List Node → List Node
  | [] => []
  | c :: cs => c.innerTypes ++ innerTypesAll cs

def elementTypes : List Node → List Node
  | [] => []
  | c :: cs => c :: (c.innerTypes ++ elementTypes cs)

/-- The name of a segment comes first.  Of its arguments, only one is looked into. -/
def argumentTypes : List Node → List Node
  | _ :: arg :: _ => arg :: arg.innerTypes
  | _ => []

end

def innerTypesOf (n : Node) (r : Rule) : List Node :=
  match n.first? r with
  | some c => c.innerTypes
  | none => []

/-- The types that are looked into whenever the node is. -/
def eager (n : Node) : List Node :=
  match n.rule with
  | .ty => n.innerTypes
  | .useStmt => n.innerTypesOf .path
  | .structDecl | .interfaceDecl => n.innerTypesOf .impls
  | _ => []

variable {m n : Node}

theorem innerTypes_eq_all (h : n.rule = .ty ∨ n.rule = .path ∨ n.rule = .impls) :
    n.innerTypes = innerTypesAll n.children := by
  obtain ⟨id, rule, start, stop, position, children⟩ := n
  rcases h with h | h | h <;> cases h <;> rfl

theorem innerTypes_tuple (h : n.rule = .tupleType) :
    n.innerTypes = elementTypes n.children := by
  obtain ⟨id, rule, start, stop, position, children⟩ := n
  cases h
  rfl

theorem innerTypes_segment (h : n.rule = .segment) :
    n.innerTypes = argumentTypes n.children := by
  obtain ⟨id, rule, start, stop, position, children⟩ := n
  cases h
  rfl

theorem innerTypes_cases (n : Node) :
    (n.rule = .ty ∨ n.rule = .path ∨ n.rule = .impls) ∨ n.rule = .tupleType ∨ n.rule = .segment ∨
      n.innerTypes = [] := by
  obtain ⟨id, rule, start, stop, position, children⟩ := n
  cases rule <;> simp [innerTypes]

theorem innerTypes_eq_nil (h : n.rule ∉ [.ty, .path, .impls, .tupleType, .segment]) :
    n.innerTypes = [] := by
  rcases n.innerTypes_cases with hr | hr | hr | hnil
  · exact absurd (by rcases hr with hr | hr | hr <;> simp [hr]) h
  · exact absurd (by simp [hr]) h
  · exact absurd (by simp [hr]) h
  · exact hnil

theorem innerTypes_ty {base : Node} {suffix : List Node} (hr : n.rule = .ty)
    (hc : n.children = base :: suffix)
    (hs : suffix = [] ∨ ∃ c, suffix = [c] ∧ c.rule = .arraySuffix) :
    n.innerTypes = base.innerTypes := by
  rw [innerTypes_eq_all (.inl hr), hc, innerTypesAll]
  rcases hs with rfl | ⟨c, rfl, hsuffix⟩
  · exact List.append_nil _
  · have hnil : c.innerTypes = [] := innerTypes_eq_nil (by simp [hsuffix])
    rw [innerTypesAll, innerTypesAll, hnil, List.nil_append, List.append_nil]

theorem mem_innerTypesAll {cs : List Node} :
    m ∈ innerTypesAll cs ↔ ∃ c ∈ cs, m ∈ c.innerTypes := by
  induction cs with
  | nil => simp [innerTypesAll]
  | cons c cs ih => simp [innerTypesAll, ih]

theorem mem_elementTypes {cs : List Node} :
    m ∈ elementTypes cs ↔ ∃ c ∈ cs, m = c ∨ m ∈ c.innerTypes := by
  induction cs with
  | nil => simp [elementTypes]
  | cons c cs ih => simp [elementTypes, ih, or_assoc]

theorem mem_innerTypes (h : m ∈ n.innerTypes) : ∃ c ∈ n.children, m = c ∨ m ∈ c.innerTypes := by
  rcases n.innerTypes_cases with hr | hr | hr | hnil
  · rw [innerTypes_eq_all hr] at h
    obtain ⟨c, hc, hm⟩ := mem_innerTypesAll.mp h
    exact ⟨c, hc, .inr hm⟩
  · rw [innerTypes_tuple hr] at h
    exact mem_elementTypes.mp h
  · rw [innerTypes_segment hr] at h
    match hc : n.children with
    | [] => exact absurd (hc ▸ h) List.not_mem_nil
    | [_] => exact absurd (hc ▸ h) List.not_mem_nil
    | _ :: arg :: _ =>
        rw [hc] at h
        exact ⟨arg, by simp, List.mem_cons.mp h⟩
  · rw [hnil] at h
    exact absurd h List.not_mem_nil

theorem innerTypesOf_head {c : Node} {r : Rule} (h : n.children[0]? = some c) (hr : c.rule = r) :
    n.innerTypesOf r = c.innerTypes := by
  have hfirst : n.first? r = some c := by
    rw [← List.head?_eq_getElem?] at h
    obtain ⟨cs, hc⟩ := List.head?_eq_some_iff.mp h
    rw [first?, hc, List.find?_cons_of_pos (by simp [hr])]
  rw [innerTypesOf, hfirst]

theorem mem_innerTypesOf {r : Rule} (h : m ∈ n.innerTypesOf r) :
    ∃ c ∈ n.children, m ∈ c.innerTypes := by
  unfold innerTypesOf at h
  cases hfirst : n.first? r with
  | none =>
      rw [hfirst] at h
      exact absurd h List.not_mem_nil
  | some c =>
      rw [hfirst] at h
      exact ⟨c, List.mem_of_find?_eq_some hfirst, h⟩

end Node

namespace Tree.WellFormed

variable {t : Tree} {m n : Node} (ht : t.WellFormed) (hn : n ∈ t.nodes)
include ht hn

theorem of_mem_innerTypes (h : m ∈ n.innerTypes) : m ∈ t.nodes ∧ m.id < n.id := by
  induction n using Node.induction with
  | h n ih =>
      obtain ⟨c, hc, hm⟩ := Node.mem_innerTypes h
      have hcn := child_mem_nodes hn hc
      have hlt := ht.child_lt hn hc
      rcases hm with rfl | hm
      · exact ⟨hcn, hlt⟩
      · obtain ⟨hmn, hmc⟩ := ih c hc hcn hm
        exact ⟨hmn, Nat.lt_trans hmc hlt⟩

theorem of_mem_eager (h : m ∈ n.eager) : m ∈ t.nodes ∧ m.id < n.id := by
  have hbelow {r : Rule} (h : m ∈ n.innerTypesOf r) : m ∈ t.nodes ∧ m.id < n.id := by
    obtain ⟨c, hc, hm⟩ := Node.mem_innerTypesOf h
    obtain ⟨hmn, hmc⟩ := ht.of_mem_innerTypes (child_mem_nodes hn hc) hm
    exact ⟨hmn, Nat.lt_trans hmc (ht.child_lt hn hc)⟩
  unfold Node.eager at h
  split at h
  · exact ht.of_mem_innerTypes hn h
  · exact hbelow h
  · exact hbelow h
  · exact hbelow h
  · exact absurd h List.not_mem_nil

end Tree.WellFormed

end XiFront

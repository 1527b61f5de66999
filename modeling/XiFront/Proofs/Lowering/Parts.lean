import XiFront.Lowering

namespace XiFront.Node

variable {n c : Node} {i : Nat} {r : Rule}

theorem child_eq (h : n.children[i]? = some c) : n.child i = .ok c := by
  rw [child, h]

theorem childOf_eq_ok_iff : n.childOf i r = .ok c ↔ n.children[i]? = some c ∧ c.rule = r := by
  unfold childOf child
  cases n.children[i]? with
  | none => simp [bind, Except.bind]
  | some d =>
      by_cases hd : d.rule = r
      · simp only [bind, Except.bind, hd, if_true, pure, Except.pure, Except.ok.injEq,
          Option.some.injEq]
        constructor
        · rintro rfl
          exact ⟨rfl, hd⟩
        · exact And.left
      · simp only [bind, Except.bind, hd, if_false, throw, throwThe, MonadExceptOf.throw,
          Option.some.injEq, reduceCtorEq, false_iff, not_and]
        rintro rfl
        exact hd

theorem identAt_eq (source : Source) (h : n.children[i]? = some c) (hr : c.rule = .ident) :
    n.identAt source i = .ok (c.name source) := by
  rw [identAt, childOf_eq_ok_iff.mpr ⟨h, hr⟩]
  rfl

theorem allow_eq {allowed : Rule → Bool} (h : ∀ c ∈ n.children, allowed c.rule = true) :
    n.allow allowed = .ok () := by
  have hnone : n.children.find? (fun c => !allowed c.rule) = none := by
    rw [List.find?_eq_none]
    intro c hc
    simp [h c hc]
  rw [allow, hnone]

def first? (n : Node) (r : Rule) : Option Node :=
  n.children.find? (·.rule = r)

theorem mem_of_first? (h : n.first? r = some c) : c ∈ n.children ∧ c.rule = r :=
  ⟨List.mem_of_find?_eq_some h, by simpa using List.find?_some h⟩

end XiFront.Node

import XiFront.Proofs.Tree.WellFormed

namespace XiFront

namespace Tree.WellFormed

variable {t : Tree} {n : Node}

theorem ty_children (h : t.WellFormed) (hn : n ∈ t.nodes) (hr : n.rule = .ty) :
    ∃ base suffix, n.children = base :: suffix ∧ base.rule.isTypeBase = true ∧
      (suffix = [] ∨ ∃ c, suffix = [c] ∧ c.rule = .arraySuffix) := by
  have hlayout := h.layout hn
  rw [hr] at hlayout
  obtain ⟨l, b, hl, hb, hsuffix⟩ := hlayout
  obtain ⟨base, suffix, hchildren, rfl, rfl⟩ := List.map_eq_cons_iff.mp hl
  refine ⟨base, suffix, hchildren, hb, ?_⟩
  rcases hsuffix with hnil | hone
  · exact .inl (List.map_eq_nil_iff.mp hnil)
  · obtain ⟨c, hc, hrule⟩ := List.map_eq_singleton_iff.mp hone
    exact .inr ⟨c, hc, hrule⟩

theorem tuple_children (h : t.WellFormed) (hn : n ∈ t.nodes) (hr : n.rule = .tupleType) :
    ∀ c ∈ n.children, c.rule = .ty := by
  have hlayout := h.layout hn
  rw [hr] at hlayout
  exact List.forall_mem_map.mp hlayout

theorem path_children (h : t.WellFormed) (hn : n ∈ t.nodes) (hr : n.rule = .path) :
    ∃ dots first others, n.children = dots ++ first :: others ∧ (∀ c ∈ dots, c.rule = .dot) ∧
      ∀ c ∈ first :: others, c.rule = .segment := by
  have hlayout := h.layout hn
  rw [hr] at hlayout
  obtain ⟨l, l', hl, hdots, hsegments⟩ := hlayout
  obtain ⟨dots, rest, hchildren, rfl, hrest⟩ := List.map_eq_append_iff.mp hl
  obtain ⟨first, others, rfl, hfirst, rfl⟩ := List.map_eq_cons_iff.mp hrest
  exact ⟨dots, first, others, hchildren, List.forall_mem_map.mp hdots,
    List.forall_mem_cons.mpr ⟨hfirst, List.forall_mem_map.mp hsegments⟩⟩

theorem segment_children (h : t.WellFormed) (hn : n ∈ t.nodes) (hr : n.rule = .segment) :
    ∃ name arguments, n.children = name :: arguments ∧
      Lowering.isSegmentName name.rule = true ∧ ∀ c ∈ arguments, c.rule = .ty := by
  have hlayout := h.layout hn
  rw [hr] at hlayout
  obtain ⟨x, l, hl, hname, harguments⟩ := hlayout
  obtain ⟨name, arguments, hchildren, rfl, rfl⟩ := List.map_eq_cons_iff.mp hl
  exact ⟨name, arguments, hchildren, hname, List.forall_mem_map.mp harguments⟩

end Tree.WellFormed

theorem Rule.isTypeBase_cases {r : Rule} (h : r.isTypeBase = true) :
    (∃ s : Scalar, r = .kw s.keyword) ∨ r = .kw .upperSelf ∨ r = .path ∨ r = .tupleType := by
  cases r with
  | kw k =>
      simp only [Rule.isTypeBase, Bool.or_eq_true, decide_eq_true_eq] at h
      rcases h with rfl | h
      · exact .inr (.inl rfl)
      · obtain ⟨s, hs⟩ := Option.isSome_iff_exists.mp h
        exact .inl ⟨s, congrArg Rule.kw ((Keyword.scalar?_eq_some_iff k s).mp hs)⟩
  | path => exact .inr (.inr (.inl rfl))
  | tupleType => exact .inr (.inr (.inr rfl))
  | _ => exact absurd h Bool.false_ne_true

namespace Lowering

section Equations

variable {m : Type → Type} [Monad m] [MonadExcept Error m] [LawfulMonad m]
variable (source : Source) (visit : Node → m TypeRef → m TypeRef)

omit [LawfulMonad m] in
@[simp] theorem ofExcept_ok (a : α) :
    (MonadExcept.ofExcept (Except.ok a : Except Error α) : m α) = pure a := rfl

omit [LawfulMonad m] in
@[simp] theorem ofExcept_error (e : Error) :
    (MonadExcept.ofExcept (Except.error e : Except Error α) : m α) = throw e := rfl

theorem isArray_eq {n : Node} {suffix : List Node}
    (h : suffix = [] ∨ ∃ c, suffix = [c] ∧ c.rule = .arraySuffix) :
    isArray n suffix = .ok !suffix.isEmpty := by
  rcases h with rfl | ⟨c, rfl, hc⟩
  · rfl
  · simp [isArray, hc]

section TypeOf

variable {n base : Node} {suffix : List Node} (hr : n.rule = .ty)
  (hc : n.children = base :: suffix)
  (hs : suffix = [] ∨ ∃ c, suffix = [c] ∧ c.rule = .arraySuffix)
include hr hc hs

theorem typeOf_scalar {s : Scalar} (hbase : base.rule = .kw s.keyword) :
    typeOf source visit n = pure ⟨.scalar s, !suffix.isEmpty⟩ := by
  obtain ⟨id, rule, start, stop, position, children⟩ := n
  subst hr hc
  simp [typeOf, isArray_eq hs, hbase]

theorem typeOf_self (hbase : base.rule = .kw .upperSelf) :
    typeOf source visit n = pure ⟨.self, !suffix.isEmpty⟩ := by
  obtain ⟨id, rule, start, stop, position, children⟩ := n
  subst hr hc
  simp [typeOf, isArray_eq hs, hbase, Keyword.scalar?]

theorem typeOf_path (hbase : base.rule = .path) :
    typeOf source visit n =
      (fun p => ⟨.path p, !suffix.isEmpty⟩) <$> pathOf source visit base := by
  obtain ⟨id, rule, start, stop, position, children⟩ := n
  subst hr hc
  simp [typeOf, isArray_eq hs, hbase]

theorem typeOf_tuple (hbase : base.rule = .tupleType) :
    typeOf source visit n =
      (fun elements => ⟨.tuple elements, !suffix.isEmpty⟩) <$>
        visitAll source visit base.children := by
  obtain ⟨id, rule, start, stop, position, children⟩ := n
  obtain ⟨_, _, _, _, _, elements⟩ := base
  subst hr hc
  simp only [] at hbase
  simp [typeOf, isArray_eq hs, hbase, elementsOf]

end TypeOf

omit [LawfulMonad m] in
theorem pathOf_eq {n : Node} (hr : n.rule = .path) :
    pathOf source visit n = segmentsOf source visit n n.children := by
  obtain ⟨id, rule, start, stop, position, children⟩ := n
  subst hr
  rw [pathOf]
  exact if_neg fun h => h rfl

theorem segmentsOf_dot {n c : Node} {cs : List Node} (hc : c.rule = .dot) :
    segmentsOf source visit n (c :: cs) =
      (Segment.marker :: ·) <$> segmentsOf source visit n cs := by
  rw [segmentsOf]
  simp [hc]

theorem segmentsOf_segment {n c : Node} {cs : List Node} (hc : c.rule = .segment) :
    segmentsOf source visit n (c :: cs) = (do
      let s ← segmentOf source visit c
      (s :: ·) <$> segmentsOf source visit n cs) := by
  rw [segmentsOf]
  simp [hc]

omit [LawfulMonad m] in
theorem segmentOf_plain {n name : Node} (hc : n.children = [name])
    (hname : isSegmentName name.rule = true) :
    segmentOf source visit n = pure ⟨name.name source, none⟩ := by
  obtain ⟨id, rule, start, stop, position, children⟩ := n
  subst hc
  rw [segmentOf]
  exact if_pos hname

omit [LawfulMonad m] in
theorem segmentOf_argument {n name arg : Node} {others : List Node}
    (hc : n.children = name :: arg :: others) (hname : isSegmentName name.rule = true) :
    segmentOf source visit n = (do
      let t ← visit arg (typeOf source visit arg)
      match t.path? with
      | some p => pure ⟨name.name source, some [p]⟩
      | none => throw (.unsupported arg.position "non-path generic argument")) := by
  obtain ⟨id, rule, start, stop, position, children⟩ := n
  subst hc
  have hkeep : ¬(!isSegmentName name.rule) = true := by
    rw [hname]
    exact Bool.false_ne_true
  rw [segmentOf]
  exact if_neg hkeep

end Equations

end Lowering

end XiFront

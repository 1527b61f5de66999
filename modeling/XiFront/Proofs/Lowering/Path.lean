import XiFront.Proofs.Lowering.Outcome
import XiFront.Proofs.Lowering.Type
import XiFront.Proofs.Path.Source

namespace XiFront.Lowering

/-- What a type node means: its handles are those of its referents, it is no path just where it is
a tuple or an array, and its path is a source path. -/
structure IsTypeAt (n : Node) (ref : TypeRef) : Prop where
  refers : ref.handles = Node.entries n.referents
  pathless : ref.path? = none ↔ n.IsPathless
  path : ∀ p, ref.path? = some p → Path.IsSource p

theorem isPathless_iff {n base : Node} {suffix : List Node}
    (hchildren : n.children = base :: suffix) (hbase : base.rule.isTypeBase = true)
    (hsuffix : suffix = [] ∨ ∃ c, suffix = [c] ∧ c.rule = .arraySuffix) :
    n.IsPathless ↔ base.rule = .tupleType ∨ suffix ≠ [] := by
  have hne : base.rule ≠ .arraySuffix := by
    intro h
    rw [h] at hbase
    exact nomatch hbase
  rcases hsuffix with rfl | ⟨c, rfl, hc⟩
  · simp [Node.IsPathless, hchildren, hne]
  · simp [Node.IsPathless, hchildren, hc]

variable {t : Tree} (ht : t.WellFormed)
include ht

theorem offers_eq_nil {n : Node} (hn : n ∈ t.nodes) (hm : n.rule.hasMeaning = false)
    (hleaf : n.rule.Layout (n.children.map Node.rule) → n.children.map Node.rule = []) :
    n.offers = [] := by
  rw [Node.offers_of_not_meaning hm]
  exact Node.referents_of_nil (List.map_eq_nil_iff.mp (hleaf (ht.layout hn)))

theorem referents_path {n : Node} (hn : n ∈ t.nodes) (hr : n.rule = .path) : n.referents = [] := by
  obtain ⟨dots, first, others, hchildren, hdots, hsegments⟩ := ht.path_children hn hr
  have hmem : ∀ c ∈ dots ++ first :: others, c ∈ t.nodes :=
    fun c hc => Tree.child_mem_nodes hn (by rw [hchildren]; exact hc)
  rw [Node.referents_of_passesAll (by rw [hr]; rfl), hchildren, List.flatMap_eq_nil_iff]
  intro c hc
  rcases List.mem_append.mp hc with hdot | hsegment
  · exact offers_eq_nil ht (hmem c hc) (by rw [hdots c hdot]; rfl) (by rw [hdots c hdot]; exact id)
  · rw [Node.offers_of_not_meaning (by rw [hsegments c hsegment]; rfl)]
    exact Node.referents_segment (hsegments c hsegment)

omit ht in
theorem hasMeaning_of_isTypeBase {r : Rule} (h : r.isTypeBase = true) : r.hasMeaning = false := by
  rcases Rule.isTypeBase_cases h with ⟨s, rfl⟩ | rfl | rfl | rfl
  · cases s <;> rfl
  all_goals rfl

theorem referents_ty {n base : Node} {suffix : List Node} (hn : n ∈ t.nodes) (hr : n.rule = .ty)
    (hchildren : n.children = base :: suffix) (hbase : base.rule.isTypeBase = true)
    (hsuffix : suffix = [] ∨ ∃ c, suffix = [c] ∧ c.rule = .arraySuffix) :
    n.referents = base.referents := by
  have hnil : suffix.flatMap Node.offers = [] := by
    rcases hsuffix with rfl | ⟨c, rfl, hc⟩
    · rfl
    · have hmem : c ∈ t.nodes := Tree.child_mem_nodes hn (by simp [hchildren])
      rw [List.flatMap_singleton]
      exact offers_eq_nil ht hmem (by rw [hc]; rfl) (by rw [hc]; exact id)
  rw [Node.referents_of_passesAll (by rw [hr]; rfl), hchildren, List.flatMap_cons, hnil,
    List.append_nil, Node.offers_of_not_meaning (hasMeaning_of_isTypeBase hbase)]

theorem referents_tupleType {n : Node} (hn : n ∈ t.nodes) (hr : n.rule = .tupleType) :
    n.referents = n.children := by
  refine Node.referents_eq_children (by rw [hr]; rfl) fun c hc => ?_
  rw [ht.tuple_children hn hr c hc]
  rfl

theorem isSourceName_of_rule {n : Node} (hn : n ∈ t.nodes)
    (h : isSegmentName n.rule = true) : IsSourceName (n.name t.source) := by
  generalize hr : n.rule = r at h
  cases r with
  | ident =>
      obtain ⟨c, c', htakes⟩ := ht.takes hn (by rw [hr]; rfl)
      rw [hr] at htakes
      exact .ident (takes_ident htakes)
  | kw k =>
      obtain ⟨c, c', htakes⟩ := ht.takes hn (by rw [hr]; rfl)
      rw [hr] at htakes
      rw [Node.name, takes_kw htakes]
      simp only [isSegmentName, Bool.or_eq_true, decide_eq_true_eq] at h
      rcases h with rfl | h
      · exact .self
      · obtain ⟨s, hs⟩ := Option.isSome_iff_exists.mp h
        rw [(Keyword.scalar?_eq_some_iff k s).mp hs]
        exact .scalar s
  | _ => exact absurd h Bool.false_ne_true

theorem typeOf_parts_yield (n : Node) (hn : n ∈ t.nodes) :
    (n.rule = .ty → t.Yields (IsTypeAt n) (typeOf t.source (fun _ inner => inner) n)) ∧
    (n.rule = .tupleType → t.Yields (fun hs => hs = n.children.map Node.handle)
      (visitAll t.source (fun _ inner => inner) n.children)) ∧
    (n.rule = .path → t.Yields Path.IsSource (pathOf t.source (fun _ inner => inner) n)) ∧
    (n.rule = .segment →
      t.Yields Segment.IsSource (segmentOf t.source (fun _ inner => inner) n)) := by
-- The induction is over the tree: a type asks for the paths below it, and a path for types.
  induction n using Node.induction with
  | h n ih =>
      have ihc {c : Node} (hc : c ∈ n.children) := ih c hc (Tree.child_mem_nodes hn hc)
      refine ⟨fun hr => ?_, fun hr => ?_, fun hr => ?_, fun hr => ?_⟩
      · obtain ⟨base, suffix, hchildren, hbase, hsuffix⟩ := ht.ty_children hn hr
        have hmem : base ∈ n.children := by simp [hchildren]
        have hpathless := isPathless_iff hchildren hbase hsuffix
        have hmemt := Tree.child_mem_nodes hn hmem
        have hreferents := referents_ty ht hn hr hchildren hbase hsuffix
        have hword {k : Keyword} (hk : base.rule = .kw k) : base.referents = [] := by
          have hlayout := ht.layout hmemt
          rw [hk] at hlayout
          exact Node.referents_of_nil (List.map_eq_nil_iff.mp hlayout)
        rcases Rule.isTypeBase_cases hbase with ⟨s, hbase⟩ | hbase | hbase | hbase
        · rw [typeOf_scalar _ _ hr hchildren hsuffix hbase]
          refine ⟨by rw [hreferents, hword hbase]; rfl, ?_, ?_⟩
          · rw [hpathless, hbase]
            cases suffix <;> simp [TypeRef.path?]
          · cases suffix <;> simp [TypeRef.path?, Path.IsSource.single (.scalar s)]
        · rw [typeOf_self _ _ hr hchildren hsuffix hbase]
          refine ⟨by rw [hreferents, hword hbase]; rfl, ?_, ?_⟩
          · rw [hpathless, hbase]
            cases suffix <;> simp [TypeRef.path?]
          · cases suffix <;> simp [TypeRef.path?, Path.IsSource.single .self]
        · rw [typeOf_path _ _ hr hchildren hsuffix hbase]
          refine ((ihc hmem).2.2.1 hbase).map fun p hp => ⟨?_, ?_, ?_⟩
          · rw [hreferents, referents_path ht hmemt hbase]
            rfl
          · rw [hpathless, hbase]
            cases suffix <;> simp [TypeRef.path?]
          · cases suffix <;> simp [TypeRef.path?, hp]
        · rw [typeOf_tuple _ _ hr hchildren hsuffix hbase]
          refine ((ihc hmem).2.1 hbase).map fun elements helements => ⟨?_, ?_, ?_⟩
          · rw [hreferents, referents_tupleType ht hmemt hbase, helements]
            refine (Node.entries_map fun c hc => ?_).symm
            rw [ht.tuple_children hmemt hbase c hc]
            rfl
          · rw [hpathless, hbase]
            simp [TypeRef.path?]
          · simp [TypeRef.path?]
      · have hty := ht.tuple_children hn hr
        have hall : ∀ cs, (∀ c ∈ cs, c ∈ n.children) →
            t.Yields (fun hs => hs = cs.map Node.handle)
              (visitAll t.source (fun _ inner => inner) cs) := by
          intro cs hcs
          induction cs with
          | nil => exact rfl
          | cons c cs ihcs =>
              rw [List.forall_mem_cons] at hcs
              rw [visitAll]
              refine ((ihc hcs.1).1 (hty c hcs.1)).bind fun _ _ _ => (ihcs hcs.2).bind fun hs _ hhs => ?_
              exact congrArg (c.handle :: ·) hhs
        exact hall n.children fun _ hc => hc
      · obtain ⟨dots, first, others, hchildren, hdots, hsegments⟩ := ht.path_children hn hr
        have hmem : ∀ c ∈ first :: others, c ∈ n.children := by
          intro c hc
          rw [hchildren]
          exact List.mem_append_right dots hc
        have hnamed : ∀ cs, (∀ c ∈ cs, c ∈ first :: others) →
            t.Yields (fun ss => ss.length = cs.length ∧ ∀ s ∈ ss, Segment.IsSource s)
              (segmentsOf t.source (fun _ inner => inner) n cs) := by
          intro cs hcs
          induction cs with
          | nil => exact ⟨rfl, nofun⟩
          | cons c cs ihcs =>
              rw [List.forall_mem_cons] at hcs
              have hc : c.rule = .segment := hsegments c hcs.1
              rw [segmentsOf_segment _ _ hc]
              refine ((ihc (hmem c hcs.1)).2.2.2 hc).bind fun s _ hs => ?_
              refine (ihcs hcs.2).map fun ss hss => ?_
              exact ⟨congrArg (· + 1) hss.1, List.forall_mem_cons.mpr ⟨hs, hss.2⟩⟩
        have hmarked : ∀ cs, (∀ c ∈ cs, c.rule = .dot) →
            t.Yields Path.IsSource
              (segmentsOf t.source (fun _ inner => inner) n (cs ++ first :: others)) := by
          intro cs hcs
          induction cs with
          | nil =>
              refine (hnamed (first :: others) fun _ hc => hc).mono fun ss hss => ?_
              cases ss with
              | nil => exact nomatch hss.1
              | cons s ss => exact .mk 0 s ss hss.2
          | cons c cs ihcs =>
              rw [List.forall_mem_cons] at hcs
              rw [List.cons_append, segmentsOf_dot _ _ hcs.1]
              refine (ihcs hcs.2).map fun p hp => ?_
              cases hp with
              | mk markers s ss hss => exact .mk (markers + 1) s ss hss
        rw [pathOf_eq _ _ hr, hchildren]
        exact hmarked dots hdots
      · obtain ⟨name, arguments, hchildren, hname, hty⟩ := ht.segment_children hn hr
        have hmem : name ∈ n.children := by simp [hchildren]
        have hid := isSourceName_of_rule ht (Tree.child_mem_nodes hn hmem) hname
        cases arguments with
        | nil =>
            rw [segmentOf_plain _ _ hchildren hname]
            exact .plain hid
        | cons arg others =>
            rw [segmentOf_argument _ _ hchildren hname]
            have hmem : arg ∈ n.children := by simp [hchildren]
            refine ((ihc hmem).1 (hty arg List.mem_cons_self)).bind fun ref _ href => ?_
            cases hpath : ref.path? with
            | none =>
                exact ⟨n, hn, .argument ⟨hr, by simp [hchildren], href.pathless.mp hpath⟩⟩
            | some p => exact .argument hid (href.path p hpath)

theorem pathOf_yields {n : Node} (hn : n ∈ t.nodes) (hr : n.rule = .path) :
    t.Yields Path.IsSource (pathOf t.source (fun _ inner => inner) n) :=
  (typeOf_parts_yield ht n hn).2.2.1 hr

theorem typeOf_yields {n : Node} (hn : n ∈ t.nodes) (hr : n.rule = .ty) :
    t.Yields (IsTypeAt n) (typeOf t.source (fun _ inner => inner) n) :=
  (typeOf_parts_yield ht n hn).1 hr

theorem segmentOf_ne_ok {n c : Node} (hn : n ∈ t.nodes) (h : n.BadArgument c) (s : Segment) :
    (segmentOf t.source (fun _ inner => inner) n : Except Error Segment) ≠ .ok s := by
  obtain ⟨hr, hget, hpathless⟩ := h
  obtain ⟨name, arguments, hchildren, hname, hty⟩ := ht.segment_children hn hr
  cases arguments with
  | nil => simp [hchildren] at hget
  | cons arg others =>
      have harg : arg = c := by simpa [hchildren] using hget
      subst harg
      have hmem : arg ∈ t.nodes := Tree.child_mem_nodes hn (by simp [hchildren])
      have hyields := typeOf_yields ht hmem (hty arg List.mem_cons_self)
      rw [segmentOf_argument _ _ hchildren hname]
      cases htype : (typeOf t.source (fun _ inner => inner) arg : Except Error TypeRef) with
      | error e => exact nofun
      | ok ref =>
          rw [htype] at hyields
          have hnone : ref.path? = none := hyields.pathless.mpr hpathless
          simp only [bind, Except.bind, hnone]
          exact nofun

theorem pathOf_ne_ok {n s c : Node} (hn : n ∈ t.nodes) (hr : n.rule = .path)
    (hs : s ∈ n.children) (h : s.BadArgument c) (p : Path) :
    t.path n ≠ .ok p := by
  have hall : ∀ cs, s ∈ cs → ∀ p,
      (segmentsOf t.source (fun _ inner => inner) n cs : Except Error Path) ≠ .ok p := by
    intro cs hmem
    induction cs with
    | nil => exact absurd hmem List.not_mem_nil
    | cons d cs ih =>
        intro p
        rw [segmentsOf]
        rcases List.mem_cons.mp hmem with rfl | hmem
        · rw [h.1]
          have hne := segmentOf_ne_ok ht (Tree.child_mem_nodes hn hs) h
          cases hsegment : (segmentOf t.source (fun _ inner => inner) s :
              Except Error Segment) with
          | error e => rintro ⟨⟩
          | ok first => exact absurd hsegment (hne first)
        · cases hrest : (segmentsOf t.source (fun _ inner => inner) n cs :
              Except Error Path) with
          | ok q => exact absurd hrest (ih hmem q)
          | error e =>
              split
              · rintro ⟨⟩
              · cases (segmentOf t.source (fun _ inner => inner) d :
                  Except Error Segment) <;> rintro ⟨⟩
              · rintro ⟨⟩
  rw [Tree.path, pathOf_eq _ _ hr]
  exact hall n.children hs p

end XiFront.Lowering

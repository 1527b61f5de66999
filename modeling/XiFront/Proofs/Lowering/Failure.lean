import XiFront.Proofs.Lowering.Meaning

namespace XiFront

namespace Rule

theorem cases_of_admits : ∀ r ∈ all, (admits r segment = true → r = path) ∧
    (admits r path = true → r = useStmt ∨ r = impls ∨ r = ty ∨ r = nonArrayType) ∧
    (admits r impls = true → r = structDecl ∨ r = interfaceDecl) := by
  decide +kernel

theorem eq_path_of_admits {r : Rule} (h : admits r segment = true) : r = path :=
  (cases_of_admits r r.mem_all).1 h

theorem cases_of_admits_path {r : Rule} (h : admits r path = true) :
    r = useStmt ∨ r = impls ∨ r = ty ∨ r = nonArrayType :=
  (cases_of_admits r r.mem_all).2.1 h

theorem cases_of_admits_impls {r : Rule} (h : admits r impls = true) :
    r = structDecl ∨ r = interfaceDecl :=
  (cases_of_admits r r.mem_all).2.2 h

end Rule

namespace Lowering

variable {t : Tree} (ht : t.WellFormed)
include ht

theorem meaning_ne_ok_of_badLiteral {n : Node} (hn : n ∈ t.nodes)
    (h : n.BadLiteral t.source) (a : Ast) : t.meaning n ≠ .ok a := by
  have hfails {x : Except Error Literal} (hcase : LiteralCase t.source n x)
      (hexpr : n.rule.isExpr = true) (hx : expr n t.source = .literal <$> x) :
      t.meaning n ≠ .ok a := by
    obtain ⟨hgood, -⟩ | ⟨-, text, rfl⟩ := hcase
    · exact absurd h hgood
    · rw [Tree.meaning, lower_of_isExpr t.source hexpr, hx]
      rintro ⟨⟩
  have hrule : n.rule = .intLiteral ∨ n.rule = .charLiteral ∨ n.rule = .strLiteral := by
    rcases h with ⟨hr, -⟩ | ⟨hr, -, -, -, -⟩ | ⟨hr, -, -⟩
    · exact .inl hr
    · exact .inr hr
    · exact .inr (.inl hr)
  rcases hrule with hr | hr | hr
  · exact hfails (intLiteral_settles t.source hr) (by rw [hr]; rfl) (by rw [expr, hr])
  · exact hfails (charLiteral_settles ht hn hr) (by rw [hr]; rfl) (by rw [expr, hr])
  · exact hfails (strLiteral_settles ht hn hr) (by rw [hr]; rfl) (by rw [expr, hr])

omit ht in
theorem meaning_ne_ok_of_badPattern {n c : Node} (h : n.BadPattern c) (a : Ast) :
    t.meaning n ≠ .ok a := by
  obtain ⟨hr, hget, hc⟩ := h
  have hname : patternName n t.source c = .error (.unsupported c.position "tuple pattern") := by
    rw [patternName, hc]
    rfl
  have hlet : letStmt n t.source = .error (.unsupported c.position "tuple pattern") := by
    rw [letStmt, Node.child_eq hget]
    simp only [bind, Except.bind, hname]
  rw [Tree.meaning, lower, hr]
  simp only [hlet]
  rintro ⟨⟩

omit ht in
theorem implPaths_ne_ok {n q p : Node} (parts : DeclParts n) (hq : q ∈ n.children)
    (hqr : q.rule = .impls) (hp : p ∈ q.children) (hfails : ∀ path, t.path p ≠ .ok path) :
    ∃ e, (implPaths t.source (fun _ inner => inner) n : Except Error (List Path)) =
      .error e := by
  have hall : ∀ ps : List Node, p ∈ ps → ∃ e,
      (ps.mapM (pathOf t.source fun _ inner => inner) : Except Error (List Path)) = .error e := by
    intro ps hmem
    induction ps with
    | nil => exact nomatch hmem
    | cons d ps ih =>
        rw [List.mapM_cons]
        cases hd : (pathOf t.source (fun _ inner => inner) d : Except Error Path) with
        | error e => exact ⟨e, rfl⟩
        | ok path =>
            rcases List.mem_cons.mp hmem with rfl | hmem
            · exact absurd hd (hfails path)
            · obtain ⟨e, he⟩ := ih hmem
              rw [he]
              exact ⟨e, rfl⟩
  have hmem : q ∈ parts.impls := by
    apply Option.mem_toList.mp
    rw [← parts.filter_impls]
    exact List.mem_filter.mpr ⟨hq, decide_eq_true hqr⟩
  rw [implPaths, parts.first?_impls, Option.mem_def.mp hmem]
  exact hall q.children hp

theorem exists_meaning_ne_ok_of_path {p : Node} (hp : p ∈ t.nodes) (hr : p.rule = .path)
    (hfails : ∀ path, t.path p ≠ .ok path) :
    ∃ n ∈ t.nodes, n.rule.hasMeaning = true ∧ ∀ a, t.meaning n ≠ .ok a := by
  obtain ⟨e, he⟩ : ∃ e, t.path p = .error e := by
    cases hpath : t.path p with
    | error e => exact ⟨e, rfl⟩
    | ok path => exact absurd hpath (hfails path)
  obtain ⟨q, hq, hmem, hadmits⟩ := ht.exists_parent hp (by rw [hr]; rintro ⟨⟩)
  rw [hr] at hadmits
  have hlayout := ht.layout hq
-- A path stands in a use, behind the colon of a declaration, or in a type.
  rcases Rule.cases_of_admits_path hadmits with hqr | hqr | hqr | hqr
  · rw [hqr] at hlayout
    obtain ⟨names, hrules, hnames⟩ := hlayout
    obtain ⟨c, others, hchildren, hc, rfl⟩ := List.map_eq_cons_iff.mp hrules
    have hpc : p = c := by
      rw [hchildren] at hmem
      refine (List.mem_cons.mp hmem).resolve_right fun hother => ?_
      have hrule : Rule.path ∈ others.map Node.rule := hr ▸ List.mem_map_of_mem hother
      rcases hnames with hnames | hnames <;> rw [hnames] at hrule <;> simp at hrule
    subst hpc
    refine ⟨q, hq, by rw [hqr]; rfl, fun a => ?_⟩
    rw [Tree.meaning, lower, hqr]
    simp only [useDecl,
      Node.childOf_eq_ok_iff.mpr ⟨show q.children[0]? = some p by rw [hchildren]; rfl, hr⟩]
    have he : (pathOf t.source (fun _ inner => inner) p : Except Error Path) = .error e := he
    simp only [ofExcept_ok, bind, Except.bind, pure, Except.pure, he]
    rintro ⟨⟩
  · obtain ⟨d, hd, hmemd, hadmitsd⟩ := ht.exists_parent hq (by rw [hqr]; rintro ⟨⟩)
    rw [hqr] at hadmitsd
    have hdr := Rule.cases_of_admits_impls hadmitsd
    obtain ⟨parts⟩ := decl_parts ht hd (hdr.imp_right .inl)
    obtain ⟨e, he⟩ := implPaths_ne_ok parts hmemd hqr hmem hfails
    refine ⟨d, hd, by rcases hdr with hdr | hdr <;> rw [hdr] <;> rfl, fun a => ?_⟩
    rcases hdr with hdr | hdr
    · rw [Tree.meaning, lower, hdr]
      simp only [structDecl_eq parts, he]
      rintro ⟨⟩
    · rw [Tree.meaning, lower, hdr]
      simp only [interfaceDecl_eq parts, he]
      rintro ⟨⟩
  · obtain ⟨base, suffix, hchildren, hbase, hsuffix⟩ := ht.ty_children hq hqr
    have hpb : p = base := by
      rw [hchildren] at hmem
      refine (List.mem_cons.mp hmem).resolve_right fun hother => ?_
      rcases hsuffix with rfl | ⟨c, rfl, hc⟩
      · exact absurd hother List.not_mem_nil
      · cases List.mem_singleton.mp hother
        cases hr.symm.trans hc
    subst hpb
    refine ⟨q, hq, by rw [hqr]; rfl, fun a => ?_⟩
    have he : (pathOf t.source (fun _ inner => inner) p : Except Error Path) = .error e := he
    rw [Inquiry.meaning_ty hqr, typeOf_path _ _ hqr hchildren hsuffix hr, he]
    rintro ⟨⟩
  · rw [hqr] at hlayout
    exact hlayout.elim

theorem exists_meaning_ne_ok {n : Node} (hn : n ∈ t.nodes) {e : Error}
    (h : n.Offends t.source e) :
    ∃ m ∈ t.nodes, m.rule.hasMeaning = true ∧ ∀ a, t.meaning m ≠ .ok a := by
  cases h with
  | literal hbad text =>
      refine ⟨n, hn, ?_, meaning_ne_ok_of_badLiteral ht hn hbad⟩
      rcases hbad with ⟨hr, -⟩ | ⟨hr | hr, -, -, -, -⟩ | ⟨hr, -, -⟩ <;> rw [hr] <;> rfl
  | pattern hbad => exact ⟨n, hn, by rw [hbad.1]; rfl, meaning_ne_ok_of_badPattern hbad⟩
  | argument hbad =>
      obtain ⟨p, hp, hmem, hadmits⟩ := ht.exists_parent hn (by rw [hbad.1]; exact nofun)
      rw [hbad.1] at hadmits
      have hpath := Rule.eq_path_of_admits hadmits
      exact exists_meaning_ne_ok_of_path ht hp hpath (pathOf_ne_ok ht hp hpath hmem hbad)

end Lowering

theorem Tree.countMeanings_cases (t : Tree) (ns : List Node) :
    (∃ count, t.countMeanings ns = .ok count ∧
      ∀ n ∈ ns, n.rule.hasMeaning = true → ∃ a, t.meaning n = .ok a) ∨
    ∃ e, t.countMeanings ns = .error e ∧
      ∃ before n later, ns = before ++ n :: later ∧ n.rule.hasMeaning = true ∧
        t.meaning n = .error e ∧
        ∀ m ∈ before, m.rule.hasMeaning = true → ∃ a, t.meaning m = .ok a := by
  induction ns with
  | nil => exact .inl ⟨0, rfl, nofun⟩
  | cons n ns ih =>
      by_cases hm : n.rule.hasMeaning = true
      · cases hn : t.meaning n with
        | error e =>
            refine .inr ⟨e, ?_, [], n, ns, rfl, hm, hn, nofun⟩
            rw [Tree.countMeanings, if_pos hm, hn]
            rfl
        | ok a =>
            rcases ih with ⟨count, hcount, hall⟩ | ⟨e, he, before, m, later, rfl, hmm, hfails, hall⟩
            · refine .inl ⟨count + 1, ?_, ?_⟩
              · rw [Tree.countMeanings, if_pos hm, hn, hcount]
                rfl
              · rw [List.forall_mem_cons]
                exact ⟨fun _ => ⟨a, hn⟩, hall⟩
            · refine .inr ⟨e, ?_, n :: before, m, later, rfl, hmm, hfails, ?_⟩
              · rw [Tree.countMeanings, if_pos hm, hn, he]
                rfl
              · rw [List.forall_mem_cons]
                exact ⟨fun _ => ⟨a, hn⟩, hall⟩
      · rcases ih with ⟨count, hcount, hall⟩ | ⟨e, he, before, m, later, rfl, hmm, hfails, hall⟩
        · refine .inl ⟨count, ?_, ?_⟩
          · rw [Tree.countMeanings, if_neg hm, hcount]
          · rw [List.forall_mem_cons]
            exact ⟨fun h => absurd h hm, hall⟩
        · refine .inr ⟨e, ?_, n :: before, m, later, rfl, hmm, hfails, ?_⟩
          · rw [Tree.countMeanings, if_neg hm, he]
          · rw [List.forall_mem_cons]
            exact ⟨fun h => absurd h hm, hall⟩

theorem Tree.countMeanings_eq_countP {t : Tree} {ns : List Node} {count : Nat}
    (h : t.countMeanings ns = .ok count) : count = ns.countP (·.rule.hasMeaning) := by
  induction ns generalizing count with
  | nil => exact (Except.ok.inj h).symm
  | cons n ns ih =>
      rw [Tree.countMeanings] at h
      by_cases hm : n.rule.hasMeaning = true
      · rw [if_pos hm] at h
        cases hn : t.meaning n with
        | error e =>
            rw [hn] at h
            cases h
        | ok a =>
            cases hns : t.countMeanings ns with
            | error e =>
                rw [hn, hns] at h
                cases h
            | ok others =>
                rw [hn, hns] at h
                cases h
                rw [List.countP_cons_of_pos (p := fun n : Node => n.rule.hasMeaning) hm, ← ih hns]
      · rw [if_neg hm] at h
        rw [List.countP_cons_of_neg (p := fun n : Node => n.rule.hasMeaning) hm]
        exact ih h

theorem Tree.WellFormed.countMeanings_yields {t : Tree} (ht : t.WellFormed) :
    t.Yields (fun _ => ∀ n ∈ t.nodes, ∀ e, ¬n.Offends t.source e) (t.countMeanings t.nodes) := by
  rcases t.countMeanings_cases t.nodes with
    ⟨count, hcount, hall⟩ | ⟨e, he, before, n, later, hns, hm, hfails, -⟩
  · rw [hcount]
    intro n hn e hoffends
    obtain ⟨m, hmem, hm, hfails⟩ := Lowering.exists_meaning_ne_ok ht hn hoffends
    obtain ⟨a, ha⟩ := hall m hmem hm
    exact hfails a ha
  · have hn : n ∈ t.nodes := by simp [hns]
    have hyields := Lowering.meaning_yields ht hn hm
    rw [hfails] at hyields
    rw [he]
    exact hyields

namespace Session

/-- Looking at all nodes succeeds just where there is no literal that stands for nothing, no `let`
with a tuple pattern, and no segment whose first type argument is a tuple or an array; and it fails
with the error of such a construct, at the place of the literal, the pattern or the argument. -/
theorem all_succeeds_iff {source : Source} {t : Tree} (h : Tree.parse source = .ok t)
    (ops : List Operation) :
    let answer := (((start t).run ops).2.step .all).1
    ((∃ count, answer = .count count) ↔
      ∀ n ∈ t.nodes, ¬n.BadLiteral source ∧ ∀ c, ¬n.BadPattern c ∧ ¬n.BadArgument c) ∧
    ((∃ count, answer = .count count) ∨
      ∃ e, answer = .failed e ∧ ∃ n ∈ t.nodes,
        (n.BadLiteral source ∧ ∃ text, e = .malformed n.position text) ∨
        ∃ c ∈ t.nodes, ∃ construct, (n.BadPattern c ∨ n.BadArgument c) ∧
          e = .unsupported c.position construct) := by
  obtain ⟨ht, rfl⟩ := Tree.wellFormed_of_parse h
  have hyields := ht.countMeanings_yields
  simp only [step_all_of_run ht ops]
  cases hcount : t.countMeanings t.nodes with
  | ok count =>
      rw [hcount] at hyields
      refine ⟨⟨fun _ n hn => ?_, fun _ => ⟨count, rfl⟩⟩, .inl ⟨count, rfl⟩⟩
      refine ⟨fun hbad => hyields n hn _ (.literal hbad ""), fun c => ⟨fun hbad => ?_, fun hbad => ?_⟩⟩
      · exact hyields n hn _ (.pattern hbad)
      · exact hyields n hn _ (.argument hbad)
  | error e =>
      rw [hcount] at hyields
      obtain ⟨n, hn, hoffends⟩ := hyields
      refine ⟨⟨nofun, fun hgood => ?_⟩, .inr ⟨e, rfl, n, hn, ?_⟩⟩
      · cases hoffends with
        | literal hbad _ => exact absurd hbad (hgood n hn).1
        | @pattern c hbad => exact absurd hbad ((hgood n hn).2 c).1
        | @argument c hbad => exact absurd hbad ((hgood n hn).2 c).2
      · cases hoffends with
        | literal hbad text => exact .inl ⟨hbad, text, rfl⟩
        | @pattern c hbad =>
            have hc := Tree.child_mem_nodes hn (List.mem_of_getElem? hbad.2.1)
            exact .inr ⟨c, hc, _, .inl hbad, rfl⟩
        | @argument c hbad =>
            have hc := Tree.child_mem_nodes hn (List.mem_of_getElem? hbad.2.1)
            exact .inr ⟨c, hc, _, .inr hbad, rfl⟩

/-- A tuple as a type argument, looked at after the path that it stands in. -/
theorem all_succeeds_iff_tuple :
    ∃ t n c, Tree.parse "use m<(a,b)>;".toList = .ok t ∧ n ∈ t.nodes ∧ n.BadArgument c ∧
      ∃ e, (((start t).run [.path 12]).2.step .all).1 = .failed e := by
  have hfound : (Tree.parse "use m<(a,b)>;".toList).toOption.map (fun t =>
      decide (∃ n ∈ t.nodes, n.rule = .segment ∧
        n.children[1]?.any fun c => c.children.any (·.rule = .tupleType))) = some true := by
    decide +kernel
  obtain ⟨t, h, hfound⟩ := Tree.exists_parse_of_map hfound
  obtain ⟨n, hn, hr, hsome⟩ := of_decide_eq_true hfound
  obtain ⟨c, hc, htuple⟩ := (Option.any_eq_true _ _).mp hsome
  obtain ⟨base, hbase, hrule⟩ := List.any_eq_true.mp htuple
  have hbad : n.BadArgument c := ⟨hr, hc, .inl ⟨base, hbase, of_decide_eq_true hrule⟩⟩
  have hall := all_succeeds_iff h [.path 12]
  rcases hall.2 with hcount | ⟨e, he, -⟩
  · exact absurd hbad ((hall.1.mp hcount n hn).2 c).2
  · exact ⟨t, n, c, h, hn, hbad, e, he⟩

end Session

end XiFront

import XiFront.Proofs.Session.Reach

namespace XiFront

namespace Session

def Records (s : Session) (id : Nat) : Prop :=
  (s.known.get? id).isSome

theorem records_iff {s : Session} {id : Nat} : s.Records id ↔ id ∈ s.known.ids := by
  rw [Records, Option.isSome_iff_ne_none, ne_eq, Known.get?_eq_none_iff, not_not]

variable {t : Tree}

theorem step_meaning_fills (ht : t.WellFormed) {k : Known} (hk : k.Sound t) {n : Node}
    (hn : n ∈ t.nodes) :
    ∃ k', step ⟨t, k⟩ (.meaning n.id) = (.ofExcept .meaning (t.meaning n), ⟨t, k'⟩) ∧
      Known.Gains t (n :: n.eager) k k' ∧
      ∀ a, t.meaning n = .ok a → ∀ m ∈ n :: n.eager, m.id ∈ k'.ids := by
  obtain ⟨k', hrun, hgains⟩ := Inquiry.fills_meaning ht hn k hk
  refine ⟨k', ?_, hgains⟩
  have hnode : t.node? n.id = some n := ht.node?_eq_some_iff.mpr ⟨hn, rfl⟩
  simp only [step, withNode, hnode]
  exact ask_of_run hrun _

/-- However a session has been used, it does not record a node without the types that are looked
into along with it.  Looking into a node records just these and the node itself, if that succeeds;
if it fails, nothing changes but of these types.  What has been recorded stays. -/
theorem meaning_records_eager {source : Source} (h : Tree.parse source = .ok t)
    (ops : List Operation) :
    let s := ((start t).run ops).2
    (∀ n ∈ t.nodes, s.Records n.id → ∀ m ∈ n.eager, s.Records m.id) ∧
    ∀ n ∈ t.nodes,
      let after := s.step (.meaning n.id)
      ((∃ a, after.1 = .meaning a ∧
          ∀ id, after.2.Records id ↔ s.Records id ∨ ∃ m ∈ n :: n.eager, m.id = id) ∨
        ∃ e, after.1 = .failed e ∧ after.2.known.get? n.id = s.known.get? n.id ∧
          ∀ id, (∀ m ∈ n.eager, m.id ≠ id) → after.2.known.get? id = s.known.get? id) ∧
      ∀ id a, s.known.get? id = some a → after.2.known.get? id = some a := by
  obtain ⟨ht, -⟩ := Tree.wellFormed_of_parse h
  obtain ⟨k, hsession, hk⟩ := run_session ht ops
  simp only [hsession]
  refine ⟨fun n hn hrecords m hm => ?_, fun n hn => ?_⟩
  · exact records_iff.mpr (hk.closed n hn (records_iff.mp hrecords) m hm)
  · obtain ⟨k', hstep, hgains, hfilled⟩ := step_meaning_fills ht hk hn
    rw [hstep]
    refine ⟨?_, fun id a ha => hgains.grows.get?_eq ha⟩
    cases hmeaning : t.meaning n with
    | ok a =>
        refine .inl ⟨a, rfl, fun id => ?_⟩
        rw [records_iff, records_iff]
        constructor
        · intro hid
          obtain ⟨new, hnew, hof⟩ := hgains.added
          rw [Known.ids, hnew, List.map_append, List.mem_append] at hid
          rcases hid with hid | hid
          · obtain ⟨e, he, rfl⟩ := List.mem_map.mp hid
            exact .inr (hof e he)
          · exact .inl hid
        · rintro (hid | ⟨m, hm, rfl⟩)
          · exact hgains.grows.ids_subset hid
          · exact hfilled a hmeaning m hm
    | error e =>
        have hown : k'.get? n.id = none := by
          cases hget : k'.get? n.id with
          | none => rfl
          | some a => cases hmeaning.symm.trans (hgains.sound.meaning_eq ht hn hget)
        have hkeep : k'.get? n.id = k.get? n.id := by
          cases hget : k.get? n.id with
          | none => exact hown
          | some a => exact hgains.grows.get?_eq hget
        refine .inr ⟨e, rfl, hkeep, fun id hid => ?_⟩
        by_cases heq : n.id = id
        · rw [← heq]
          exact hkeep
        · exact hgains.get?_eq (List.forall_mem_cons.mpr ⟨heq, hid⟩)

/-- An element of a tuple that is recorded already: looking into the tuple records the other one. -/
theorem meaning_records_eager_tuple :
    ∃ t n, Tree.parse "use m<(a,b)>;".toList = .ok t ∧ n ∈ t.nodes ∧
      n.eager.map Node.id = [4, 8] ∧
      let s := ((start t).run [.meaning 4]).2
      s.known.ids = [4] ∧ ∀ id, (s.step (.meaning n.id)).2.Records id ↔ id ∈ [4, 8, n.id] := by
  have hfound : (Tree.parse "use m<(a,b)>;".toList).toOption.map (fun t =>
      decide (∃ n ∈ t.nodes, n.eager.map Node.id = [4, 8] ∧
        ((start t).run [.meaning 4]).2.known.ids = [4] ∧
        !((((start t).run [.meaning 4]).2.step (.meaning n.id)).1 matches .failed _))) =
          some true := by
    decide +kernel
  obtain ⟨t, h, hfound⟩ := Tree.exists_parse_of_map hfound
  obtain ⟨n, hn, heager, hids, hanswer⟩ := of_decide_eq_true hfound
  refine ⟨t, n, h, hn, heager, hids, fun id => ?_⟩
  obtain ⟨⟨a, -, hrecords⟩ | ⟨e, he, -⟩, -⟩ := (meaning_records_eager h [.meaning 4]).2 n hn
  · have hmem : (∃ m ∈ n :: n.eager, m.id = id) ↔ id ∈ (n :: n.eager).map Node.id :=
      List.mem_map.symm
    rw [hrecords, records_iff, hids, hmem, List.map_cons, heager]
    simp only [List.mem_cons, List.not_mem_nil, or_false]
    omega
  · rw [he] at hanswer
    exact nomatch hanswer

end Session

namespace Inquiry

variable {t : Tree}

theorem countMeanings_append (t : Tree) (ms ns : List Node) :
    countMeanings t (ms ++ ns) = (do
      let count ← countMeanings t ms
      (· + count) <$> countMeanings t ns) := by
  induction ms with
  | nil => simp [countMeanings]
  | cons m ms ih =>
      rw [List.cons_append, countMeanings, countMeanings, ih]
      split
      · simp [Nat.add_assoc]
      · rfl

theorem ids_of_countMeanings {ns : List Node} {k : Known}
    (h : ∀ m ∈ (ns.filter (·.rule.hasMeaning)).flatMap fun n => n :: n.eager, m.id ∈ k.ids)
    {n : Node} (hn : n ∈ ns) (hm : n.rule.hasMeaning = true) : n.id ∈ k.ids :=
  h n (List.mem_flatMap.mpr ⟨n, List.mem_filter.mpr ⟨hn, hm⟩, List.mem_cons_self⟩)

/-- What comes before the first node that fails is known afterwards. -/
theorem run_countMeanings_stops (ht : t.WellFormed) {before later : List Node} {n : Node}
    (hns : t.nodes = before ++ n :: later) (hm : n.rule.hasMeaning = true) {e : Error}
    (hfails : t.meaning n = .error e)
    (hbefore : ∀ m ∈ before, m.rule.hasMeaning = true → ∃ a, t.meaning m = .ok a)
    {k : Known} (hk : k.Sound t) :
    ∃ k', (countMeanings t t.nodes).run.run k = (.error e, k') ∧
      ∀ m ∈ before, m.rule.hasMeaning = true → m.id ∈ k'.ids := by
  have hin : ∀ m ∈ before, m ∈ t.nodes := fun m hmem => by simp [hns, hmem]
  obtain ⟨k₁, hrun, hgains, hfilled⟩ := fills_countMeanings ht hin k hk
  obtain ⟨k₂, hrun₂, hgains₂, -⟩ := fills_meaning ht (n := n) (by simp [hns]) k₁ hgains.sound
  rcases t.countMeanings_cases before with
    ⟨count, hcount, -⟩ | ⟨_, -, front, m, back, hsplit, hm', hbad, -⟩
  · rw [hfails] at hrun₂
    rw [hcount] at hrun
    refine ⟨k₂, ?_, fun m hmem hm' => ?_⟩
    · rw [hns, countMeanings_append, run_bind_ok hrun, countMeanings, if_pos hm, map_bind]
      exact run_bind_error hrun₂ _
    · exact hgains₂.grows.ids_subset (ids_of_countMeanings (hfilled count hcount) hmem hm')
  · obtain ⟨a, ha⟩ := hbefore m (by simp [hsplit]) hm'
    cases hbad.symm.trans ha

end Inquiry

namespace Session

variable {t : Tree}

theorem step_all_of_meanings (ht : t.WellFormed) {k : Known} (hk : k.Sound t)
    (hall : ∀ n ∈ t.nodes, n.rule.hasMeaning = true → ∃ a, t.meaning n = .ok a) :
    ∃ k', step ⟨t, k⟩ .all = (.count (t.nodes.countP (·.rule.hasMeaning)), ⟨t, k'⟩) ∧
      ∀ id, id ∈ k'.ids ↔ ∃ n ∈ t.nodes, n.id = id ∧ n.rule.hasMeaning = true := by
  obtain ⟨k', hrun, hgains, hfilled⟩ :=
    Inquiry.fills_countMeanings ht (fun n (hn : n ∈ t.nodes) => hn) k hk
  rcases t.countMeanings_cases t.nodes with
    ⟨count, hcount, -⟩ | ⟨e, -, before, n, later, hns, hm, hfails, -⟩
  · rw [hcount] at hrun
    rw [← Tree.countMeanings_eq_countP hcount]
    refine ⟨k', ask_of_run hrun .count, fun id => ⟨fun hid => ?_, ?_⟩⟩
    -- Only nodes that have a meaning are ever recorded.
    · obtain ⟨⟨_, a⟩, hmem, rfl⟩ := List.mem_map.mp hid
      obtain ⟨n, hn, hid, hmeaning⟩ := hgains.sound.meaning _ a hmem
      exact ⟨n, hn, hid, Tree.hasMeaning_of_meaning hmeaning⟩
    · rintro ⟨n, hn, rfl, hm⟩
      exact Inquiry.ids_of_countMeanings (hfilled count hcount) hn hm
  · obtain ⟨a, ha⟩ := hall n (by simp [hns]) hm
    exact nomatch hfails.symm.trans ha

/-- However a session has been used: if every node that should have a meaning does, looking at all
nodes counts them, and records just them; otherwise it fails as the first of them that fails does,
and has recorded those before it.  Looking at all nodes once more gives the same answer. -/
theorem all_records_meanings {source : Source} (h : Tree.parse source = .ok t)
    (ops : List Operation) :
    let s := ((start t).run ops).2
    let after := s.step .all
    ((∀ n ∈ t.nodes, n.rule.hasMeaning = true → ∃ a, (s.step (.meaning n.id)).1 = .meaning a) →
      after.1 = .count (t.nodes.countP (·.rule.hasMeaning)) ∧
      ∀ id, after.2.Records id ↔ ∃ n ∈ t.nodes, n.id = id ∧ n.rule.hasMeaning = true) ∧
    ((¬∀ n ∈ t.nodes, n.rule.hasMeaning = true → ∃ a, (s.step (.meaning n.id)).1 = .meaning a) →
      ∃ before n later e, t.root.preorder = before ++ n :: later ∧ n.rule.hasMeaning = true ∧
        (∀ m ∈ before, m.rule.hasMeaning = true → ∃ a, (s.step (.meaning m.id)).1 = .meaning a) ∧
        (s.step (.meaning n.id)).1 = .failed e ∧ after.1 = .failed e ∧
        ∀ m ∈ before, m.rule.hasMeaning = true → after.2.Records m.id) ∧
    (after.2.step .all).1 = after.1 := by
  obtain ⟨ht, -⟩ := Tree.wellFormed_of_parse h
  have hanswer {n : Node} (hn : n ∈ t.nodes) :
      (∃ a, (((start t).run ops).2.step (.meaning n.id)).1 = .meaning a) ↔
        ∃ a, t.meaning n = .ok a := by
    rw [step_meaning_of_run ht ops hn]
    cases t.meaning n <;> simp [Answer.ofExcept]
  have hfirst := step_all_of_run ht ops
  have hagain : ((((start t).run ops).2.step .all).2.step .all).1 =
      .ofExcept .count (t.countMeanings t.nodes) := by
    have hrun := step_all_of_run ht (ops ++ [.all])
    rwa [run_known_append] at hrun
  obtain ⟨k, hsession, hk⟩ := run_session ht ops
  refine ⟨fun hall => ?_, fun hsome => ?_, hagain.trans hfirst.symm⟩
  · obtain ⟨k', hstep, hids⟩ :=
      step_all_of_meanings ht hk fun n hn hm => (hanswer hn).mp (hall n hn hm)
    rw [hsession, hstep]
    exact ⟨rfl, fun id => records_iff.trans (hids id)⟩
  · rcases t.countMeanings_cases t.nodes with
      ⟨count, -, hall⟩ | ⟨e, -, before, n, later, hns, hm, hfails, hbefore⟩
    · exact absurd (fun n hn hm => (hanswer hn).mpr (hall n hn hm)) hsome
    · obtain ⟨k', hrun, hfilled⟩ :=
        Inquiry.run_countMeanings_stops ht hns hm hfails hbefore hk
      have hstep : step ⟨t, k⟩ .all = (.failed e, ⟨t, k'⟩) := ask_of_run hrun .count
      have hn : n ∈ t.nodes := by simp [hns]
      have hin : ∀ m ∈ before, m ∈ t.nodes := fun m hmem => by simp [hns, hmem]
      refine ⟨before, n, later, e, by rw [← Tree.nodes_eq_preorder, hns], hm, ?_, ?_, ?_, ?_⟩
      · exact fun m hmem hm => (hanswer (hin m hmem)).mpr (hbefore m hmem hm)
      · rw [step_meaning_of_run ht ops hn, hfails]
        rfl
      · rw [hsession, hstep]
      · intro m hmem hm
        rw [hsession, hstep]
        exact records_iff.mpr (hfilled m hmem hm)

/-- All nodes of a struct can be looked at, also after a question that fails; with a tuple as a type
argument looking at all nodes fails, now and again. -/
theorem all_records_meanings_tuple :
    (∃ t, Tree.parse "struct S{a:B<i32>}".toList = .ok t ∧
      let after := ((start t).run [.path 6, .meaning 3]).2.step .all
      after.1 = .count 8 ∧ (after.2.step .all).1 = .count 8 ∧
        ∀ id, after.2.Records id ↔ ∃ n ∈ t.nodes, n.id = id ∧ n.rule.hasMeaning = true) ∧
    ∃ t before n later e, Tree.parse "use m<(a,b)>;".toList = .ok t ∧
      t.root.preorder = before ++ n :: later ∧
      let after := ((start t).run [.path 12]).2.step .all
      after.1 = .failed e ∧ (after.2.step .all).1 = .failed e ∧
        ∀ m ∈ before, m.rule.hasMeaning = true → after.2.Records m.id := by
  have hcounts : (Tree.parse "struct S{a:B<i32>}".toList).toOption.map (fun t =>
      (decide (∀ n ∈ t.nodes, n.rule.hasMeaning = true → (t.meaning n).toBool = true),
        t.nodes.countP (·.rule.hasMeaning))) = some (true, 8) := by
    decide +kernel
  have hfound : (Tree.parse "use m<(a,b)>;".toList).toOption.map (fun t =>
      decide (∃ n ∈ t.nodes, n.rule = .useStmt ∧
        (((start t).run [.path 12]).2.step (.meaning n.id)).1 matches .failed _)) = some true := by
    decide +kernel
  constructor
  · obtain ⟨t, h, hcount⟩ := Tree.exists_parse_of_map hcounts
    obtain ⟨hmeanings, hcount⟩ := Prod.mk.inj hcount
    obtain ⟨hall, -, hagain⟩ := all_records_meanings h [.path 6, .meaning 3]
    obtain ⟨ht, -⟩ := Tree.wellFormed_of_parse h
    obtain ⟨hafter, hrecords⟩ := hall fun n hn hm => by
      obtain ⟨a, ha⟩ := exists_eq_ok (of_decide_eq_true hmeanings n hn hm)
      exact ⟨a, (step_meaning_eq_iff ht _ hn).mpr ha⟩
    rw [hcount] at hafter
    exact ⟨t, h, hafter, hagain.trans hafter, hrecords⟩
  · obtain ⟨t, h, hfails⟩ := Tree.exists_parse_of_map hfound
    obtain ⟨n, hn, hr, hfails⟩ := of_decide_eq_true hfails
    obtain ⟨-, hstops, hagain⟩ := all_records_meanings h [.path 12]
    obtain ⟨before, n', later, e, hsplit, -, -, -, hafter, hbefore⟩ := hstops fun hall => by
      obtain ⟨a, ha⟩ := hall n hn (by rw [hr]; rfl)
      rw [ha] at hfails
      exact nomatch hfails
    exact ⟨t, before, n', later, e, h, hsplit, hafter, hagain.trans hafter, hbefore⟩

end Session

end XiFront

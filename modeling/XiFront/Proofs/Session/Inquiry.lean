import XiFront.Proofs.Lowering.Type
import XiFront.Proofs.Tree.Eager
import XiFront.Session

/-!
Questions and what is known.  Sound knowledge records what nodes mean when they are looked at afresh,
each together with the types that are looked into along with it; whatever sound knowledge a question
starts from, it gets the answer of the pure lowering and leaves sound knowledge, to which it has
added just the nodes that it looks into.
-/

namespace XiFront

namespace Known

/-- Each entry is what a node means, no node has two, and a node is not there without the types that
are looked into along with it. -/
structure Sound (t : Tree) (k : Known) : Prop where
  meaning : ∀ id a, (id, a) ∈ k.entries → ∃ n ∈ t.nodes, n.id = id ∧ t.meaning n = .ok a
  nodup : k.ids.Nodup
  closed : ∀ n ∈ t.nodes, n.id ∈ k.ids → ∀ m ∈ n.eager, m.id ∈ k.ids

theorem Sound.empty (t : Tree) : Known.empty.Sound t :=
  ⟨nofun, .nil, nofun⟩

theorem get?_eq_none_iff {k : Known} {id : Nat} : k.get? id = none ↔ id ∉ k.ids := by
  rw [get?, List.lookup_eq_none_iff, ids, List.mem_map]
  constructor
  · rintro h ⟨e, he, rfl⟩
    exact absurd (h e he) (by simp)
  · intro h e he
    exact bne_iff_ne.mpr fun hid => h ⟨e, he, hid.symm⟩

theorem mem_of_get? {k : Known} {id : Nat} {a : Ast} (h : k.get? id = some a) :
    (id, a) ∈ k.entries := by
  obtain ⟨before, after, hentries, -⟩ := List.lookup_eq_some_iff.mp h
  rw [hentries]
  exact List.mem_append_right before List.mem_cons_self

theorem Sound.get?_iff {t : Tree} {k : Known} (h : k.Sound t) {id : Nat} {a : Ast} :
    k.get? id = some a ↔ (id, a) ∈ k.entries := by
  refine ⟨mem_of_get?, fun hmem => ?_⟩
  cases hget : k.get? id with
  | none => exact absurd (List.mem_map.mpr ⟨(id, a), hmem, rfl⟩) (get?_eq_none_iff.mp hget)
  | some b =>
      have hsame := List.inj_on_of_nodup_map h.nodup (mem_of_get? hget) hmem rfl
      rw [(Prod.mk.inj hsame).2]

theorem Sound.meaning_eq {t : Tree} {k : Known} (h : k.Sound t) (ht : t.WellFormed) {n : Node}
    (hn : n ∈ t.nodes) {a : Ast} (hget : k.get? n.id = some a) : t.meaning n = .ok a := by
  obtain ⟨m, hm, hid, hmeaning⟩ := h.meaning n.id a (mem_of_get? hget)
  cases ht.eq_of_id hm hn hid
  exact hmeaning

/-- From one state of knowledge to a later one: nothing is taken away. -/
structure Grows (t : Tree) (k k' : Known) : Prop where
  sound : k'.Sound t
  older : k.entries <:+ k'.entries

namespace Grows

variable {t : Tree} {k k₁ k₂ : Known}

theorem refl (h : k.Sound t) : Grows t k k :=
  ⟨h, List.suffix_refl _⟩

theorem trans (h : Grows t k k₁) (h' : Grows t k₁ k₂) : Grows t k k₂ :=
  ⟨h'.sound, h.older.trans h'.older⟩

theorem ids_subset (h : Grows t k k₁) : k.ids ⊆ k₁.ids :=
  List.map_subset _ h.older.subset

theorem get?_eq (h : Grows t k k₁) {id : Nat} {a : Ast} (ha : k.get? id = some a) :
    k₁.get? id = some a :=
  h.sound.get?_iff.mpr (h.older.subset (mem_of_get? ha))

end Grows

/-- From one state of knowledge to a later one: entries for some of the nodes are put in front. -/
structure Gains (t : Tree) (nodes : List Node) (k k' : Known) : Prop where
  sound : k'.Sound t
  added : ∃ new, k'.entries = new ++ k.entries ∧ ∀ e ∈ new, ∃ n ∈ nodes, n.id = e.1

namespace Gains

variable {t : Tree} {ns ns' : List Node} {k k₁ k₂ : Known}

theorem refl (h : k.Sound t) : Gains t ns k k :=
  ⟨h, [], rfl, nofun⟩

theorem grows (h : Gains t ns k k₁) : Grows t k k₁ := by
  obtain ⟨new, hnew, -⟩ := h.added
  exact ⟨h.sound, new, hnew.symm⟩

theorem trans (h : Gains t ns k k₁) (h' : Gains t ns k₁ k₂) : Gains t ns k k₂ := by
  obtain ⟨new, hnew, hof⟩ := h.added
  obtain ⟨new', hnew', hof'⟩ := h'.added
  refine ⟨h'.sound, new' ++ new, by rw [hnew', hnew, List.append_assoc], fun e he => ?_⟩
  rcases List.mem_append.mp he with he | he
  · exact hof' e he
  · exact hof e he

theorem mono (h : Gains t ns k k₁) (hsub : ns ⊆ ns') : Gains t ns' k k₁ := by
  obtain ⟨new, hnew, hof⟩ := h.added
  refine ⟨h.sound, new, hnew, fun e he => ?_⟩
  obtain ⟨n, hn, hid⟩ := hof e he
  exact ⟨n, hsub hn, hid⟩

theorem get?_eq (h : Gains t ns k k₁) {id : Nat} (hid : ∀ n ∈ ns, n.id ≠ id) :
    k₁.get? id = k.get? id := by
  obtain ⟨new, hnew, hof⟩ := h.added
  have hnone : new.lookup id = none := by
    rw [List.lookup_eq_none_iff]
    intro e he
    obtain ⟨n, hn, hne⟩ := hof e he
    exact bne_iff_ne.mpr fun heq => hid n hn (hne.trans heq.symm)
  rw [get?, hnew, List.lookup_append, hnone, Option.none_or, get?]

theorem add {n : Node} {a : Ast} (h : Gains t n.eager k k₁) (ht : t.WellFormed) (hn : n ∈ t.nodes)
    (heager : ∀ m ∈ n.eager, m.id ∈ k₁.ids) (hnew : k.get? n.id = none)
    (ha : t.meaning n = .ok a) : Gains t (n :: n.eager) k (k₁.add n.id a) := by
  obtain ⟨new, hentries, hof⟩ := h.added
  have hfresh : n.id ∉ k₁.ids := by
    refine get?_eq_none_iff.mp ((h.get?_eq fun m hm => ?_).trans hnew)
    exact Nat.ne_of_lt (ht.of_mem_eager hn hm).2
  refine ⟨⟨fun id b hmem => ?_, List.nodup_cons.mpr ⟨hfresh, h.sound.nodup⟩, ?_⟩,
    (n.id, a) :: new, ?_, ?_⟩
  · rcases List.mem_cons.mp hmem with heq | hmem
    · cases heq
      exact ⟨n, hn, rfl, ha⟩
    · exact h.sound.meaning id b hmem
  · intro m hm hmem c hc
    rcases List.mem_cons.mp hmem with hid | hmem
    · cases ht.eq_of_id hm hn hid
      exact List.mem_cons_of_mem n.id (heager c hc)
    · exact List.mem_cons_of_mem n.id (h.sound.closed m hm hmem c hc)
  · rw [Known.add, hentries, List.cons_append]
  · intro e he
    rcases List.mem_cons.mp he with rfl | he
    · exact ⟨n, List.mem_cons_self, rfl⟩
    · obtain ⟨m, hm, hid⟩ := hof e he
      exact ⟨m, List.mem_cons_of_mem n hm, hid⟩

end Gains

end Known

namespace Inquiry

theorem run_bind_ok {q : Inquiry α} {k k₁ : Known} {a : α} (h : q.run.run k = (.ok a, k₁))
    (f : α → Inquiry β) : (q >>= f).run.run k = (f a).run.run k₁ := by
  rw [ExceptT.run_bind, StateT.run_bind, h]
  rfl

theorem run_bind_error {q : Inquiry α} {k k₁ : Known} {e : Error}
    (h : q.run.run k = (.error e, k₁)) (f : α → Inquiry β) :
    (q >>= f).run.run k = (.error e, k₁) := by
  rw [ExceptT.run_bind, StateT.run_bind, h]
  rfl

/-- Whatever is known, the question gets the answer `x`, and adds only sound knowledge. -/
def Answers (t : Tree) (q : Inquiry α) (x : Except Error α) : Prop :=
  ∀ k, k.Sound t → ∃ k', q.run.run k = (x, k') ∧ Known.Grows t k k'

namespace Answers

variable {t : Tree}

theorem pure (a : α) : Answers t (Pure.pure a) (.ok a) :=
  fun k hk => ⟨k, rfl, .refl hk⟩

theorem throw (e : Error) : Answers t (throw e : Inquiry α) (.error e) :=
  fun k hk => ⟨k, rfl, .refl hk⟩

theorem bind {q : Inquiry α} {x : Except Error α} {f : α → Inquiry β}
    {g : α → Except Error β} (hq : Answers t q x)
    (hf : ∀ a, x = .ok a → Answers t (f a) (g a)) : Answers t (q >>= f) (x >>= g) := by
  intro k hk
  obtain ⟨k₁, hrun, hgrows⟩ := hq k hk
  cases x with
  | error e => exact ⟨k₁, run_bind_error hrun f, hgrows⟩
  | ok a =>
      obtain ⟨k₂, hrun₂, hgrows₂⟩ := hf a rfl k₁ hgrows.sound
      exact ⟨k₂, (run_bind_ok hrun f).trans hrun₂, hgrows.trans hgrows₂⟩

theorem map {q : Inquiry α} {x : Except Error α} (hq : Answers t q x) (f : α → β) :
    Answers t (f <$> q) (f <$> x) := by
  have h := hq.bind fun a _ => Answers.pure (f a)
  rw [bind_pure_comp] at h
  cases x <;> exact h

end Answers

/-- Whatever is known, the question gets the answer `x`; it adds only some of the nodes, and if it
succeeds, all of them are known. -/
def Fills (t : Tree) (ns : List Node) (q : Inquiry α) (x : Except Error α) : Prop :=
  ∀ k, k.Sound t → ∃ k', q.run.run k = (x, k') ∧ Known.Gains t ns k k' ∧
    ∀ a, x = .ok a → ∀ n ∈ ns, n.id ∈ k'.ids

namespace Fills

variable {t : Tree} {ns ns' : List Node}

theorem answers {q : Inquiry α} {x : Except Error α} (h : Fills t ns q x) : Answers t q x := by
  intro k hk
  obtain ⟨k', hrun, hgains, -⟩ := h k hk
  exact ⟨k', hrun, hgains.grows⟩

theorem pure (a : α) : Fills t [] (Pure.pure a) (.ok a) :=
  fun k hk => ⟨k, rfl, .refl hk, nofun⟩

theorem throw (e : Error) : Fills t ns (throw e : Inquiry α) (.error e) :=
  fun k hk => ⟨k, rfl, .refl hk, nofun⟩

theorem bind {q : Inquiry α} {x : Except Error α} {f : α → Inquiry β}
    {g : α → Except Error β} (hq : Fills t ns q x)
    (hf : ∀ a, x = .ok a → Fills t ns' (f a) (g a)) :
    Fills t (ns ++ ns') (q >>= f) (x >>= g) := by
  intro k hk
  obtain ⟨k₁, hrun, hgains, hfilled⟩ := hq k hk
  have hleft := hgains.mono (List.subset_append_left ns ns')
  cases x with
  | error e => exact ⟨k₁, run_bind_error hrun f, hleft, nofun⟩
  | ok a =>
      obtain ⟨k₂, hrun₂, hgains₂, hfilled₂⟩ := hf a rfl k₁ hgains.sound
      have hright := hgains₂.mono (List.subset_append_right ns ns')
      refine ⟨k₂, (run_bind_ok hrun f).trans hrun₂, hleft.trans hright, fun b hb n hn => ?_⟩
      rcases List.mem_append.mp hn with hn | hn
      · exact hgains₂.grows.ids_subset (hfilled a rfl n hn)
      · exact hfilled₂ b hb n hn

theorem bind_nil {q : Inquiry α} {x : Except Error α} {f : α → Inquiry β}
    {g : α → Except Error β} (hq : Fills t ns q x)
    (hf : ∀ a, x = .ok a → Fills t [] (f a) (g a)) : Fills t ns (q >>= f) (x >>= g) := by
  have h := hq.bind hf
  rwa [List.append_nil] at h

theorem map {q : Inquiry α} {x : Except Error α} (hq : Fills t ns q x) (f : α → β) :
    Fills t ns (f <$> q) (f <$> x) := by
  have h := hq.bind_nil fun a _ => Fills.pure (f a)
  rw [bind_pure_comp] at h
  cases x <;> exact h

theorem ofExcept (x : Except Error α) :
    Fills t [] (MonadExcept.ofExcept x) (MonadExcept.ofExcept x) := by
  cases x with
  | error e => exact .throw e
  | ok a => exact .pure a

end Fills

/-- Adds the answer, if there is one, to what is known of the node. -/
def remember (n : Node) (f : α → Ast) (q : Inquiry α) : Inquiry α := do
  let a ← q
  modify (·.add n.id (f a))
  pure a

theorem run_visit (n : Node) (inner : Inquiry TypeRef) (k : Known) :
    (visit n inner).run.run k =
      ExceptT.run (match k.get? n.id with
        | some (.type t) => pure t
        | some other => throw (Lowering.kindError n .type other)
        | none => remember n .type inner : Inquiry TypeRef) k := rfl

theorem run_meaning (t : Tree) (n : Node) (k : Known) :
    (meaning t n).run.run k =
      ExceptT.run (match k.get? n.id with
        | some a => pure a
        | none => remember n id (Lowering.lower t.source visit n) : Inquiry Ast) k := rfl

section WellFormed

variable {t : Tree} (ht : t.WellFormed)
include ht

theorem Fills.remember {n : Node} (hn : n ∈ t.nodes) {q : Inquiry α} {x : Except Error α}
    (hq : Fills t n.eager q x) {k : Known} (hk : k.Sound t) (hget : k.get? n.id = none)
    {f : α → Ast} (hf : ∀ a, x = .ok a → t.meaning n = .ok (f a)) :
    ∃ k', (remember n f q).run.run k = (x, k') ∧ Known.Gains t (n :: n.eager) k k' ∧
      ∀ a, x = .ok a → ∀ m ∈ n :: n.eager, m.id ∈ k'.ids := by
  obtain ⟨k₁, hrun, hgains, hfilled⟩ := hq k hk
  cases x with
  | error e =>
      exact ⟨k₁, run_bind_error hrun _, hgains.mono (List.subset_cons_self n n.eager), nofun⟩
  | ok a =>
      refine ⟨k₁.add n.id (f a), run_bind_ok hrun _,
        hgains.add ht hn (hfilled a rfl) hget (hf a rfl), fun b _ m hm => ?_⟩
      rcases List.mem_cons.mp hm with rfl | hm
      · exact List.mem_cons_self
      · exact List.mem_cons_of_mem n.id (hfilled a rfl m hm)

omit ht in
theorem Fills.known {n : Node} (hn : n ∈ t.nodes) {k : Known} (hk : k.Sound t) {a : Ast}
    (hget : k.get? n.id = some a) :
    Known.Gains t (n :: n.eager) k k ∧ ∀ m ∈ n :: n.eager, m.id ∈ k.ids := by
  have hmem : n.id ∈ k.ids := List.mem_map_of_mem (Known.mem_of_get? hget)
  exact ⟨.refl hk, List.forall_mem_cons.mpr ⟨hmem, hk.closed n hn hmem⟩⟩

omit ht in
theorem meaning_ty {n : Node} (hr : n.rule = .ty) :
    t.meaning n = .type <$> Lowering.typeOf t.source (fun _ inner => inner) n := by
  rw [Tree.meaning, Lowering.lower, hr]

theorem fills_visit {n : Node} (hn : n ∈ t.nodes) (hr : n.rule = .ty)
    {inner : Inquiry TypeRef} {x : Except Error TypeRef} (hinner : Fills t n.innerTypes inner x)
    (hx : x = Lowering.typeOf t.source (fun _ inner => inner) n) :
    Fills t (n :: n.innerTypes) (visit n inner) x := by
  have hmeaning := meaning_ty (t := t) hr
  rw [← hx] at hmeaning
  have heager : n.eager = n.innerTypes := by rw [Node.eager, hr]
  rw [← heager] at hinner ⊢
  intro k hk
  rw [run_visit]
  cases hget : k.get? n.id with
  | none =>
      refine hinner.remember ht hn hk hget fun a ha => ?_
      rw [hmeaning, ha]
      rfl
  | some a =>
      rw [hk.meaning_eq ht hn hget] at hmeaning
      cases x with
      | error e => exact nomatch hmeaning
      | ok ref =>
          cases Except.ok.inj hmeaning
          obtain ⟨hgains, hfilled⟩ := Fills.known hn hk hget
          exact ⟨k, rfl, hgains, fun _ _ => hfilled⟩

/-- The lowering functions for types, paths and their parts.  The induction is over the tree; the
statement is about a node of each of the four rules that ask for types below them. -/
theorem fills_type_parts (n : Node) (hn : n ∈ t.nodes) :
    (n.rule = .ty → Fills t n.innerTypes (Lowering.typeOf t.source visit n)
      (Lowering.typeOf t.source (fun _ inner => inner) n)) ∧
    (n.rule = .tupleType → Fills t n.innerTypes (Lowering.visitAll t.source visit n.children)
      (Lowering.visitAll t.source (fun _ inner => inner) n.children)) ∧
    (n.rule = .path → Fills t n.innerTypes (Lowering.pathOf t.source visit n)
      (Lowering.pathOf t.source (fun _ inner => inner) n)) ∧
    (n.rule = .segment → Fills t n.innerTypes (Lowering.segmentOf t.source visit n)
      (Lowering.segmentOf t.source (fun _ inner => inner) n)) := by
  induction n using Node.induction with
  | h n ih =>
      have ihc {c : Node} (hc : c ∈ n.children) := ih c hc (Tree.child_mem_nodes hn hc)
      have hvisit {c : Node} (hc : c ∈ n.children) (hr : c.rule = .ty) :
          Fills t (c :: c.innerTypes) (visit c (Lowering.typeOf t.source visit c))
            (Lowering.typeOf t.source (fun _ inner => inner) c) :=
        fills_visit ht (Tree.child_mem_nodes hn hc) hr ((ihc hc).1 hr) rfl
      refine ⟨fun hr => ?_, fun hr => ?_, fun hr => ?_, fun hr => ?_⟩
      · obtain ⟨base, suffix, hchildren, hbase, hsuffix⟩ := ht.ty_children hn hr
        have hmem : base ∈ n.children := by simp [hchildren]
        rw [Node.innerTypes_ty hr hchildren hsuffix]
        rcases Rule.isTypeBase_cases hbase with ⟨s, hbase⟩ | hbase | hbase | hbase
        · rw [Lowering.typeOf_scalar _ _ hr hchildren hsuffix hbase,
            Lowering.typeOf_scalar _ _ hr hchildren hsuffix hbase,
            Node.innerTypes_eq_nil (by simp [hbase])]
          exact .pure _
        · rw [Lowering.typeOf_self _ _ hr hchildren hsuffix hbase,
            Lowering.typeOf_self _ _ hr hchildren hsuffix hbase,
            Node.innerTypes_eq_nil (by simp [hbase])]
          exact .pure _
        · rw [Lowering.typeOf_path _ _ hr hchildren hsuffix hbase,
            Lowering.typeOf_path _ _ hr hchildren hsuffix hbase]
          exact ((ihc hmem).2.2.1 hbase).map _
        · rw [Lowering.typeOf_tuple _ _ hr hchildren hsuffix hbase,
            Lowering.typeOf_tuple _ _ hr hchildren hsuffix hbase]
          exact ((ihc hmem).2.1 hbase).map _
      · have hty := ht.tuple_children hn hr
        have hall : ∀ cs, (∀ c ∈ cs, c ∈ n.children) →
            Fills t (Node.elementTypes cs) (Lowering.visitAll t.source visit cs)
              (Lowering.visitAll t.source (fun _ inner => inner) cs) := by
          intro cs hcs
          induction cs with
          | nil => exact .pure _
          | cons c cs ihcs =>
              rw [List.forall_mem_cons] at hcs
              refine (hvisit hcs.1 (hty c hcs.1)).bind fun _ _ => ?_
              exact (ihcs hcs.2).bind_nil fun _ _ => .pure _
        rw [Node.innerTypes_tuple hr]
        exact hall n.children fun _ hc => hc
      · obtain ⟨dots, first, others, hchildren, hdots, hsegments⟩ := ht.path_children hn hr
        have hrules : ∀ c ∈ n.children, c.rule = .dot ∨ c.rule = .segment := by
          intro c hc
          rw [hchildren] at hc
          exact (List.mem_append.mp hc).imp (hdots c) (hsegments c)
        have hall : ∀ cs, (∀ c ∈ cs, c ∈ n.children) →
            Fills t (Node.innerTypesAll cs) (Lowering.segmentsOf t.source visit n cs)
              (Lowering.segmentsOf t.source (fun _ inner => inner) n cs) := by
          intro cs hcs
          induction cs with
          | nil => exact .pure _
          | cons c cs ihcs =>
              rw [List.forall_mem_cons] at hcs
              rcases hrules c hcs.1 with hc | hc
              · rw [Lowering.segmentsOf_dot _ _ hc, Lowering.segmentsOf_dot _ _ hc,
                  Node.innerTypesAll, Node.innerTypes_eq_nil (by simp [hc])]
                exact (ihcs hcs.2).map _
              · rw [Lowering.segmentsOf_segment _ _ hc, Lowering.segmentsOf_segment _ _ hc]
                refine ((ihc hcs.1).2.2.2 hc).bind fun _ _ => ?_
                exact (ihcs hcs.2).map _
        rw [Lowering.pathOf_eq _ _ hr, Lowering.pathOf_eq _ _ hr,
          Node.innerTypes_eq_all (.inr (.inl hr))]
        exact hall n.children fun _ hc => hc
      · obtain ⟨name, arguments, hchildren, hname, hty⟩ := ht.segment_children hn hr
        rw [Node.innerTypes_segment hr, hchildren]
        cases arguments with
        | nil =>
            rw [Lowering.segmentOf_plain _ _ hchildren hname,
              Lowering.segmentOf_plain _ _ hchildren hname]
            exact .pure _
        | cons arg others =>
            rw [Lowering.segmentOf_argument _ _ hchildren hname,
              Lowering.segmentOf_argument _ _ hchildren hname]
            have hmem : arg ∈ n.children := by simp [hchildren]
            refine (hvisit hmem (hty arg List.mem_cons_self)).bind_nil fun ref _ => ?_
            cases ref.path? with
            | none => exact .throw _
            | some p => exact .pure _

end WellFormed

end Inquiry

end XiFront

import XiFront.Lowering
import XiFront.Proofs.Lowering.Parts
import XiFront.Proofs.Parse.Junction
import XiFront.Proofs.Tree.WellFormed

namespace XiFront

open Peg

def Moved (bytes : Nat) (_ : Rule) (start stop start' stop' : Nat) : Prop :=
  start' = start + bytes ∧ stop' = stop + bytes

def Further (bytes : Nat) (c c' : Cursor) : Prop :=
  c.rest = c'.rest ∧ c'.offset = c.offset + bytes

theorem Further.of_reads {bytes : Nat} {c c' d d' : Cursor} {s s' : Source}
    (hc : Further bytes c c') (hs : c.Reads s d) (hs' : c'.Reads s' d')
    (hd : d.rest = d'.rest) : Further bytes d d' := by
  have hread := hs.rest.symm.trans (hc.1.trans hs'.rest)
  rw [hd] at hread
  obtain rfl := List.append_cancel_right hread
  refine ⟨hd, ?_⟩
  rw [hs.offset, hs'.offset, hc.2, Nat.add_right_comm]

def further (bytes : Nat) : Likeness grammar false where
  Begins := Further bytes
  Ends := Further bytes
  Alike := Pair.Alike (Moved bytes)
  leaf := Expr.isAtom
  part := fun r => !r.isLexical && decide (r ≠ .file)
  ends := id
  skips := by
    intro c c' hc
    refine (filler_agrees_of_rest hc.1).reads.mono (fun _ _ => id) ?_
    rintro d d' ⟨⟨s, hs⟩, ⟨s', hs'⟩, hd⟩
    exact hc.of_reads hs hs' hd
  leaves := by
    intro e c c' he hc
    refine (atom_agrees_of_rest hc.1 he).reads.mono ?_ ?_
    · rintro p p' ⟨r, d, d', s, -, hs, hs', rfl, rfl⟩
      refine .node ⟨hc.2, ?_⟩ .nil
      rw [hs.offset, hs'.offset, hc.2, Nat.add_right_comm]
    · rintro d d' ⟨⟨s, hs⟩, ⟨s', hs'⟩, hd⟩
      exact hc.of_reads hs hs' hd
  opens := @loose_opens
  closes := fun _ _ hc hd hps => .node ⟨hc.2, hd.2⟩ hps

theorem Items.further {bytes : Nat} {c c' d : Cursor} {ps : List (Pair Rule)} (h : Items c ps d)
    (hc : Further bytes c c') :
    ∃ ps' d', Items c' ps' d' ∧ List.Forall₂ (Pair.Alike (Moved bytes)) ps ps' := by
  induction h generalizing c' with
  | done hend => exact ⟨[], c', .done (hc.1.symm.trans hend), .nil⟩
  | item hitem hskip _ ih =>
      have hbuilt : (Expr.rule Rule.item).built (XiFront.further bytes).leaf
          (XiFront.further bytes).part = true := rfl
      obtain ⟨ps', c₁', hitem', hps, hc₁⟩ :=
        ((XiFront.further bytes).agree hbuilt _ _ hc).exists_ok hitem
      obtain ⟨_, c₂', hskip', -, hc₂⟩ := ((XiFront.further bytes).skips hc₁).exists_ok hskip
      obtain ⟨qs', d', hitems, hqs⟩ := ih hc₂
      exact ⟨ps' ++ qs', d', .item hitem' hskip' hitems, List.rel_append hps hqs⟩

theorem items_join {s₁ s₂ : Source} {c₁ c₂ d₁ d₂ : Cursor} {ps qs : List (Pair Rule)}
    (hskip₁ : grammar.answer true filler (.ofText s₁) = .ok [] c₁) (h₁ : Items c₁ ps d₁)
    (hskip₂ : grammar.answer true filler (.ofText s₂) = .ok [] c₂) (h₂ : Items c₂ qs d₂) :
    ∃ c qs' d, grammar.answer true filler (.ofText (s₁ ++ '\n' :: s₂)) = .ok [] c ∧
      Items c (ps ++ qs') d ∧
      List.Forall₂ (Pair.Alike (Moved (Source.byteLength s₁ + 1))) qs qs' := by
  obtain ⟨hskips, hfirm₁⟩ := Reaches.of_filler hskip₁
  obtain ⟨s, hread, w, a, rfl, hcut, hgap⟩ := hskips.trans (h₁.reaches hfirm₁)
  rw [h₁.finishes] at hcut hgap
  rw [List.append_nil] at hcut
  obtain rfl : s₁ = w ++ a := by
    have hrest := hread.rest
    rw [h₁.finishes, List.append_nil] at hrest
    exact hrest
  obtain ⟨b, hb⟩ := Grammar.takes_of_answer hskip₂
  obtain ⟨hread₂, hgap₂⟩ := takes_filler.mp hb
  obtain ⟨j, offset⟩ := c₂
  obtain rfl : s₂ = b ++ j := hread₂.rest
  have hbefore : IsGap a [] := hgap.elim (fun ha => ha ▸ .stop .nil) id
-- The first source ends in pieces `w` and a gap `a`, the second begins with a gap `b`.
  have hjunction : Junction w a b j := ⟨hcut, hbefore, hgap₂, h₂.opens hgap₂.firm⟩
  have hfurther : Further (Source.byteLength (w ++ a) + 1) ⟨j, offset⟩
      ⟨j, Source.byteLength (w ++ a) + 1 + Source.byteLength b⟩ := by
    refine ⟨rfl, ?_⟩
    have hoffset : offset = 0 + Source.byteLength b := hread₂.offset
    dsimp only
    omega
  obtain ⟨qs', d, hnext, hqs⟩ := h₂.further hfurther
  have hends : Junction.Ends w a b j (.ofText (w ++ a)) (.ofText (w ++ a ++ '\n' :: (b ++ j))) := by
    rw [List.append_assoc]
    exact ⟨.ofText _, .ofText _, .inl ⟨w, hcut, rfl, rfl⟩⟩
  obtain ⟨_, c, hskip, hnil, hc⟩ := (hjunction.skips hends).exists_ok hskip₁
  cases hnil
  exact ⟨c, qs', d, hskip, hjunction.items h₁ hc hnext, hqs⟩

def Handle.shift (k : Nat) (h : Handle kind) : Handle kind :=
  ⟨h.id + k⟩

/-- The items of two files, the nodes of the second numbered from `k` on. -/
def FileDecl.join (k : Nat) (d d' : FileDecl) : FileDecl where
  uses := d.uses ++ d'.uses.map (Handle.shift k)
  interfaces := d.interfaces ++ d'.interfaces.map (Handle.shift k)
  structs := d.structs ++ d'.structs.map (Handle.shift k)
  enums := d.enums ++ d'.enums.map (Handle.shift k)
  fns := d.fns ++ d'.fns.map (Handle.shift k)
  globals := d.globals ++ d'.globals.map (Handle.shift k)

def FileDecl.ofNode (n : Node) : FileDecl where
  uses := n.handlesOf .useStmt
  interfaces := n.handlesOf .interfaceDecl
  structs := n.handlesOf .structDecl
  enums := n.handlesOf .enumDecl
  fns := n.handlesOf .fnDecl
  globals := n.handlesOf .global

theorem Tree.WellFormed.meaning_root {t : Tree} (ht : t.WellFormed) :
    t.meaning t.root = .ok (.file (.ofNode t.root)) := by
  have hlayout := ht.layout (Tree.mem_nodes.mpr t.root.self_mem_preorder)
  rw [ht.root] at hlayout
  have hallow : t.root.allow Lowering.isItem = .ok () :=
    Node.allow_eq (List.forall_mem_map.mp hlayout)
  have hfile : Lowering.fileDecl t.root = .ok (.ofNode t.root) := by
    rw [Lowering.fileDecl, hallow]
    rfl
  rw [Tree.meaning, Lowering.lower, ht.root]
  simp only [hfile]
  rfl

theorem handles_alike {link : Rule → Nat → Nat → Nat → Nat → Prop} {k : Nat} {ns ms : List Node}
    (h : List.Forall₂ (Node.Alike link k) ns ms) (r : Rule) :
    ((ms.filter (·.rule = r)).map Node.handle : List (Handle kind)) =
      ((ns.filter (·.rule = r)).map Node.handle).map (Handle.shift k) := by
  induction h with
  | nil => rfl
  | @cons n m ns ms hn _ ih =>
      rw [List.filter_cons, List.filter_cons, hn.rule]
      split
      · rw [List.map_cons, List.map_cons, List.map_cons, ih, Node.handle, hn.id]
        rfl
      · exact ih

theorem FileDecl.ofNode_eq_join {n n₁ n₂ : Node} {ms ms' : List Node} {k : Nat}
    {link link' : Rule → Nat → Nat → Nat → Nat → Prop} (hn : n.children = ms ++ ms')
    (h : List.Forall₂ (Node.Alike link 0) n₁.children ms)
    (h' : List.Forall₂ (Node.Alike link' k) n₂.children ms') :
    FileDecl.ofNode n = (FileDecl.ofNode n₁).join k (FileDecl.ofNode n₂) := by
  have hhandles {kind : Kind} (r : Rule) : (n.handlesOf r : List (Handle kind)) =
      n₁.handlesOf r ++ (n₂.handlesOf r).map (Handle.shift k) := by
    have hstay : (Handle.shift 0 : Handle kind → Handle kind) = id := rfl
    rw [Node.handlesOf, hn, List.filter_append, List.map_append, handles_alike h r,
      handles_alike h' r, hstay, List.map_id]
    rfl
  simp only [FileDecl.ofNode, FileDecl.join, hhandles]

theorem Node.ofPairs_join (s₁ s₂ source : Source) (ps : List (Pair Rule)) {qs qs' : List (Pair Rule)}
    {link : Rule → Nat → Nat → Nat → Nat → Prop} (hqs : List.Forall₂ (Pair.Alike link) qs qs') :
    ∃ ms ms', (ofPairs source 0 (ps ++ qs')).1 = ms ++ ms' ∧
      List.Forall₂ (Node.Alike (Moved 0) 0) (ofPairs s₁ 0 ps).1 ms ∧
      List.Forall₂ (Node.Alike (Moved 0) 0) (preorderAll (ofPairs s₁ 0 ps).1) (preorderAll ms) ∧
      List.Forall₂ (Node.Alike link (sizeAll (ofPairs s₁ 0 ps).1)) (ofPairs s₂ 0 qs).1 ms' ∧
      List.Forall₂ (Node.Alike link (sizeAll (ofPairs s₁ 0 ps).1))
        (preorderAll (ofPairs s₂ 0 qs).1) (preorderAll ms') := by
  have hps : Pair.AlikeAll (Moved 0) ps ps :=
    Pair.alikeAll_iff.mpr (List.forall₂_same.mpr fun p _ => .refl (fun _ _ _ => ⟨rfl, rfl⟩) p)
  obtain ⟨hnext, hkept, hkeptAll⟩ := ofPairs_alike s₁ source hps 0 0
  have hshift : (ofPairs source 0 ps).2 = 0 + sizeAll (ofPairs s₁ 0 ps).1 := by
    rw [← next_ofPairs]
    exact hnext
  obtain ⟨-, hmoved, hmovedAll⟩ := ofPairs_alike s₂ source
    (Pair.alikeAll_iff.mpr hqs) 0 (sizeAll (ofPairs s₁ 0 ps).1)
  rw [← hshift] at hmoved hmovedAll
  exact ⟨_, _, ofPairs_append .., hkept, hkeptAll, hmoved, hmovedAll⟩

theorem Tree.IsOf.join {s₁ s₂ : Source} {t₁ t₂ : Tree} (h₁ : t₁.IsOf s₁) (h₂ : t₂.IsOf s₂) :
    ∃ (t : Tree) (kept moved : List Node), t.IsOf (s₁ ++ '\n' :: s₂) ∧
      t.root.children.map Node.id = t₁.root.children.map Node.id ++
        t₂.root.children.map (fun n => n.id + (t₁.size - 1)) ∧
      t.nodes = t.root :: (kept ++ moved) ∧
      List.Forall₂ (Node.Alike (Moved 0) 0) t₁.nodes.tail kept ∧
      List.Forall₂ (Node.Alike (Moved (Source.byteLength s₁ + 1)) (t₁.size - 1))
        t₂.nodes.tail moved ∧
      ∃ d₁ d₂, t₁.meaning t₁.root = .ok (.file d₁) ∧ t₂.meaning t₂.root = .ok (.file d₂) ∧
        t.meaning t.root = .ok (.file (d₁.join (t₁.size - 1) d₂)) := by
  have hwf₁ := h₁.wellFormed
  have hwf₂ := h₂.wellFormed
  obtain ⟨c₁, ps, e₁, hskip₁, hitems₁, rfl⟩ := Tree.isOf_iff_items.mp h₁
  obtain ⟨c₂, qs, e₂, hskip₂, hitems₂, rfl⟩ := Tree.isOf_iff_items.mp h₂
  obtain ⟨c, qs', e, hskip, hitems, hqs⟩ := items_join hskip₁ hitems₁ hskip₂ hitems₂
  have hof := Tree.isOf_iff_items.mpr ⟨c, _, e, hskip, hitems, rfl⟩
  have hprune := pruneAll_alike (Pair.alikeAll_iff.mpr hqs)
  obtain ⟨ms, ms', hchildren, hkept, hkeptAll, hmoved, hmovedAll⟩ :=
    Node.ofPairs_join s₁ s₂ (s₁ ++ '\n' :: s₂) (pruneAll ps) hprune
  rw [← pruneAll_append] at hchildren
  refine ⟨_, Node.preorderAll ms, Node.preorderAll ms', hof, ?_, ?_, ?_, ?_, _, _,
    hwf₁.meaning_root, hwf₂.meaning_root, ?_⟩
  · rw [Node.children_ofPair, Pair.children_node, hchildren, List.map_append,
      Node.Alike.map_id hkept, Node.Alike.map_id hmoved]
    rfl
  · rw [Tree.nodes_eq_cons, Node.children_ofPair, Pair.children_node, hchildren,
      Node.preorderAll_append]
  · rw [Tree.nodes_eq_cons]
    exact hkeptAll
  · rw [Tree.nodes_eq_cons]
    exact hmovedAll
  · rw [hof.wellFormed.meaning_root]
    congr 2
    exact FileDecl.ofNode_eq_join hchildren hkept hmoved

end XiFront

import Mathlib.Data.List.Forall2
import XiFront.Proofs.Tree.WellFormed

namespace XiFront

open Peg

namespace Peg.Pair

mutual

def Alike (link : ρ → Nat → Nat → Nat → Nat → Prop) : Pair ρ → Pair ρ → Prop
  | node r a b cs, node r' a' b' cs' => r' = r ∧ link r a b a' b' ∧ AlikeAll link cs cs'

def AlikeAll (link : ρ → Nat → Nat → Nat → Nat → Prop) :
    List (Pair ρ) → List (Pair ρ) → Prop
  | [], [] => True
  | p :: ps, q :: qs => Alike link p q ∧ AlikeAll link ps qs
  | _, _ => False

end

variable {link : ρ → Nat → Nat → Nat → Nat → Prop}

theorem alikeAll_iff {ps qs : List (Pair ρ)} :
    AlikeAll link ps qs ↔ List.Forall₂ (Alike link) ps qs := by
  induction ps generalizing qs with
  | nil => cases qs <;> simp [AlikeAll]
  | cons p ps ih => cases qs <;> simp [AlikeAll, ih]

theorem Alike.refl (hlink : ∀ r a b, link r a b a b) (p : Pair ρ) : Alike link p p := by
  obtain ⟨r, a, b, cs⟩ := p
  refine ⟨rfl, hlink r a b, alikeAll_iff.mpr (List.forall₂_same.mpr fun c hc => ?_)⟩
  have : sizeOf c < sizeOf cs := List.sizeOf_lt_of_mem hc
  exact refl hlink c
termination_by sizeOf p
decreasing_by
  simp only [Pair.node.sizeOf_spec]
  omega

theorem Alike.node {r : ρ} {a b a' b' : Nat} {cs cs' : List (Pair ρ)} (h : link r a b a' b')
    (hcs : List.Forall₂ (Alike link) cs cs') : Alike link (.node r a b cs) (.node r a' b' cs') :=
  ⟨rfl, h, alikeAll_iff.mpr hcs⟩

end Peg.Pair

theorem Selection.apply_alike {link : Rule → Nat → Nat → Nat → Nat → Prop} {r : Rule}
    {a b a' b' : Nat} {kept kept' : List (Pair Rule)} (h : link r a b a' b')
    (hkept : List.Forall₂ (Pair.Alike link) kept kept') (s : Selection) :
    List.Forall₂ (Pair.Alike link) (s.apply r a b kept).toList (s.apply r a' b' kept').toList := by
  have hnode : Pair.Alike link (.node r a b kept) (.node r a' b' kept') := .node h hkept
  cases s with
  | discard => exact .nil
  | store => exact .cons hnode .nil
  | fold =>
      cases hkept with
      | nil => exact .cons hnode .nil
      | cons hp hps =>
          cases hps with
          | nil => exact .cons hp .nil
          | cons _ _ => exact .cons hnode .nil

mutual

theorem prune_alike {link : Rule → Nat → Nat → Nat → Nat → Prop} {p q : Pair Rule}
    (h : p.Alike link q) :
    List.Forall₂ (Pair.Alike link) (prune p).toList (prune q).toList := by
  obtain ⟨r, a, b, cs⟩ := p
  obtain ⟨r', a', b', cs'⟩ := q
  obtain ⟨rfl, hlink, hcs⟩ := h
  simp only [prune]
  exact Selection.apply_alike hlink (pruneAll_alike hcs) _

theorem pruneAll_alike {link : Rule → Nat → Nat → Nat → Nat → Prop} {ps qs : List (Pair Rule)}
    (h : Pair.AlikeAll link ps qs) :
    List.Forall₂ (Pair.Alike link) (pruneAll ps) (pruneAll qs) := by
  cases ps with
  | nil =>
      cases qs with
      | nil => exact .nil
      | cons q qs => exact h.elim
  | cons p ps =>
      cases qs with
      | nil => exact h.elim
      | cons q qs =>
          rw [pruneAll_cons, pruneAll_cons]
          exact List.rel_append (prune_alike h.1) (pruneAll_alike h.2)

end

/-- Nodes that stand at the same place of two trees, the second of which counts from `shift`. -/
structure Node.Alike (link : Rule → Nat → Nat → Nat → Nat → Prop) (shift : Nat) (n m : Node) :
    Prop where
  id : m.id = n.id + shift
  rule : m.rule = n.rule
  span : link n.rule n.start n.stop m.start m.stop
  children : m.children.map Node.id = n.children.map fun k => k.id + shift

namespace Node

variable {link : Rule → Nat → Nat → Nat → Nat → Prop} {shift : Nat}

theorem Alike.map_id {ns ms : List Node} (h : List.Forall₂ (Node.Alike link shift) ns ms) :
    ms.map Node.id = ns.map fun n => n.id + shift := by
  induction h with
  | nil => rfl
  | cons hn _ ih => rw [List.map_cons, List.map_cons, hn.id, ih]

variable (source source' : Source)

mutual

theorem ofPair_alike {p q : Pair Rule} (h : p.Alike link q) (next shift : Nat) :
    (ofPair source' (next + shift) q).id = (ofPair source next p).id + shift ∧
      List.Forall₂ (Node.Alike link shift) (ofPair source next p).preorder
        (ofPair source' (next + shift) q).preorder := by
  obtain ⟨r, a, b, cs⟩ := p
  obtain ⟨r', a', b', cs'⟩ := q
  obtain ⟨rfl, hlink, hcs⟩ := h
  obtain ⟨hnext, hchildren, hnodes⟩ := ofPairs_alike hcs next shift
  rw [preorder_eq, preorder_eq]
  exact ⟨hnext, .cons ⟨hnext, rfl, hlink, Alike.map_id hchildren⟩ hnodes⟩

theorem ofPairs_alike {ps qs : List (Pair Rule)} (h : Pair.AlikeAll link ps qs)
    (next shift : Nat) :
    (ofPairs source' (next + shift) qs).2 = (ofPairs source next ps).2 + shift ∧
      List.Forall₂ (Node.Alike link shift) (ofPairs source next ps).1
        (ofPairs source' (next + shift) qs).1 ∧
      List.Forall₂ (Node.Alike link shift) (preorderAll (ofPairs source next ps).1)
        (preorderAll (ofPairs source' (next + shift) qs).1) := by
  cases ps with
  | nil =>
      cases qs with
      | nil => exact ⟨rfl, .nil, .nil⟩
      | cons q qs => exact h.elim
  | cons p ps =>
      cases qs with
      | nil => exact h.elim
      | cons q qs =>
          obtain ⟨hid, hnode⟩ := ofPair_alike h.1 next shift
          have htail := ofPairs_alike h.2 ((ofPair source next p).id + 1) shift
          rw [Nat.add_right_comm, ← hid] at htail
          obtain ⟨hnext, hchildren, hnodes⟩ := htail
          have hroot : Node.Alike link shift (ofPair source next p)
              (ofPair source' (next + shift) q) := by
            rw [preorder_eq, preorder_eq] at hnode
            exact (List.forall₂_cons.mp hnode).1
          refine ⟨hnext, .cons hroot hchildren, ?_⟩
          simp only [ofPairs_cons, preorderAll_cons]
          exact List.rel_append hnode hnodes

end

end Node

theorem Tree.size_eq_of_alike {t t' : Tree} {link : Rule → Nat → Nat → Nat → Nat → Prop}
    {shift : Nat} (h : List.Forall₂ (Node.Alike link shift) t.nodes t'.nodes) :
    t'.size = t.size := by
  rw [← Tree.length_nodes, ← Tree.length_nodes, h.length_eq]

/-- A source whose pruned match is like that of an accepted one is accepted, and has the same nodes
but for their spans. -/
theorem Tree.parse_pruned_alike {source source' : Source} {t : Tree}
    {link : Rule → Nat → Nat → Nat → Nat → Prop} (h : Tree.parse source = .ok t)
    (hmatch : ∀ {p after},
      grammar.answer false (.rule .file) (.ofText source) = .ok [p] after →
        ∃ p' after', grammar.answer false (.rule .file) (.ofText source') = .ok [p'] after' ∧
          List.Forall₂ (Pair.Alike link) (prune p).toList (prune p').toList) :
    ∃ t', Tree.parse source' = .ok t' ∧ t'.source = source' ∧
      List.Forall₂ (Node.Alike link 0) t.nodes t'.nodes := by
  obtain ⟨⟨p, after, q, hanswer, hq, rfl⟩, hsize⟩ := Tree.parse_eq_ok_iff.mp h
  obtain ⟨p', after', hanswer', hprune⟩ := hmatch hanswer
  rw [hq] at hprune
  cases hq' : prune p' with
  | none =>
      rw [hq'] at hprune
      exact nomatch hprune
  | some q' =>
      rw [hq'] at hprune
      have hnodes : List.Forall₂ (Node.Alike link 0) (Tree.nodes ⟨source, .ofPair source 0 q⟩)
          (Tree.nodes ⟨source', .ofPair source' 0 q'⟩) := by
        rw [Tree.nodes_eq_preorder, Tree.nodes_eq_preorder]
        exact (Node.ofPair_alike _ _ (List.forall₂_cons.mp hprune).1 0 0).2
      have hof : Tree.IsOf ⟨source', .ofPair source' 0 q'⟩ source' :=
        ⟨p', after', q', hanswer', hq', rfl⟩
      exact ⟨_, hof.parse_eq_ok (Tree.size_eq_of_alike hnodes ▸ hsize), rfl, hnodes⟩

/-- A source that matches like an accepted one is accepted, and has the same nodes but for their
spans. -/
theorem Tree.parse_alike {source source' : Source} {t : Tree}
    {link : Rule → Nat → Nat → Nat → Nat → Prop} (h : Tree.parse source = .ok t)
    (hmatch : ∀ {p after},
      grammar.answer false (.rule .file) (.ofText source) = .ok [p] after →
        ∃ p' after', grammar.answer false (.rule .file) (.ofText source') = .ok [p'] after' ∧
          p.Alike link p') :
    ∃ t', Tree.parse source' = .ok t' ∧ t'.source = source' ∧
      List.Forall₂ (Node.Alike link 0) t.nodes t'.nodes := by
  refine Tree.parse_pruned_alike h fun hanswer => ?_
  obtain ⟨p', after', hanswer', hp⟩ := hmatch hanswer
  exact ⟨p', after', hanswer', prune_alike hp⟩

end XiFront

import XiFront.Proofs.Parse.Concatenation
import XiFront.Proofs.Parse.Diagnostics
import XiFront.Proofs.Peg.Relocation

namespace XiFront

open Peg

theorem answer_filler_leading {w source : Source} (hw : IsFiller w) {c : Cursor}
    (h : grammar.answer true filler (.ofText source) = .ok [] c) :
    grammar.answer true filler (.ofText (w ++ source)) =
      .ok [] (c.move (Source.byteLength w)) := by
  obtain ⟨s, hs⟩ := Grammar.takes_of_answer h
  obtain ⟨hreads, hgap⟩ := takes_filler.mp hs
  have hmoved : (Cursor.ofText (w ++ source)).Reads (w ++ s) (c.move (Source.byteLength w)) := by
    have hrest : source = s ++ c.rest := hreads.rest
    have hoffset : c.offset = 0 + Source.byteLength s := hreads.offset
    refine ⟨?_, ?_⟩
    · rw [Cursor.rest_move, List.append_assoc, ← hrest]
      rfl
    · rw [Cursor.offset_move, hoffset, Source.byteLength_append]
      exact Nat.add_right_comm 0 _ _ |>.trans (Nat.add_assoc 0 _ _)
  exact (takes_filler.mpr ⟨hmoved, hw.append_isGap hgap⟩).1

namespace Peg.Attempts

end Peg.Attempts

theorem Tree.IsOf.leading {w source : Source} (hw : IsFiller w) {t : Tree} (h : t.IsOf source) :
    ∃ t' : Tree, t'.IsOf (w ++ source) ∧ t'.size = t.size ∧ t'.root.id = t.root.id ∧
      t'.root.rule = t.root.rule ∧
      t'.root.children.map Node.id = t.root.children.map Node.id ∧
      List.Forall₂ (Node.Alike (Moved (Source.byteLength w)) 0) t.nodes.tail t'.nodes.tail := by
  have hroot := h.id_root
  obtain ⟨c, ps, d, hskip, hitems, rfl⟩ := Tree.isOf_iff_items.mp h
  have hfurther : Further (Source.byteLength w) c (c.move (Source.byteLength w)) := ⟨rfl, rfl⟩
  obtain ⟨ps', d', hitems', hps⟩ := hitems.further hfurther
  have hof := Tree.isOf_iff_items.mpr ⟨_, ps', d', answer_filler_leading hw hskip, hitems', rfl⟩
  have hroot' := hof.id_root
  have hkept := Pair.alikeAll_iff.mpr (pruneAll_alike (Pair.alikeAll_iff.mpr hps))
  obtain ⟨hid, hchildren, hnodes⟩ := Node.ofPairs_alike source (w ++ source) hkept 0 0
  refine ⟨_, hof, ?_, hid, rfl, Node.Alike.map_id hchildren, ?_⟩
  · rw [← hroot, ← hroot']
    exact congrArg (· + 1) hid
  · rw [Tree.nodes_eq_cons, Tree.nodes_eq_cons]
    exact hnodes

end XiFront

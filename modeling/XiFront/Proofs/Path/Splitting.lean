import XiFront.Path.View

namespace XiFront

theorem renderPath_append (front : Bool) (p q : Path) :
    renderPath front (p ++ q) =
      renderPath front p ++ renderPath (front && p.all Segment.isMarker) q := by
  induction p generalizing front with
  | nil => simp
  | cons s ss ih =>
      cases front with
      | false =>
          rw [List.cons_append, renderPath_false_cons, renderPath_false_cons, ih, String.append_assoc]
          rfl
      | true =>
          rw [List.cons_append, renderPath_true_cons, renderPath_true_cons, List.all_cons]
          cases hs : s.isMarker with
          | true =>
              rw [if_pos rfl, if_pos rfl, ih, String.append_assoc]
              rfl
          | false =>
              rw [if_neg Bool.false_ne_true, if_neg Bool.false_ne_true, ih, String.append_assoc]
              rfl

/-! Colons make a marker longer than it is at the front, whatever its arguments. -/

theorem Segment.length_markerName_lt {s : Segment} (h : s.isMarker = true) :
    markerName.length < s.render.length := by
  obtain ⟨id, generics⟩ := s
  obtain rfl : id = markerName := of_decide_eq_true h
  simp only [Segment.render, String.length_append]
  have hcolons : "::".length = 2 := rfl
  omega

theorem length_renderPath_le (p : Path) :
    (renderPath true p).length ≤ (renderPath false p).length := by
  induction p with
  | nil => exact Nat.le_refl _
  | cons s ss ih =>
      rw [renderPath_true_cons, renderPath_false_cons]
      cases hs : s.isMarker with
      | true =>
          have hmarker := Segment.length_markerName_lt hs
          simp only [if_true, String.length_append]
          omega
      | false => exact Nat.le_refl _

theorem length_renderPath_lt {s : Segment} (h : s.isMarker = true) (ss : Path) :
    (renderPath true (s :: ss)).length < (renderPath false (s :: ss)).length := by
  have hmarker := Segment.length_markerName_lt h
  have hothers := length_renderPath_le ss
  rw [renderPath_true_cons, if_pos h, renderPath_false_cons, String.length_append,
    String.length_append]
  omega

theorem renderPath_eq_iff (s : Segment) (ss : Path) :
    renderPath false (s :: ss) = renderPath true (s :: ss) ↔ s.isMarker = false := by
  constructor
  · intro h
    refine Bool.eq_false_iff.mpr fun hs => ?_
    have hlt := length_renderPath_lt hs ss
    rw [h] at hlt
    exact Nat.lt_irrefl _ hlt
  · intro hs
    rw [renderPath_true_cons, hs]
    rfl

namespace Path

/-- The renderings of two paths put together make up that of the whole just where the first has
nothing but markers or the second does not start with one. -/
theorem render_append_iff (p : Path) (s : Segment) (ss : Path) :
    render (p ++ s :: ss) = render p ++ render (s :: ss) ↔
      (∀ t ∈ p, t.isMarker = true) ∨ s.isMarker = false := by
  rw [render, renderPath_append, Bool.true_and, ← List.all_eq_true]
  cases hp : p.all Segment.isMarker with
  | true => simp [render]
  | false =>
      rw [render, render, String.append_right_inj, renderPath_eq_iff]
      simp

/-- A path cut in two at a place inside it is rendered as its two windows one after the other, unless
a marker stands there after something that is no marker. -/
theorem View.render_splits_iff (p : Path) (k : Nat) (hpos : 0 < k) (hlt : k < p.length) :
    ∃ v w, p.view.range 0 k = .ok v ∧ p.view.range k p.length = .ok w ∧
      (p.render = v.render ++ w.render ↔
        (∀ s ∈ p.take k, s.isMarker = true) ∨ p[k].isMarker = false) := by
  have hbefore : p.view.range 0 k = .ok _ := dif_pos ⟨hpos, Nat.le_of_lt hlt⟩
  have hafter : p.view.range k p.length = .ok _ := dif_pos ⟨hlt, Nat.le_refl _⟩
  refine ⟨_, _, hbefore, hafter, ?_⟩
  have hsegment : p.drop k = p[k] :: p.drop (k + 1) := List.drop_eq_getElem_cons hlt
  have hparts : p = p.take k ++ p[k] :: p.drop (k + 1) := by
    rw [← hsegment, List.take_append_drop]
  rw [View.render, View.render, segments_of_range hbefore, segments_of_range hafter, segments_view,
    List.drop_zero, Nat.sub_zero, ← List.length_drop, List.take_length, hsegment,
    ← render_append_iff, ← hparts]

/-- The segment after `::a` in `.::a::.<::T>::b` is a marker.  At the front of a window of its own it
loses its colons and its argument. -/
theorem View.render_splits_iff_displaced :
    let p : Path := [.marker, .plain "a", ⟨".", some [[.plain "T"]]⟩, .plain "b"]
    0 < 2 ∧ 2 < p.length ∧ p.render = ".::a::.<::T>::b" ∧
    ∃ v w, p.view.range 0 2 = .ok v ∧ p.view.range 2 4 = .ok w ∧
      v.render = ".::a" ∧ w.render = ".::b" ∧ p.render ≠ v.render ++ w.render := by
  intro p
  obtain ⟨v, w, hbefore, hafter, hsplits⟩ := View.render_splits_iff p 2 (by decide) (by decide)
  refine ⟨by decide, by decide, by decide, v, w, hbefore, hafter, ?_, ?_, ?_⟩
  · cases hbefore
    decide
  · cases hafter
    decide
  · rw [ne_eq, hsplits]
    decide

end Path

end XiFront

import XiFront.Peg.Attempts
import XiFront.Proofs.Peg.Watched

namespace XiFront.Peg

namespace Cursor

def ofOffset (source : Source) (offset : Nat) : Cursor :=
  ⟨source.dropBytes offset, offset⟩

theorem In.eq_ofOffset {source : Source} {c : Cursor} (h : c.In source) :
    c = ofOffset source c.offset := by
  obtain ⟨before, hbefore⟩ := h
  have hsource : source = before ++ c.rest := hbefore.rest
  have hoffset : c.offset = Source.byteLength before := by
    rw [hbefore.offset, Cursor.ofText, Nat.zero_add]
  rw [ofOffset, hoffset, hsource, Source.dropBytes_byteLength, ← hoffset]

end Cursor

namespace Attempts

theorem note_cases {v : Visit ρ} (hneg : v.negated = false) (before after : Attempts ρ) :
    note v before after = after ∧ (v.leavesPair = true → v.matched = false →
        after.count v.offset ≠ 0 ∨ v.offset < after.offset) ∨
      v.matched = false ∧ after.offset ≤ v.offset ∧ note v before after =
        ⟨v.offset, v.rule :: (before.since v.offset).expected,
          (before.since v.offset).unexpected⟩ := by
  unfold note
  rw [hneg, Bool.bne_false]
  split
  · next hskip =>
      refine .inl ⟨rfl, fun hpair hmatched => ?_⟩
      rw [hpair, hmatched] at hskip
      exact nomatch hskip
  next hskip =>
  split
  · next hcount => exact .inl ⟨rfl, fun _ _ => .inl (by omega)⟩
  split
  · next hless => exact .inl ⟨rfl, fun _ _ => .inr hless⟩
  next hless =>
  refine .inr ⟨?_, Nat.le_of_not_lt hless, ?_⟩
  · cases hmatched : v.matched with
    | false => rfl
    | true =>
        rw [hmatched, Bool.or_true] at hskip
        exact absurd rfl hskip
  · rw [add, if_neg Bool.false_ne_true]
    congr 1
    exact offset_since before v.offset

/-- The attempts were made in the source, each was meant to match and failed, and beyond the start
there are some. -/
structure Faithful (g : Grammar ρ) (source : Source) (a : Attempts ρ) : Prop where
  inside : (Cursor.ofOffset source a.offset).In source
  fails : ∀ r ∈ a.expected, g.answer false (.rule r) (.ofOffset source a.offset) = .fail
  unexpected : a.unexpected = []
  noted : a.offset ≠ 0 → a.expected ≠ []

namespace Faithful

variable {g : Grammar ρ} {source : Source} {before after : Attempts ρ}

theorem initial (g : Grammar ρ) (source : Source) : (initial : Attempts ρ).Faithful g source where
  inside := by
    have hstart : Cursor.ofText source = .ofOffset source 0 := (Cursor.In.ofText source).eq_ofOffset
    rw [show (Attempts.initial : Attempts ρ).offset = 0 from rfl, ← hstart]
    exact .ofText source
  fails := nofun
  unexpected := rfl
  noted := fun h => absurd rfl h

theorem since (h : before.Faithful g source) {c : Cursor} (hc : c.In source) :
    (∀ r ∈ (before.since c.offset).expected, g.answer false (.rule r) c = .fail) ∧
      (before.since c.offset).unexpected = [] := by
  unfold Attempts.since
  split
  · next hoffset =>
      refine ⟨fun r hr => ?_, h.unexpected⟩
      have hfail := h.fails r hr
      rwa [hoffset, ← hc.eq_ofOffset] at hfail
  · exact ⟨nofun, rfl⟩

theorem note (hbefore : before.Faithful g source) (hafter : after.Faithful g source) {c : Cursor}
    (hc : c.In source) {r : ρ} (hstuck : g.answer false (.rule r) c ≠ .stuck) (leavesPair : Bool) :
    (Attempts.note ⟨r, leavesPair, c.offset, false, (g.answer false (.rule r) c).matched⟩
      before after).Faithful g source := by
  rcases note_cases (v := ⟨r, leavesPair, c.offset, false, _⟩) rfl before after with
    ⟨hnote, -⟩ | ⟨hmatched, -, hnote⟩
  · rw [hnote]
    exact hafter
  · rw [hnote]
    obtain ⟨hsince, hunexpected⟩ := hbefore.since hc
    have hfail : g.answer false (.rule r) c = .fail := by
      cases hanswer : g.answer false (.rule r) c with
      | stuck => exact absurd hanswer hstuck
      | fail => rfl
      | ok ps c' =>
          rw [hanswer] at hmatched
          exact nomatch hmatched
    refine ⟨?_, ?_, hunexpected, fun _ => List.cons_ne_nil _ _⟩
    · rw [← hc.eq_ofOffset]
      exact hc
    · rw [← hc.eq_ofOffset]
      exact List.forall_mem_cons.mpr ⟨hfail, hsince⟩

end Faithful

end Attempts

end XiFront.Peg

import XiFront.Proofs.Grammar.Token
import XiFront.Proofs.Lowering.Outcome

namespace XiFront

namespace Lowering

/-- A literal succeeds, or it is bad and the error is at its position. -/
def LiteralCase (source : Source) (n : Node) (x : Except Error Literal) : Prop :=
  (¬n.BadLiteral source ∧ ∃ l, x = .ok l) ∨
    n.BadLiteral source ∧ ∃ text, x = .error (.malformed n.position text)

theorem intLiteral_settles {n : Node} (source : Source) (hr : n.rule = .intLiteral) :
    LiteralCase source n (intLiteral n source) := by
  by_cases hlt : Decimal.ofDigits 0 (n.text source) < intLimit
  · refine .inl ⟨?_, .int (Decimal.ofDigits 0 (n.text source)), ?_⟩
    · rintro (⟨-, hle⟩ | ⟨hr' | hr', -, -, -, -⟩ | ⟨hr', -, -⟩)
      · exact absurd hlt (Nat.not_lt.mpr hle)
      · exact nomatch hr.symm.trans hr'
      · exact nomatch hr.symm.trans hr'
      · exact nomatch hr.symm.trans hr'
    · simp only [intLiteral, hlt, if_true]
      rfl
  · refine .inr ⟨.number hr (Nat.not_lt.mp hlt), ?_⟩
    simp only [intLiteral, hlt, if_false]
    exact ⟨_, rfl⟩

theorem decoded_eq {n : Node} {source : Source} {quote : Char} {body : List Char}
    (htext : n.text source = quote :: (body ++ [quote])) (hquote : Escape.isQuote quote = true) :
    decoded n source =
      match Escape.decode body with
      | .ok text => .ok text
      | .error fault => .error (.malformed n.position fault.message) := by
  rw [decoded, htext, Escape.stripQuotes_eq hquote]
  cases Escape.decode body <;> rfl

theorem body_unique {quote quote' : Char} {body body' : List Char}
    (h : quote :: (body ++ [quote]) = quote' :: (body' ++ [quote'])) : body = body' := by
  obtain ⟨rfl, hbody⟩ := List.cons.inj h
  exact List.append_cancel_right hbody

theorem charLiteral_settles {t : Tree} (ht : t.WellFormed) {n : Node} (hn : n ∈ t.nodes)
    (hr : n.rule = .charLiteral) : LiteralCase t.source n (charLiteral n t.source) := by
  obtain ⟨c, c', htakes⟩ := ht.takes hn (by rw [hr]; rfl)
  rw [hr] at htakes
  obtain ⟨i, htext, hi⟩ := Escape.takes_charLiteral htakes
  have hspelled : Escape.Spelled [i] i.text := by simpa using Escape.Spelled.cons hi .nil
  have hbad : n.BadLiteral t.source ↔ ¬∃ c, Escape.decode i.text = .ok [c] := by
    constructor
    · rintro (⟨hr', -⟩ | ⟨-, htext', hbody, hmem, hfaulty⟩ | ⟨-, htext', hbody⟩) ⟨d, hd⟩
      · exact nomatch hr.symm.trans hr'
      · cases body_unique (htext.symm.trans htext')
        exact (Escape.decode_isOk_iff hbody).1.mp ⟨[d], hd⟩ _ hmem hfaulty
      · have hsame := body_unique (htext.symm.trans htext')
        generalize hblanks : [Escape.Item.spaces _] = is at hbody
        cases hbody with
        | nil => exact nomatch hblanks
        | cons hj hnil =>
            cases hblanks
            cases hnil
            rw [List.append_nil] at hsame
            rw [hsame] at hd
            exact ((Escape.decode_single_iff hj).mp ⟨d, hd⟩).2 _ rfl
    · intro hnone
      rw [Escape.decode_single_iff hi, not_and_or, not_not, not_forall] at hnone
      rcases hnone with hfaulty | ⟨blanks, hblanks⟩
      · exact .escape (.inl hr) htext hspelled List.mem_cons_self hfaulty
      · cases not_not.mp hblanks
        exact .blanks hr htext hspelled
  rw [charLiteral, decoded_eq htext rfl]
  by_cases hchar : ∃ c, Escape.decode i.text = .ok [c]
  · obtain ⟨d, hd⟩ := hchar
    exact .inl ⟨fun h => hbad.mp h ⟨d, hd⟩, .char d, by rw [hd]; rfl⟩
  · refine .inr ⟨hbad.mpr hchar, ?_⟩
    cases hdecode : Escape.decode i.text with
    | error fault => exact ⟨_, rfl⟩
    | ok text =>
        match text, hdecode with
        | [], _ => exact ⟨_, rfl⟩
        | [d], hdecode => exact absurd ⟨d, hdecode⟩ hchar
        | _ :: _ :: _, _ => exact ⟨_, rfl⟩

theorem strLiteral_settles {t : Tree} (ht : t.WellFormed) {n : Node} (hn : n ∈ t.nodes)
    (hr : n.rule = .strLiteral) : LiteralCase t.source n (strLiteral n t.source) := by
  obtain ⟨c, c', htakes⟩ := ht.takes hn (by rw [hr]; rfl)
  rw [hr] at htakes
  obtain ⟨is, body, htext, hspelled⟩ := Escape.takes_strLiteral htakes
  rw [strLiteral, decoded_eq htext rfl]
  have hiff := (Escape.decode_isOk_iff hspelled).1
  cases hdecode : Escape.decode body with
  | ok text =>
      refine .inl ⟨?_, .str text, rfl⟩
      rintro (⟨hr', -⟩ | ⟨-, htext', hbody, hmem, hfaulty⟩ | ⟨hr', -, -⟩)
      · exact nomatch hr.symm.trans hr'
      · cases body_unique (htext.symm.trans htext')
        exact (Escape.decode_isOk_iff hbody).1.mp ⟨text, hdecode⟩ _ hmem hfaulty
      · exact nomatch hr.symm.trans hr'
  | error fault =>
      have hsome : ¬∀ i ∈ is, ¬i.Faulty := by
        rw [← hiff, hdecode]
        exact nofun
      simp only [not_forall, not_not] at hsome
      obtain ⟨i, hi, hfaulty⟩ := hsome
      exact .inr ⟨.escape (.inr hr) htext hspelled hi hfaulty, _, rfl⟩

end Lowering

end XiFront

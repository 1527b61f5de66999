import XiFront.Proofs.Grammar.Trail
import XiFront.Proofs.Peg.Following

/-!
What a match begins with.  Every text begins with one kind of token, and of every expression it can
be computed which kinds its matches begin with.  Expressions with no kind in common never match at
the same place.
-/

namespace XiFront

open Peg

/-- The kinds of token that a match begins with; `any` says nothing. -/
inductive Lead where
  | sign (c : Char)
  | digit
  | word (k : Keyword)
  | name
  | any
  deriving DecidableEq

namespace Lead

def ofText? : List Char → Option Lead
  | [] => none
  | c :: cs =>
      if isWordStart c then
        match Keyword.all.find? fun k => k.spelling = (c :: cs).takeWhile isWordChar with
        | some k => some (word k)
        | none => some name
      else if c.isDigit then some digit
      else some (sign c)

theorem isWordStart_spelling (k : Keyword) :
    ∃ c cs, k.spelling = c :: cs ∧ isWordStart c = true := by
  cases k <;> exact ⟨_, _, rfl, by decide⟩

theorem ofText?_spelling (k : Keyword) {r : List Char}
    (hr : ∀ c ∈ r.head?, isWordChar c = false) : ofText? (k.spelling ++ r) = some (word k) := by
  obtain ⟨c, cs, hspelling, hc⟩ := isWordStart_spelling k
  have hfind : (Keyword.all.find? fun k' =>
      k'.spelling = (k.spelling ++ r).takeWhile isWordChar) = some k := by
    rw [takeWhile_word (spelling_isWord k) hr]
    cases hfind : Keyword.all.find? fun k' => k'.spelling = k.spelling with
    | none => exact absurd (List.find?_eq_none.mp hfind k k.mem_all) (by simp)
    | some k' =>
        have hk' : k'.spelling = k.spelling := by simpa using List.find?_some hfind
        rw [Keyword.spelling_injective hk']
  rw [hspelling, List.cons_append] at hfind ⊢
  rw [ofText?, if_pos hc, hfind]

theorem ofText?_identifier {w r : List Char} (hw : IsIdentifier w)
    (hr : ∀ c ∈ r.head?, isWordChar c = false) : ofText? (w ++ r) = some name := by
  obtain ⟨c, cs, rfl, hc⟩ := hw.start
  have hfind : (Keyword.all.find? fun k =>
      k.spelling = ((c :: cs) ++ r).takeWhile isWordChar) = none := by
    rw [takeWhile_word hw.word hr, List.find?_eq_none]
    intro k _ hk
    exact hw.free ⟨k, of_decide_eq_true hk⟩
  rw [List.cons_append] at hfind ⊢
  rw [ofText?, if_pos hc, hfind]

theorem ofText?_digit {c : Char} (hc : c.isDigit = true) (cs : List Char) :
    ofText? (c :: cs) = some digit := by
  have hstart : isWordStart c = false := by
    rw [isWordStart, Bool.or_eq_false_iff]
    constructor
    · delta Char.isAlpha Char.isUpper Char.isLower
      delta Char.isDigit at hc
      grind
    · rw [decide_eq_false_iff_not]
      rintro rfl
      exact absurd hc (by decide)
  rw [ofText?, hstart, if_neg Bool.false_ne_true, if_pos hc]

theorem ofText?_sign {c : Char} (hc : isWordChar c = false) (cs : List Char) :
    ofText? (c :: cs) = some (sign c) := by
  have hstart : isWordStart c = false := by
    by_contra h
    rw [Bool.not_eq_false] at h
    exact Bool.false_ne_true (hc.symm.trans (isWordChar_of_start h))
  have hdigit : c.isDigit = false := by
    simp only [isWordChar, Char.isAlphanum, Bool.or_eq_false_iff] at hc
    exact hc.1.2
  rw [ofText?, hstart, hdigit, if_neg Bool.false_ne_true,
    if_neg Bool.false_ne_true]

def At (text : List Char) (l : Lead) : Prop :=
  l = any ∨ ofText? text = some l

theorem At.eq {text : List Char} {l l' : Lead} (h : l.At text) (h' : l'.At text) (hl : l ≠ any)
    (hl' : l' ≠ any) : l = l' :=
  Option.some.inj ((h.resolve_left hl).symm.trans (h'.resolve_left hl'))

end Lead

/-- The kinds of token that a match begins with, given the same of each rule. -/
def Peg.Expr.leads (rules : Rule → List Lead) : Expr Rule → List Lead
  | .text [] | .start | .finish | .neg _ => []
  | .text (c :: _) => [if isWordChar c then .any else .sign c]
  | .char set => [if set = .digit then .digit else .any]
  | .rule (.kw k) => [.word k]
  | .rule .ident => [.name]
  | .rule r => rules r
  | .seq a b => a.leads rules ++ if a.nullable Rule.isEmpty then b.leads rules else []
  | .alt a b => a.leads rules ++ b.leads rules
  | .opt a | .star a | .more a => a.leads rules

/-- The same for a rule, found by following rules at most `depth` deep. -/
def Rule.leads : Nat → Rule → List Lead
  | 0, _ => [.any]
  | depth + 1, r => (production r).body.leads (leads depth)

theorem lead_kw {k : Keyword} {c c' : Cursor} {s : Source}
    (h : grammar.Takes (.rule (.kw k)) c s c') : Lead.ofText? c.rest = some (.word k) := by
  obtain ⟨s₁, c₁, s₂, rfl, h₁, h₂⟩ := Grammar.takes_seq.mp (Grammar.takes_rule.mp h)
  obtain ⟨rfl, hread⟩ := Grammar.takes_text.mp h₁
  obtain ⟨hstop, rfl, rfl⟩ := Grammar.takes_neg.mp h₂
  rw [hread.rest]
  exact Lead.ofText?_spelling k (isClass_identChar.fails_iff.mp hstop).head?

theorem lead_ident {c c' : Cursor} {s : Source} (h : grammar.Takes (.rule .ident) c s c') :
    Lead.ofText? c.rest = some .name := by
  obtain ⟨hident, hstop⟩ := takes_ident_stops h
  rw [h.2.rest]
  exact Lead.ofText?_identifier hident hstop

theorem lead_of_rounds {fuel : Nat} {tight : Bool} {e : Expr Rule} {c c' : Cursor}
    {ps : List (Pair Rule)} (hfirm : IsFirm c.rest)
    (h : grammar.rounds fuel tight e c = .ok ps c') (depth : Nat) :
    c' = c ∨ ∃ l ∈ e.leads (Rule.leads depth), l.At c.rest := by
  induction fuel generalizing tight e ps c' depth with
  | zero => exact nomatch h
  | succ fuel ih =>
      have hcases := Grammar.round_eq_ok h
      have hskip {qs : List (Pair Rule)} {d : Cursor}
          (h : grammar.skip (grammar.rounds fuel) tight c = .ok qs d) : d = c := by
        cases tight with
        | true => exact (Reply.ok.inj h).2.symm
        | false =>
            exact (Reply.ok.inj ((Grammar.answer_of_rounds h).symm.trans
              (answer_filler_firm hfirm))).2
      cases e with
      | text chars =>
          cases chars with
          | nil => exact .inl hcases.2.eq_of_nil
          | cons y ys =>
              right
              refine ⟨_, List.mem_singleton_self _, ?_⟩
              rw [hcases.2.rest]
              cases hy : isWordChar y with
              | true => exact .inl rfl
              | false => exact .inr (Lead.ofText?_sign hy _)
      | char set =>
          obtain ⟨-, y, hy, hread⟩ := hcases
          right
          refine ⟨_, List.mem_singleton_self _, ?_⟩
          rw [hread.rest]
          split
          · next hset =>
              rw [hset] at hy
              exact .inr (Lead.ofText?_digit hy _)
          · exact .inl rfl
      | start => exact .inl hcases.2.1
      | finish => exact .inl hcases.2.1
      | neg a => exact .inl hcases.2.2
      | rule r =>
          obtain ⟨cs, hcs, -⟩ := hcases
          have htakes (htight : (grammar.production r).tight = true) :
              ∃ s, grammar.Takes (.rule r) c s c' := by
            rw [htight, Bool.or_true] at hcs
            obtain ⟨s, hs⟩ := Grammar.takes_of_answer (Grammar.answer_of_rounds hcs)
            exact ⟨s, Grammar.takes_rule.mpr hs⟩
          cases r with
          | kw k =>
              obtain ⟨s, hs⟩ := htakes rfl
              exact .inr ⟨.word k, List.mem_singleton_self _, .inr (lead_kw hs)⟩
          | ident =>
              obtain ⟨s, hs⟩ := htakes rfl
              exact .inr ⟨.name, List.mem_singleton_self _, .inr (lead_ident hs)⟩
          | _ =>
              cases depth with
              | zero => exact .inr ⟨.any, List.mem_singleton_self _, .inl rfl⟩
              | succ depth => exact ih hcs depth
      | seq a b =>
          obtain ⟨ps₁, c₁, ps₂, c₂, ps₃, h₁, h₂, h₃, -⟩ := hcases
          rcases ih h₁ depth with rfl | ⟨l, hl, hat⟩
          · cases hskip h₂
            rcases ih h₃ depth with hend | ⟨l, hl, hat⟩
            · exact .inl hend
            · cases hnull : a.nullable Rule.isEmpty with
              | true => exact .inr ⟨l, List.mem_append_right _ (by rw [if_pos hnull]; exact hl), hat⟩
              | false =>
                  obtain ⟨s, hs, hne⟩ := answer_reads_something hnull (Grammar.answer_of_rounds h₁)
                  exact absurd (hs.unique (.refl _)) hne
          · exact .inr ⟨l, List.mem_append_left _ hl, hat⟩
      | alt a b =>
          rcases hcases with h₁ | ⟨-, h₁⟩
          · exact (ih h₁ depth).imp_right fun ⟨l, hl, hat⟩ => ⟨l, List.mem_append_left _ hl, hat⟩
          · exact (ih h₁ depth).imp_right fun ⟨l, hl, hat⟩ => ⟨l, List.mem_append_right _ hl, hat⟩
      | opt a =>
          rcases hcases with h₁ | ⟨-, -, hc⟩
          · exact ih h₁ depth
          · exact .inl hc
      | star a =>
          rcases hcases with ⟨ps₁, c₁, ps₂, h₁, h₂, -⟩ | ⟨-, -, hc⟩
          · rcases ih h₁ depth with rfl | hlead
            · exact ih h₂ depth
            · exact .inr hlead
          · exact .inl hc
      | more a =>
          rcases hcases with ⟨ps₁, c₁, ps₂, c₂, ps₃, h₁, h₂, h₃, -⟩ | ⟨-, hc⟩
          · cases hskip h₁
            rcases ih h₂ depth with rfl | hlead
            · exact ih h₃ depth
            · exact .inr hlead
          · exact .inl hc

theorem lead_of_answer {tight : Bool} {e : Expr Rule} {c c' : Cursor} {ps : List (Pair Rule)}
    (hfirm : IsFirm c.rest) (hnull : e.nullable Rule.isEmpty = false)
    (h : grammar.answer tight e c = .ok ps c') (depth : Nat) :
    ∃ l ∈ e.leads (Rule.leads depth), l.At c.rest := by
  obtain ⟨n, hn⟩ := grammar.settles_rounds tight e c
  apply (lead_of_rounds hfirm ((hn n (Nat.le_refl n)).trans h) depth).resolve_left
  rintro rfl
  obtain ⟨s, hs, hne⟩ := answer_reads_something hnull h
  exact hne (hs.unique (.refl _))

/-- Where a text begins with another kind of token, or is at its end, an expression fails. -/
theorem answer_eq_fail_of_lead {e : Expr Rule} {c : Cursor} (hfirm : IsFirm c.rest)
    (hfits : ranking.Fits false e) (hnull : e.nullable Rule.isEmpty = false) (depth : Nat)
    (hleads : ∀ l ∈ e.leads (Rule.leads depth), l ≠ .any ∧ Lead.ofText? c.rest ≠ some l) :
    grammar.answer false e c = .fail := by
  apply Grammar.eq_fail_of_ne_ok (ranking.answer_ne_stuck hfits c)
  intro ps d hok
  obtain ⟨l, hl, hat⟩ := lead_of_answer hfirm hnull hok depth
  exact hat.elim (hleads l hl).1 (hleads l hl).2

/-- Whether an expression never begins with a kind of token. -/
def Peg.Expr.avoids (depth : Nat) (e : Expr Rule) (l : Lead) : Bool :=
  !e.nullable Rule.isEmpty && e.within Rule.isEmpty Rule.rank Rule.fillerRank grammar.depth &&
    (e.leads (Rule.leads depth)).all fun l' => decide (l' ≠ .any ∧ l' ≠ l)

theorem Fails.of_avoids {e : Expr Rule} {text : List Char} {l : Lead} (depth : Nat)
    (h : e.avoids depth l = true) (hfirm : IsFirm text) (hl : Lead.ofText? text = some l) :
    Fails e text := by
  simp only [Expr.avoids, Bool.and_eq_true, Bool.not_eq_true', List.all_eq_true,
    decide_eq_true_eq] at h
  obtain ⟨⟨hnull, hfits⟩, hleads⟩ := h
  rintro c rfl
  apply answer_eq_fail_of_lead hfirm hfits hnull depth
  intro l' hl'
  refine ⟨(hleads l' hl').1, fun h => (hleads l' hl').2 ?_⟩
  exact Option.some.inj (h.symm.trans hl)

/-- Whether two expressions have no kind of token in common. -/
def Peg.Expr.leadsApart (depth : Nat) (a b : Expr Rule) : Bool :=
  !a.nullable Rule.isEmpty && !b.nullable Rule.isEmpty &&
    decide (Lead.any ∉ b.leads (Rule.leads depth)) &&
    (a.leads (Rule.leads depth)).all fun l => decide (l ≠ .any ∧ l ∉ b.leads (Rule.leads depth))

theorem ne_ok_of_leadsApart {a b : Expr Rule} {depth : Nat} (h : a.leadsApart depth b = true)
    {c d : Cursor} {ps : List (Pair Rule)} (hfirm : IsFirm c.rest)
    (hlead : c.rest = [] ∨ ∃ l ∈ b.leads (Rule.leads depth), l.At c.rest) :
    grammar.answer false a c ≠ .ok ps d := by
  simp only [Expr.leadsApart, Bool.and_eq_true, Bool.not_eq_true', decide_eq_true_eq,
    List.all_eq_true] at h
  obtain ⟨⟨⟨hnull, -⟩, hany⟩, hleads⟩ := h
  intro ha
  obtain ⟨l, hl, hat⟩ := lead_of_answer hfirm hnull ha depth
  obtain ⟨hne, hnot⟩ := hleads l hl
  rcases hlead with hrest | ⟨l', hl', hat'⟩
  · rw [hrest] at hat
    exact nomatch hat.resolve_left hne
  · apply hnot
    rw [hat.eq hat' hne fun h => hany (h ▸ hl')]
    exact hl'

theorem apart_of_leads {a b : Expr Rule} (depth : Nat) (h : a.leadsApart depth b = true) :
    grammar.Apart a b := by
  intro c ps d qs e hfirm ha hb
  have hfirm' : IsFirm c.rest := (Reaches.of_filler hfirm).2
  have hnull : b.nullable Rule.isEmpty = false := by
    simp only [Expr.leadsApart, Bool.and_eq_true, Bool.not_eq_true'] at h
    exact h.1.1.2
  exact ne_ok_of_leadsApart h hfirm' (.inr (lead_of_answer hfirm' hnull hb depth)) ha

theorem firm_of_filler {c d : Cursor} {ps : List (Pair Rule)}
    (h : grammar.answer true grammar.filler c = .ok ps d) :
    grammar.answer true grammar.filler d = .ok [] d :=
  answer_filler_firm (Reaches.of_filler h).2

end XiFront

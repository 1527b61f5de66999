import XiFront.Proofs.Grammar.Token

namespace XiFront

open Peg

/-- In front of `rest` the expression reads `text`, without filler. -/
def Spans (e : Expr Rule) (text rest : List Char) : Prop :=
  ∀ offset, grammar.Takes e ⟨text ++ rest, offset⟩ text
    ⟨rest, offset + Source.byteLength text⟩

/-- The expression matches nothing in front of `rest`. -/
def Misses (e : Expr Rule) (rest : List Char) : Prop :=
  ∀ offset, grammar.answer true e ⟨rest, offset⟩ = .fail

variable {a b : Expr Rule} {s t rest : List Char}

namespace Misses

theorem of_class {p : Char → Bool} (h : grammar.IsClass a p)
    (hrest : ∀ c ∈ rest.head?, p c = false) : Misses a rest := by
  intro offset
  refine h.fails_iff.mpr fun y ys hy => ?_
  exact hrest y (by rw [show rest = y :: ys from hy]; rfl)

theorem symbol {x : Char} (h : ∀ c ∈ rest.head?, x ≠ c) : Misses (Rule.symbol x) rest :=
  of_class (isClass_symbol x) fun c hc => decide_eq_false (h c hc)

theorem text {chars : List Char} (h : ¬chars <+: rest) : Misses (.text chars) rest := by
  intro offset
  exact grammar.answer_text_eq_fail_iff.mpr h

theorem seq (h : Misses a rest) : Misses (.seq a b) rest := by
  intro offset
  exact Grammar.fails_seq_iff.mpr (.inl (h offset))

theorem rule {r : Rule} (h : Misses (Rule.production r).body rest) : Misses (.rule r) rest := by
  intro offset
  rw [Grammar.answer_rule_tight]
  exact h offset

theorem of_neg (h : Spans a s t) : Misses (.seq (.neg a) b) (s ++ t) := by
  intro offset
  refine Grammar.fails_seq_iff.mpr (.inl ?_)
  rw [Grammar.answer_neg, (h offset).1]
  rfl

end Misses

namespace Spans

theorem of_class {p : Char → Bool} {y : Char} (h : grammar.IsClass a p) (hy : p y = true) :
    Spans a [y] rest := by
  intro offset
  exact h.takes.mpr ⟨y, hy, rfl, rfl, rfl⟩

theorem text {chars : List Char} : Spans (.text chars) chars rest := by
  intro offset
  exact Grammar.takes_text.mpr ⟨rfl, rfl, rfl⟩

theorem of_run {p : Char → Bool} (h : grammar.IsClass a p) (hs : ∀ c ∈ s, p c = true)
    (hrest : ∀ c ∈ rest.head?, p c = false) : Spans (.star a) s rest := by
  intro offset
  refine h.takes_star.mpr ⟨hs, ⟨rfl, rfl⟩, fun y ys hy => ?_⟩
  exact hrest y (by rw [show rest = y :: ys from hy]; rfl)

theorem seq (ha : Spans a s (t ++ rest)) (hb : Spans b t rest) :
    Spans (.seq a b) (s ++ t) rest := by
  intro offset
  rw [Source.byteLength_append, ← Nat.add_assoc, List.append_assoc]
  exact Grammar.takes_seq.mpr ⟨s, _, t, rfl, ha offset, hb _⟩

theorem alt_left (h : Spans a s rest) : Spans (.alt a b) s rest := by
  intro offset
  exact Grammar.takes_alt.mpr (.inl (h offset))

theorem alt_right (ha : Misses a (s ++ rest)) (hb : Spans b s rest) :
    Spans (.alt a b) s rest := by
  intro offset
  exact Grammar.takes_alt.mpr (.inr ⟨ha offset, hb offset⟩)

theorem opt_some (h : Spans a s rest) : Spans (.opt a) s rest := by
  intro offset
  exact Grammar.takes_opt.mpr (.inl (h offset))

theorem opt_none (h : Misses a rest) : Spans (.opt a) [] rest := by
  intro offset
  exact Grammar.takes_opt.mpr (.inr ⟨h offset, rfl, rfl⟩)

theorem star_nil (h : Misses a rest) : Spans (.star a) [] rest := by
  intro offset
  exact Grammar.takes_star.mpr (.inr ⟨h offset, rfl, rfl⟩)

theorem star_cons (ha : Spans a s (t ++ rest)) (hb : Spans (.star a) t rest) :
    Spans (.star a) (s ++ t) rest := by
  intro offset
  rw [Source.byteLength_append, ← Nat.add_assoc, List.append_assoc]
  exact Grammar.takes_star.mpr (.inl ⟨s, _, t, rfl, ha offset, hb _⟩)

theorem neg (h : Misses a rest) : Spans (.neg a) [] rest := by
  intro offset
  exact Grammar.takes_neg.mpr ⟨h offset, rfl, rfl⟩

theorem rule {r : Rule} (h : Spans (Rule.production r).body s rest) :
    Spans (.rule r) s rest := by
  intro offset
  exact Grammar.takes_rule.mpr (h offset)

end Spans

namespace Escape

theorem misses_hexByte (h : ∀ c ∈ rest.head?, 'x' ≠ c) : Misses (.rule .hexByte) rest :=
  .rule (.seq (.symbol h))

theorem misses_decByte (h : ∀ c ∈ rest.head?, c.isDigit = false) :
    Misses (.rule .decByte) rest :=
  .rule (.seq (.of_class isClass_digit h))

theorem misses_uniChar (h : ∀ c ∈ rest.head?, 'u' ≠ c) : Misses (.rule .uniChar) rest := by
  refine .rule (.seq (.text ?_))
  rintro ⟨r, hr⟩
  exact h 'u' (by rw [← hr]; rfl) rfl

theorem spans_decByte {digits : List Char} (h : (Item.decimal digits).SpelledBefore rest) :
    Spans (.rule .decByte) digits rest := by
  obtain ⟨⟨hne, hlen, hdigits⟩, hrest⟩ := h
  have hdigit {d : Char} {r : List Char} (hd : d ∈ digits) : Spans (.char .digit) [d] r :=
    .of_class isClass_digit (hdigits d hd)
  have hstop (hlt : digits.length < 3) : Misses (.char .digit) rest :=
    .of_class isClass_digit (hrest hlt)
  apply Spans.rule
  match digits, hlen with
  | [d₁], _ =>
      exact (hdigit (by simp)).seq (.seq (t := []) (.opt_none (hstop (by simp)))
        (.opt_none (hstop (by simp))))
  | [d₁, d₂], _ =>
      exact .seq (t := [d₂]) (hdigit (by simp)) (.seq (t := []) (.opt_some (hdigit (by simp)))
        (.opt_none (hstop (by simp))))
  | [d₁, d₂, d₃], _ =>
      exact .seq (t := [d₂, d₃]) (hdigit (by simp)) (.seq (t := [d₃])
        (.opt_some (hdigit (by simp))) (.opt_some (hdigit (by simp))))

theorem spans_uniChar {digits : List Char} (hne : digits ≠ [])
    (hdigits : ∀ d ∈ digits, isHexDigit d = true) :
    Spans (.rule .uniChar) ('u' :: '\x7b' :: (digits ++ ['\x7d'])) rest := by
  obtain ⟨d, ds, rfl⟩ := List.exists_cons_of_ne_nil hne
  rw [List.forall_mem_cons] at hdigits
  have hstop : ∀ c ∈ ('\x7d' :: rest).head?, isHexDigit c = false := by
    intro c hc
    cases Option.some.inj hc
    decide
  apply Spans.rule
  refine .seq (s := ['u', '\x7b']) .text (.seq (s := d :: ds) (.seq (s := [d]) ?_ ?_) .text)
  · exact .of_class isClass_hexDigit hdigits.1
  · exact .of_run isClass_hexDigit hdigits.2 hstop

theorem spans_character {i : Item} (h : i.SpelledBefore rest) :
    Spans (.rule .character) i.text rest := by
  have hslash {s : List Char}
      (hs : Spans (.oneOf (.rule .hexByte)
        [.rule .decByte, .rule .uniChar, .rule .single, .rule .spaces]) s rest) :
      Spans (.rule .character) ('\\' :: s) rest :=
    .rule (.alt_left (.rule (.seq (s := ['\\']) .text hs)))
  cases i with
  | plain d =>
      refine .rule (.alt_right (.rule (.seq (.symbol ?_))) (.of_class isClass_regular ?_))
      · rintro c hc rfl
        exact h.1 (Option.some.inj hc)
      · simp [h.1, h.2.1, h.2.2]
  | single d =>
      have hd : (simple? d).isSome = true := h
      refine hslash (.alt_right (misses_hexByte ?_) (.alt_right (misses_decByte ?_)
        (.alt_right (misses_uniChar ?_) (.alt_left (.of_class isClass_single hd)))))
      · rintro c hc rfl
        cases Option.some.inj hc
        exact nomatch hd
      · intro c hc
        cases Option.some.inj hc
        unfold simple? at hd
        split at hd <;> first | rfl | exact nomatch hd
      · rintro c hc rfl
        cases Option.some.inj hc
        exact nomatch hd
  | byte high low =>
      refine hslash (.alt_left (.rule (.seq (s := ['x']) .text (.seq (s := [high]) ?_ ?_))))
      · exact .of_class isClass_hexDigit h.1
      · exact .of_class isClass_hexDigit h.2
  | decimal digits =>
      refine hslash (.alt_right (misses_hexByte ?_) (.alt_left (spans_decByte h)))
      obtain ⟨d, ds, rfl⟩ := List.exists_cons_of_ne_nil h.1.1
      rintro c hc rfl
      cases Option.some.inj hc
      exact absurd (h.1.2.2 'x' List.mem_cons_self) (by decide)
  | unicode digits =>
      refine hslash (.alt_right (misses_hexByte ?_) (.alt_right (misses_decByte ?_)
        (.alt_left (spans_uniChar h.1 h.2))))
      · rintro c hc rfl
        exact nomatch hc
      · intro c hc
        cases Option.some.inj hc
        rfl
  | spaces blanks =>
      refine hslash (.alt_right (misses_hexByte ?_) (.alt_right (misses_decByte ?_)
        (.alt_right (misses_uniChar ?_) (.alt_right (.of_class isClass_single ?_) ?_))))
      · rintro c hc rfl
        exact nomatch hc
      · intro c hc
        cases Option.some.inj hc
        rfl
      · rintro c hc rfl
        exact nomatch hc
      · intro c hc
        cases Option.some.inj hc
        rfl
      · exact .rule (.seq (s := ['z']) .text (.of_run isClass_space h.1 h.2))

theorem Item.SpelledBefore.congr {i : Item} {r r' : List Char} (h : i.SpelledBefore r)
    (hhead : r.head? = r'.head?) : i.SpelledBefore r' := by
  cases i with
  | plain c => exact h
  | single c => exact h
  | byte high low => exact h
  | decimal digits => exact ⟨h.1, hhead ▸ h.2⟩
  | unicode digits => exact h
  | spaces blanks => exact ⟨h.1, hhead ▸ h.2⟩

theorem spans_charLiteral {c c' : Cursor} (h : grammar.Takes (.rule .charLiteral) c s c')
    (rest : List Char) : Spans (.rule .charLiteral) s rest := by
  obtain ⟨c₁, t, c₂, rfl, ht, hrest⟩ := Grammar.takes_between (Grammar.takes_rule.mp h)
  obtain ⟨i, rfl, hi⟩ := takes_character ht
  rw [hrest] at hi
  exact .rule (.seq .text (.seq (spans_character (hi.congr rfl)) .text))

theorem spans_characters {c c' : Cursor}
    (h : grammar.Takes (.star (.seq (.neg (Rule.symbol '"')) (.rule .character))) c s c')
    (hquote : c'.rest.head? = some '"') (rest : List Char) :
    Spans (.star (.seq (.neg (Rule.symbol '"')) (.rule .character))) s ('"' :: rest) := by
  induction hlength : s.length using Nat.strongRecOn generalizing c s with
  | ind length ih =>
      subst hlength
      rcases Grammar.takes_star.mp h with ⟨s₁, c₁, s₂, rfl, h₁, h₂⟩ | ⟨-, rfl, -⟩
      · obtain ⟨s₃, c₃, s₄, rfl, h₃, h₄⟩ := Grammar.takes_seq.mp h₁
        obtain ⟨hneg, rfl, rfl⟩ := Grammar.takes_neg.mp h₃
        obtain ⟨i, rfl, hi⟩ := takes_character h₄
        obtain ⟨y, ys, hy⟩ : ∃ y ys, i.text = y :: ys := by cases i <;> exact ⟨_, _, rfl⟩
        have hlt : s₂.length < ([] ++ i.text ++ s₂).length := by
          simp only [List.nil_append, List.length_append, hy, List.length_cons]
          omega
        have hrest := ih s₂.length hlt h₂ rfl
        have hopen : Misses (Rule.symbol '"') (i.text ++ (s₂ ++ '"' :: rest)) := by
          refine .symbol fun z hz => ?_
          rw [hy] at hz
          cases Option.some.inj hz
          have hstop := (isClass_symbol '"').fails_iff.mp hneg y (ys ++ c₁.rest)
            (by rw [h₄.2.rest, hy]; rfl)
          exact of_decide_eq_false hstop
        refine .star_cons (.seq (s := []) (.neg hopen) (spans_character (hi.congr ?_))) hrest
        rw [h₂.2.rest, List.head?_append, List.head?_append, hquote]
        rfl
      · exact .star_nil (.of_neg (s := ['"']) .text)

theorem spans_strLiteral {c c' : Cursor} (h : grammar.Takes (.rule .strLiteral) c s c')
    (rest : List Char) : Spans (.rule .strLiteral) s rest := by
  obtain ⟨c₁, t, c₂, rfl, ht, hrest⟩ := Grammar.takes_between (Grammar.takes_rule.mp h)
  refine .rule (.seq .text (.seq (spans_characters ht ?_ rest) .text))
  rw [hrest]
  rfl

end Escape

end XiFront

import XiFront.Proofs.Grammar.Cut

namespace XiFront

open Peg

namespace Escape

namespace Item

/-- The rule that reads an item, past the backslash of an escape. -/
def rule : Item → Rule
  | plain _ => .regular
  | single _ => .single
  | byte _ _ => .hexByte
  | decimal _ => .decByte
  | unicode _ => .uniChar
  | spaces _ => .spaces

def inside : Item → List Char
  | plain c => [c]
  | single c => [c]
  | byte high low => ['x', high, low]
  | decimal digits => digits
  | unicode digits => 'u' :: '\x7b' :: (digits ++ ['\x7d'])
  | spaces blanks => 'z' :: blanks

/-- In front of `rest` the grammar reads the item as one character of a literal, and it reads it by
the rule of its kind. -/
def ReadBefore (rest : List Char) (i : Item) : Prop :=
  Spans (.rule .character) i.text rest ∧ Spans (.rule i.rule) i.inside rest

end Item

/-- The items that the grammar reads one after another, up to `after`. -/
inductive Split (after : List Char) : List Item → List Char → Prop
  | nil : Split after [] after
  | cons {i : Item} {is : List Item} {rest : List Char} (h : i.ReadBefore rest)
      (hrest : Split after is rest) : Split after (i :: is) (i.text ++ rest)

theorem Item.readBefore_iff {i : Item} {rest : List Char} :
    i.ReadBefore rest ↔ i.SpelledBefore rest := by
  constructor
  · rintro ⟨-, h⟩
    have htakes := h 0
    cases i with
    | plain c =>
        obtain ⟨d, hd, hsame, -⟩ := isClass_regular.takes.mp htakes
        cases hsame
        simp only [Bool.not_eq_true', decide_eq_false_iff_not, List.mem_cons, List.not_mem_nil,
          or_false, not_or] at hd
        exact ⟨hd.2.2, hd.1, hd.2.1⟩
    | single c =>
        obtain ⟨d, hd, hsame, -⟩ := isClass_single.takes.mp htakes
        cases hsame
        exact hd
    | byte high low =>
        obtain ⟨a, b, hsame, ha, hb⟩ := takes_hexByte htakes
        cases hsame
        exact ⟨ha, hb⟩
    | decimal digits => exact takes_decByte htakes
    | unicode digits =>
        obtain ⟨ds, hsame, hne, hds⟩ := takes_uniChar htakes
        cases List.append_cancel_right (List.cons.inj (List.cons.inj hsame).2).2
        exact ⟨hne, hds⟩
    | spaces blanks =>
        obtain ⟨bs, hsame, hbs⟩ := takes_spaces htakes
        cases hsame
        exact hbs
  · intro h
    refine ⟨spans_character h, ?_⟩
    cases i with
    | plain c => exact .of_class isClass_regular (by simp [h.1, h.2.1, h.2.2])
    | single c => exact .of_class isClass_single h
    | byte high low =>
        refine .rule (.seq (s := ['x']) .text (.seq (s := [high]) ?_ ?_))
        · exact .of_class isClass_hexDigit h.1
        · exact .of_class isClass_hexDigit h.2
    | decimal digits => exact spans_decByte h
    | unicode digits => exact spans_uniChar h.1 h.2
    | spaces blanks => exact .rule (.seq (s := ['z']) .text (.of_run isClass_space h.1 h.2))

theorem Split.spelled {after body : List Char} {is : List Item} (h : Split after is body) :
    ∃ inner, body = inner ++ after ∧ Spelled is inner := by
  induction h with
  | nil => exact ⟨[], rfl, .nil⟩
  | @cons i is rest hi _ ih =>
      obtain ⟨inner, rfl, hinner⟩ := ih
      refine ⟨i.text ++ inner, (List.append_assoc ..).symm, .cons ?_ hinner⟩
      exact (Item.readBefore_iff.mp hi).of_append

/-- A quote ends numbers and blanks, so an item is read alike with the quote behind the body. -/
theorem Item.SpelledBefore.append_quote {i : Item} {rest : List Char} {quote : Char}
    (h : i.SpelledBefore rest) (hquote : isQuote quote = true) :
    i.SpelledBefore (rest ++ [quote]) := by
  cases rest with
  | cons c cs => exact h.congr rfl
  | nil =>
      have hstops : Char.isDigit quote = false ∧ isSpace quote = false := by
        simp only [isQuote, Bool.or_eq_true, decide_eq_true_eq] at hquote
        rcases hquote with rfl | rfl <;> decide
      cases i with
      | plain c => exact h
      | single c => exact h
      | byte high low => exact h
      | decimal digits => exact ⟨h.1, fun _ c hc => Option.some.inj hc ▸ hstops.1⟩
      | unicode digits => exact h
      | spaces blanks => exact ⟨h.1, fun c hc => Option.some.inj hc ▸ hstops.2⟩

theorem Spelled.split {is : List Item} {inner : List Char} {quote : Char} (h : Spelled is inner)
    (hquote : isQuote quote = true) : Split [quote] is (inner ++ [quote]) := by
  induction h with
  | nil => exact .nil
  | cons hi _ ih =>
      rw [List.append_assoc]
      exact .cons (Item.readBefore_iff.mpr (hi.append_quote hquote)) ih

theorem isQuote_of_quote? {r : Rule} {quote : Char} (h : r.quote? = some quote) :
    isQuote quote = true := by
  obtain ⟨-, rfl⟩ | ⟨-, rfl⟩ := Rule.quote?_eq_some_iff.mp h <;> rfl

theorem takes_literal {r : Rule} {quote : Char} (hr : r.quote? = some quote) {tight : Bool}
    {c c' : Cursor} {ps : List (Pair Rule)} (h : grammar.answer tight (.rule r) c = .ok ps c') :
    ∃ s, grammar.Takes (.rule r) c s c' := by
  have htight : (grammar.production r).tight = true := by
    obtain ⟨rfl, -⟩ | ⟨rfl, -⟩ := Rule.quote?_eq_some_iff.mp hr <;> rfl
  cases tight with
  | true => exact Grammar.takes_of_answer h
  | false =>
      rw [Grammar.answer_rule_loose, htight] at h
      obtain ⟨qs, hbody, -⟩ := Reply.close_eq_ok_iff.mp h
      obtain ⟨s, hs⟩ := Grammar.takes_of_answer hbody
      exact ⟨s, Grammar.takes_rule.mpr hs⟩

theorem exists_split_of_takes {r : Rule} {quote : Char} (hr : r.quote? = some quote)
    {c c' : Cursor} {s : List Char} (h : grammar.Takes (.rule r) c s c') :
    ∃ is body, s = quote :: body ∧ Split [quote] is body := by
  have hquote := isQuote_of_quote? hr
  obtain ⟨rfl, rfl⟩ | ⟨rfl, rfl⟩ := Rule.quote?_eq_some_iff.mp hr
  · obtain ⟨is, inner, rfl, hspelled⟩ := takes_strLiteral h
    exact ⟨is, _, rfl, hspelled.split hquote⟩
  · obtain ⟨i, rfl, hi⟩ := takes_charLiteral h
    have hspelled : Spelled [i] (i.text ++ []) := .cons hi .nil
    rw [List.append_nil] at hspelled
    exact ⟨[i], _, rfl, hspelled.split hquote⟩

/-- The decoder agrees with the grammar on every literal.  However the grammar splits the literal
into items, if none of them is faulty, the literal stands for their values in order; only where a
form feed comes right after the blanks of a `z` are it and the blanks after it dropped as well. -/
theorem decode_literal {r : Rule} {quote : Char} (hr : r.quote? = some quote) {tight : Bool}
    {literal : List Char} {ps : List (Pair Rule)} {offset : Nat}
    (h : grammar.answer tight (.rule r) ⟨literal, 0⟩ = .ok ps ⟨[], offset⟩) :
    ∃ body, literal = quote :: body ∧ (∃ is, Split [quote] is body) ∧
      ∀ is, Split [quote] is body → (∀ i ∈ is, ¬i.Faulty) →
        decode (stripQuotes literal) = .ok (contents false is) ∧
          ((∀ blanks, ¬[.spaces blanks, .plain '\x0c'] <:+: is) →
            decode (stripQuotes literal) = .ok (is.flatMap Item.value)) := by
  obtain ⟨s, hs⟩ := takes_literal hr h
  obtain ⟨is, body, rfl, hsplit⟩ := exists_split_of_takes hr hs
  have hwhole : literal = quote :: body := by
    have hrest := hs.2.rest
    rwa [List.append_nil] at hrest
  subst hwhole
  refine ⟨body, rfl, ⟨is, hsplit⟩, fun js hjs hsound => ?_⟩
  obtain ⟨inner, rfl, hspelled⟩ := hjs.spelled
  rw [stripQuotes_eq (isQuote_of_quote? hr)]
  have hdecode := (decode_eq_contents hspelled hsound).1
  refine ⟨hdecode, fun hfeed => ?_⟩
  rw [hdecode, contents_eq_flatMap hspelled hfeed]

theorem decode_literal_mixed :
    grammar.answer false (.rule .strLiteral)
        ⟨['"', '\\', 'z', ' ', '\x0c', '\t', '\\', '6', '5', '\\', '"', 'é', '"'], 0⟩ =
          .ok [.node .strLiteral 0 14 []] ⟨[], 14⟩ ∧
      decode (stripQuotes
        ['"', '\\', 'z', ' ', '\x0c', '\t', '\\', '6', '5', '\\', '"', 'é', '"']) =
          .ok ['A', '"', 'é'] := by
  have hread : grammar.answer false (.rule .strLiteral)
      ⟨['"', '\\', 'z', ' ', '\x0c', '\t', '\\', '6', '5', '\\', '"', 'é', '"'], 0⟩ =
        .ok [.node .strLiteral 0 14 []] ⟨[], 14⟩ :=
    Grammar.answer_of_rounds (show grammar.rounds 40 false (.rule .strLiteral) _ = _ from rfl)
  have hspelled : Spelled [.spaces [' '], .plain '\x0c', .plain '\t', .decimal ['6', '5'],
      .single '"', .plain 'é'] ['\\', 'z', ' ', '\x0c', '\t', '\\', '6', '5', '\\', '"', 'é'] :=
    .cons ⟨by decide, by decide⟩ (.cons ⟨by decide, by decide, by decide⟩
      (.cons ⟨by decide, by decide, by decide⟩ (.cons ⟨by decide, by decide⟩
        (.cons rfl (.cons ⟨by decide, by decide, by decide⟩ .nil)))))
  obtain ⟨body, hbody, -, hdecode⟩ := decode_literal rfl hread
  obtain ⟨-, rfl⟩ := List.cons.inj hbody
  have hsound : ∀ i ∈ [Item.spaces [' '], .plain '\x0c', .plain '\t', .decimal ['6', '5'],
      .single '"', .plain 'é'], ¬i.Faulty := by
    simp [Item.Faulty, show Decimal.ofDigits 0 ['6', '5'] = 65 from rfl]
  exact ⟨hread, (hdecode _ (hspelled.split rfl) hsound).1⟩

/-- A form feed after the blanks of a `z` is an item of its own in the grammar, and is not decoded. -/
theorem decode_literal_formFeed :
    grammar.answer false (.rule .strLiteral) ⟨['"', '\\', 'z', '\x0c', '"'], 0⟩ =
        .ok [.node .strLiteral 0 5 []] ⟨[], 5⟩ ∧
      Split ['"'] [.spaces [], .plain '\x0c'] ['\\', 'z', '\x0c', '"'] ∧
      (∀ i ∈ [Item.spaces [], .plain '\x0c'], ¬i.Faulty) ∧
      decode (stripQuotes ['"', '\\', 'z', '\x0c', '"']) ≠
        .ok ([Item.spaces [], .plain '\x0c'].flatMap Item.value) := by
  have hspelled : Spelled [.spaces [], .plain '\x0c'] ['\\', 'z', '\x0c'] :=
    .cons ⟨by decide, by decide⟩ (.cons ⟨by decide, by decide, by decide⟩ .nil)
  have hsound : ∀ i ∈ [Item.spaces [], .plain '\x0c'], ¬i.Faulty := by simp [Item.Faulty]
  refine ⟨?_, hspelled.split rfl, hsound, ?_⟩
  · exact Grammar.answer_of_rounds
      (show grammar.rounds 40 false (.rule .strLiteral) _ = _ from rfl)
  · rw [show stripQuotes ['"', '\\', 'z', '\x0c', '"'] = ['\\', 'z', '\x0c'] from rfl,
      (decode_eq_contents hspelled hsound).1]
    intro hsame
    exact absurd (Except.ok.inj hsame) (by decide)

end Escape

end XiFront

import XiFront.Grammar
import XiFront.Proofs.Peg.Tight
import XiFront.Proofs.Text.Escape

namespace XiFront

open Peg

/-! What is said of some characters is decided by looking at them, not at all characters. -/

instance (priority := 2000) decidableForallMemList (cs : List Char) (P : Char → Prop)
    [DecidablePred P] : Decidable (∀ c ∈ cs, P c) :=
  List.decidableBAll P cs

instance (priority := 2000) decidableForallMemOption (c? : Option Char) (P : Char → Prop)
    [DecidablePred P] : Decidable (∀ c ∈ c?, P c) :=
  match c? with
  | none => isTrue nofun
  | some c => decidable_of_iff (P c) (by simp)

def isWordChar (c : Char) : Bool :=
  c.isAlphanum || decide ('_' = c)

def isWordStart (c : Char) : Bool :=
  c.isAlpha || decide ('_' = c)

theorem isClass_identChar : grammar.IsClass (.rule .identChar) isWordChar :=
  .rule ((Grammar.IsClass.char .alphanumeric).alt (.text '_'))

theorem isClass_wordStart :
    grammar.IsClass (.alt (.char .letter) (Rule.symbol '_')) isWordStart :=
  (Grammar.IsClass.char .letter).alt (.text '_')

theorem isClass_symbol (x : Char) :
    grammar.IsClass (Rule.symbol x) fun y => decide (x = y) :=
  .text x

theorem isClass_digit : grammar.IsClass (.char .digit) Char.isDigit :=
  .char .digit

theorem isClass_hexDigit : grammar.IsClass (.char .hexDigit) Escape.isHexDigit :=
  .char .hexDigit

theorem isClass_symbols (x : Char) (xs : List Char) :
    grammar.IsClass (Expr.oneOf (Rule.symbol x) (xs.map Rule.symbol)) fun y =>
      decide (y ∈ x :: xs) := by
  induction xs generalizing x with
  | nil =>
      intro c
      have hclass := isClass_symbol x c
      simpa [eq_comm] using hclass
  | cons z zs ih =>
      intro c
      have hclass := (isClass_symbol x).alt (ih z) c
      rw [List.map_cons, Expr.oneOf_cons, hclass]
      congr 2
      funext y
      simp [eq_comm]

theorem isClass_single :
    grammar.IsClass (.rule .single) fun y => (Escape.simple? y).isSome := by
  intro c
  have hclass := Grammar.IsClass.rule (g := grammar) (r := Rule.single)
    (isClass_symbols 'a' ['b', 'f', 'n', 'r', 't', 'v', '\\', '"', '\'', '\n']) c
  rw [hclass]
  congr 2
  funext y
  unfold Escape.simple?
  split <;> simp_all

theorem isClass_regular :
    grammar.IsClass (.rule .regular) fun y => !decide (y ∈ ['\r', '\n', '\\']) := by
  intro c
  have hclass := Grammar.IsClass.rule (g := grammar) (r := Rule.regular)
    ((isClass_symbols '\r' ['\n', '\\']).butNot (.char .any)) c
  rw [hclass]
  congr 2
  funext y
  simp

theorem isClass_space :
    grammar.IsClass
      (Expr.oneOf (Rule.symbol ' ') [Rule.symbol '\t', Rule.symbol '\r', Rule.symbol '\n'])
      Escape.isSpace := by
  intro c
  have hclass := isClass_symbols ' ' ['\t', '\r', '\n'] c
  refine hclass.trans ?_
  congr 2
  funext y
  simp [Escape.isSpace, Bool.or_assoc]

theorem Peg.Cursor.StopsAt.head? {c : Cursor} {p : Char → Bool} (h : c.StopsAt p) :
    ∀ y ∈ c.rest.head?, p y = false := by
  intro y hy
  obtain ⟨ys, hys⟩ := List.head?_eq_some_iff.mp hy
  exact h y ys hys

def IsReserved (w : List Char) : Prop :=
  ∃ k : Keyword, k.spelling = w

/-- An identifier is a word that is not reserved. -/
structure IsIdentifier (w : List Char) : Prop where
  start : ∃ c cs, w = c :: cs ∧ isWordStart c = true
  word : ∀ c ∈ w, isWordChar c = true
  free : ¬IsReserved w

theorem isWordChar_of_start {c : Char} (h : isWordStart c = true) : isWordChar c = true := by
  simp only [isWordStart, isWordChar, Char.isAlphanum, Bool.or_eq_true] at h ⊢
  exact h.imp_left .inl

theorem IsIdentifier.single {c : Char} (hc : isWordStart c = true) : IsIdentifier [c] := by
  refine ⟨⟨c, [], rfl, hc⟩, List.forall_mem_singleton.mpr (isWordChar_of_start hc), ?_⟩
  rintro ⟨k, hk⟩
  cases k <;> exact nomatch hk

theorem spelling_isWord (k : Keyword) : ∀ c ∈ k.spelling, isWordChar c = true := by
  cases k <;> decide

theorem Keyword.spelling_injective {k k' : Keyword} (h : k.spelling = k'.spelling) : k = k' := by
  have hall : ∀ k ∈ Keyword.all, ∀ k' ∈ Keyword.all, k.spelling = k'.spelling → k = k' := by
    decide +kernel
  exact hall k k.mem_all k' k'.mem_all h

theorem takeWhile_word {w r : List Char} (hw : ∀ c ∈ w, isWordChar c = true)
    (hr : ∀ c ∈ r.head?, isWordChar c = false) : (w ++ r).takeWhile isWordChar = w := by
  rw [List.takeWhile_append_of_pos hw]
  cases r with
  | nil => simp
  | cons y ys => simp [hr y rfl]

theorem word_unique {w w' r r' : List Char} (hw : ∀ c ∈ w, isWordChar c = true)
    (hw' : ∀ c ∈ w', isWordChar c = true) (hr : ∀ c ∈ r.head?, isWordChar c = false)
    (hr' : ∀ c ∈ r'.head?, isWordChar c = false) (h : w ++ r = w' ++ r') : w = w' := by
  rw [← takeWhile_word hw hr, h, takeWhile_word hw' hr']

theorem answer_word (k : Keyword) {w r : List Char} (hw : ∀ c ∈ w, isWordChar c = true)
    (hr : ∀ c ∈ r.head?, isWordChar c = false) (offset : Nat) :
    grammar.answer true (Rule.wordBody k.spelling) ⟨w ++ r, offset⟩ =
      if w = k.spelling then .ok [] ⟨r, offset + Source.byteLength w⟩ else .fail := by
  have hnext (c : Cursor) : grammar.answer true (.neg (.rule .identChar)) c =
      if ∀ y ∈ c.rest.head?, isWordChar y = false then .ok [] c else .fail := by
    rw [Grammar.answer_neg, isClass_identChar]
    obtain ⟨_ | ⟨y, ys⟩, offset⟩ := c
    · rfl
    · rw [Cursor.next?_cons]
      cases hy : isWordChar y <;> simp [hy]
  rw [Rule.wordBody, Grammar.answer_seq_tight, Grammar.answer_text]
  cases htext : (Cursor.mk (w ++ r) offset).text? k.spelling with
  | none =>
      rw [if_neg]
      · rfl
      · rintro rfl
        exact nomatch htext.symm.trans
          (Cursor.text?_eq_some_iff.mpr (Cursor.reads_append k.spelling r offset))
  | some c₁ =>
      have hreads := Cursor.text?_eq_some_iff.mp htext
      rw [Reply.ofOption_some, Reply.resume_ok, hnext]
      by_cases hstop : ∀ y ∈ c₁.rest.head?, isWordChar y = false
      · have heq : w = k.spelling := word_unique hw (spelling_isWord k) hr hstop hreads.rest
        subst heq
        rw [if_pos hstop, if_pos rfl, hreads.eq_mk.2,
          List.append_cancel_left (show k.spelling ++ r = k.spelling ++ c₁.rest from hreads.rest)]
        rfl
      · rw [if_neg hstop, if_neg]
        · rfl
        · rintro rfl
          have hrest : r = c₁.rest := List.append_cancel_left hreads.rest
          exact hstop (hrest ▸ hr)

theorem answer_oneOf_eq_fail_iff {tight : Bool} {e : Expr Rule} {es : List (Expr Rule)}
    {c : Cursor} :
    grammar.answer tight (.oneOf e es) c = .fail ↔
      ∀ d ∈ e :: es, grammar.answer tight d c = .fail := by
  induction es generalizing e with
  | nil => simp
  | cons d es ih =>
      rw [Expr.oneOf_cons, Grammar.answer_alt, List.forall_mem_cons, ← ih]
      cases grammar.answer tight e c <;> simp

/-- A choice is settled by one that matches, if the others fail or match alike. -/
theorem answer_oneOf_eq_ok {tight : Bool} {e : Expr Rule} {es : List (Expr Rule)}
    {c c' : Cursor} {ps : List (Pair Rule)} {d : Expr Rule} (hd : d ∈ e :: es)
    (hmatch : grammar.answer tight d c = .ok ps c')
    (hothers : ∀ d ∈ e :: es,
      grammar.answer tight d c = .ok ps c' ∨ grammar.answer tight d c = .fail) :
    grammar.answer tight (.oneOf e es) c = .ok ps c' := by
  induction es generalizing e with
  | nil =>
      cases List.mem_singleton.mp hd
      exact hmatch
  | cons e' es ih =>
      rw [List.forall_mem_cons] at hothers
      rw [Expr.oneOf_cons, Grammar.answer_alt]
      rcases hothers.1 with hfirst | hfirst
      · rw [hfirst, Reply.resume_ok]
      · rw [hfirst, Reply.resume_fail]
        refine ih ((List.mem_cons.mp hd).resolve_left ?_) hothers.2
        rintro rfl
        exact nomatch hfirst.symm.trans hmatch

theorem keyword_choices :
    Expr.rule (Rule.kw .as_) :: (Keyword.all.tail.map fun k => Expr.rule (Rule.kw k)) =
      Keyword.all.map fun k => Expr.rule (Rule.kw k) := rfl

theorem answer_kw_tight (k : Keyword) {w r : List Char} (hw : ∀ c ∈ w, isWordChar c = true)
    (hr : ∀ c ∈ r.head?, isWordChar c = false) (offset : Nat) :
    grammar.answer true (.rule (.kw k)) ⟨w ++ r, offset⟩ =
      if w = k.spelling then .ok [] ⟨r, offset + Source.byteLength w⟩ else .fail := by
  rw [Grammar.answer_rule_tight]
  exact answer_word k hw hr offset

theorem answer_keyword_of_reserved {w r : List Char} (hw : ∀ c ∈ w, isWordChar c = true)
    (hr : ∀ c ∈ r.head?, isWordChar c = false) (offset : Nat) (h : IsReserved w) :
    grammar.answer true (.rule .keyword) ⟨w ++ r, offset⟩ =
      .ok [] ⟨r, offset + Source.byteLength w⟩ := by
  obtain ⟨k, rfl⟩ := h
  rw [Grammar.answer_rule_tight]
  refine answer_oneOf_eq_ok (d := .rule (.kw k)) ?_
    ((answer_kw_tight k hw hr offset).trans (if_pos rfl)) ?_
  · rw [keyword_choices]
    exact List.mem_map_of_mem k.mem_all
  · rw [keyword_choices, List.forall_mem_map]
    intro k' _
    rw [answer_kw_tight k' hw hr offset]
    split
    · exact .inl rfl
    · exact .inr rfl

theorem answer_keyword_eq_fail_iff {w r : List Char} (hw : ∀ c ∈ w, isWordChar c = true)
    (hr : ∀ c ∈ r.head?, isWordChar c = false) (offset : Nat) :
    grammar.answer true (.rule .keyword) ⟨w ++ r, offset⟩ = .fail ↔ ¬IsReserved w := by
  constructor
  · intro h hreserved
    exact nomatch h.symm.trans (answer_keyword_of_reserved hw hr offset hreserved)
  · intro h
    rw [Grammar.answer_rule_tight]
    refine answer_oneOf_eq_fail_iff.mpr ?_
    rw [keyword_choices, List.forall_mem_map]
    intro k _
    exact (answer_kw_tight k hw hr offset).trans (if_neg fun heq => h ⟨k, heq.symm⟩)

theorem takes_kw {k : Keyword} {c c' : Cursor} {s : Source}
    (h : grammar.Takes (.rule (.kw k)) c s c') : s = k.spelling := by
  obtain ⟨s₁, c₁, s₂, rfl, h₁, h₂⟩ := Grammar.takes_seq.mp (Grammar.takes_rule.mp h)
  obtain ⟨rfl, -⟩ := Grammar.takes_text.mp h₁
  obtain ⟨-, rfl, -⟩ := Grammar.takes_neg.mp h₂
  rw [List.append_nil]

/-- An identifier is read to its end. -/
theorem takes_ident_stops {c c' : Cursor} {s : Source}
    (h : grammar.Takes (.rule .ident) c s c') :
    IsIdentifier s ∧ ∀ y ∈ c'.rest.head?, isWordChar y = false := by
  obtain ⟨s₁, c₁, s₂, rfl, h₁, h₂⟩ := Grammar.takes_seq.mp (Grammar.takes_rule.mp h)
  obtain ⟨s₃, c₃, s₄, rfl, h₃, h₄⟩ := Grammar.takes_seq.mp h₂
  obtain ⟨hfree, rfl, rfl⟩ := Grammar.takes_neg.mp h₁
  obtain ⟨y, hy, rfl, hread⟩ := isClass_wordStart.takes.mp h₃
  obtain ⟨hword, hreads, hstop⟩ := isClass_identChar.takes_star.mp h₄
  have hall : ∀ z ∈ y :: s₄, isWordChar z = true :=
    List.forall_mem_cons.mpr ⟨isWordChar_of_start hy, hword⟩
  refine ⟨⟨⟨y, s₄, rfl, hy⟩, hall, ?_⟩, hstop.head?⟩
  rw [(hread.trans hreads).eq_mk.1] at hfree
  exact (answer_keyword_eq_fail_iff hall hstop.head? _).mp hfree

theorem takes_ident {c c' : Cursor} {s : Source} (h : grammar.Takes (.rule .ident) c s c') :
    IsIdentifier s :=
  (takes_ident_stops h).1

namespace Escape

theorem Item.SpelledBefore.of_append {i : Item} {rest more : List Char}
    (h : i.SpelledBefore (rest ++ more)) : i.SpelledBefore rest := by
  have hhead : ∀ c ∈ rest.head?, c ∈ (rest ++ more).head? := by
    intro c hc
    obtain ⟨cs, rfl⟩ := List.head?_eq_some_iff.mp hc
    rfl
  cases i with
  | plain c => exact h
  | single c => exact h
  | byte high low => exact h
  | decimal digits => exact ⟨h.1, fun hlt c hc => h.2 hlt c (hhead c hc)⟩
  | unicode digits => exact h
  | spaces blanks => exact ⟨h.1, fun c hc => h.2 c (hhead c hc)⟩

theorem takes_hexByte {c c' : Cursor} {s : Source}
    (h : grammar.Takes (.rule .hexByte) c s c') :
    ∃ high low, s = ['x', high, low] ∧ isHexDigit high = true ∧ isHexDigit low = true := by
  obtain ⟨s₁, c₁, s₂, rfl, h₁, h₂⟩ := Grammar.takes_seq.mp (Grammar.takes_rule.mp h)
  obtain ⟨s₃, c₃, s₄, rfl, h₃, h₄⟩ := Grammar.takes_seq.mp h₂
  obtain ⟨rfl, -⟩ := Grammar.takes_text.mp h₁
  obtain ⟨high, hhigh, rfl, -⟩ := isClass_hexDigit.takes.mp h₃
  obtain ⟨low, hlow, rfl, -⟩ := isClass_hexDigit.takes.mp h₄
  exact ⟨high, low, rfl, hhigh, hlow⟩

theorem takes_opt_digit {c c' : Cursor} {s : Source}
    (h : grammar.Takes (.opt (.char .digit)) c s c') :
    (∃ d, s = [d] ∧ d.isDigit = true) ∨ s = [] ∧ c' = c ∧ c.StopsAt Char.isDigit := by
  rcases Grammar.takes_opt.mp h with h | ⟨hfail, rfl, rfl⟩
  · obtain ⟨d, hd, rfl, -⟩ := isClass_digit.takes.mp h
    exact .inl ⟨d, rfl, hd⟩
  · exact .inr ⟨rfl, rfl, isClass_digit.fails_iff.mp hfail⟩

theorem takes_decByte {c c' : Cursor} {s : Source}
    (h : grammar.Takes (.rule .decByte) c s c') : (Item.decimal s).SpelledBefore c'.rest := by
  obtain ⟨s₁, c₁, s₂, rfl, h₁, h₂⟩ := Grammar.takes_seq.mp (Grammar.takes_rule.mp h)
  obtain ⟨s₃, c₃, s₄, rfl, h₃, h₄⟩ := Grammar.takes_seq.mp h₂
  obtain ⟨d, hd, rfl, -⟩ := isClass_digit.takes.mp h₁
  rcases takes_opt_digit h₃ with ⟨d₂, rfl, hd₂⟩ | ⟨rfl, rfl, hstop⟩
  · rcases takes_opt_digit h₄ with ⟨d₃, rfl, hd₃⟩ | ⟨rfl, rfl, hstop⟩
    · exact ⟨⟨by simp, by simp, by simp [hd, hd₂, hd₃]⟩, by simp⟩
    · exact ⟨⟨by simp, by simp, by simp [hd, hd₂]⟩, fun _ => hstop.head?⟩
  · rcases takes_opt_digit h₄ with ⟨d₃, rfl, hd₃⟩ | ⟨rfl, rfl, hstop'⟩
    · obtain ⟨y, hy, hs, hread⟩ := isClass_digit.takes.mp
        ((Grammar.takes_opt.mp h₄).resolve_right fun h => nomatch h.2.1)
      cases hs
      exact absurd hy (by rw [hstop _ _ hread.rest]; exact Bool.false_ne_true)
    · exact ⟨⟨by simp, by simp, by simp [hd]⟩, fun _ => hstop'.head?⟩

theorem takes_uniChar {c c' : Cursor} {s : Source}
    (h : grammar.Takes (.rule .uniChar) c s c') :
    ∃ digits, s = 'u' :: '\x7b' :: (digits ++ ['\x7d']) ∧ digits ≠ [] ∧
      ∀ d ∈ digits, isHexDigit d = true := by
  obtain ⟨s₁, c₁, s₂, rfl, h₁, h₂⟩ := Grammar.takes_seq.mp (Grammar.takes_rule.mp h)
  obtain ⟨s₃, c₃, s₄, rfl, h₃, h₄⟩ := Grammar.takes_seq.mp h₂
  obtain ⟨s₅, c₅, s₆, rfl, h₅, h₆⟩ := Grammar.takes_seq.mp h₃
  obtain ⟨rfl, -⟩ := Grammar.takes_text.mp h₁
  obtain ⟨rfl, -⟩ := Grammar.takes_text.mp h₄
  obtain ⟨d, hd, rfl, -⟩ := isClass_hexDigit.takes.mp h₅
  obtain ⟨hdigits, -, -⟩ := isClass_hexDigit.takes_star.mp h₆
  exact ⟨d :: s₆, rfl, by simp, List.forall_mem_cons.mpr ⟨hd, hdigits⟩⟩

theorem takes_spaces {c c' : Cursor} {s : Source}
    (h : grammar.Takes (.rule .spaces) c s c') :
    ∃ blanks, s = 'z' :: blanks ∧ (Item.spaces blanks).SpelledBefore c'.rest := by
  obtain ⟨s₁, c₁, s₂, rfl, h₁, h₂⟩ := Grammar.takes_seq.mp (Grammar.takes_rule.mp h)
  obtain ⟨rfl, -⟩ := Grammar.takes_text.mp h₁
  obtain ⟨hblanks, -, hstop⟩ := isClass_space.takes_star.mp h₂
  exact ⟨s₂, rfl, hblanks, hstop.head?⟩

theorem takes_character {c c' : Cursor} {s : Source}
    (h : grammar.Takes (.rule .character) c s c') :
    ∃ i : Item, s = i.text ∧ i.SpelledBefore c'.rest := by
  rcases Grammar.takes_alt.mp (Grammar.takes_rule.mp h) with h | ⟨-, h⟩
  · obtain ⟨s₁, c₁, s₂, rfl, h₁, h₂⟩ := Grammar.takes_seq.mp (Grammar.takes_rule.mp h)
    obtain ⟨rfl, -⟩ := Grammar.takes_text.mp h₁
    rcases Grammar.takes_alt.mp h₂ with h₂ | ⟨-, h₂⟩
    · obtain ⟨high, low, rfl, hhigh, hlow⟩ := takes_hexByte h₂
      exact ⟨.byte high low, rfl, hhigh, hlow⟩
    rcases Grammar.takes_alt.mp h₂ with h₂ | ⟨-, h₂⟩
    · exact ⟨.decimal s₂, rfl, takes_decByte h₂⟩
    rcases Grammar.takes_alt.mp h₂ with h₂ | ⟨-, h₂⟩
    · obtain ⟨digits, rfl, hne, hdigits⟩ := takes_uniChar h₂
      exact ⟨.unicode digits, rfl, hne, hdigits⟩
    rcases Grammar.takes_alt.mp h₂ with h₂ | ⟨-, h₂⟩
    · obtain ⟨d, hd, rfl, -⟩ := isClass_single.takes.mp h₂
      exact ⟨.single d, rfl, hd⟩
    · obtain ⟨blanks, rfl, hblanks⟩ := takes_spaces h₂
      exact ⟨.spaces blanks, rfl, hblanks⟩
  · obtain ⟨d, hd, rfl, -⟩ := isClass_regular.takes.mp h
    refine ⟨.plain d, rfl, ?_⟩
    simp only [Bool.not_eq_true', decide_eq_false_iff_not, List.mem_cons, List.not_mem_nil,
      or_false, not_or] at hd
    exact ⟨hd.2.2, hd.1, hd.2.1⟩

theorem takes_charLiteral {c c' : Cursor} {s : Source}
    (h : grammar.Takes (.rule .charLiteral) c s c') :
    ∃ i : Item, s = '\'' :: (i.text ++ ['\'']) ∧ i.SpelledBefore [] := by
  obtain ⟨c₁, t, c₂, rfl, ht, -⟩ := Grammar.takes_between (Grammar.takes_rule.mp h)
  obtain ⟨i, rfl, hi⟩ := takes_character ht
  exact ⟨i, rfl, Item.SpelledBefore.of_append hi⟩

theorem takes_characters {c c' : Cursor} {s : Source}
    (h : grammar.Takes (.star (.seq (.neg (Rule.symbol '"')) (.rule .character))) c s c') :
    ∃ is, Spelled is s := by
  -- The induction is on the text that the repetition has yet to read.
  induction hlength : s.length using Nat.strongRecOn generalizing c s with
  | ind length ih =>
      subst hlength
      rcases Grammar.takes_star.mp h with ⟨s₁, c₁, s₂, rfl, h₁, h₂⟩ | ⟨-, rfl, -⟩
      · obtain ⟨s₃, c₃, s₄, rfl, h₃, h₄⟩ := Grammar.takes_seq.mp h₁
        obtain ⟨-, rfl, rfl⟩ := Grammar.takes_neg.mp h₃
        obtain ⟨i, rfl, hi⟩ := takes_character h₄
        have hne : i.text ≠ [] := by cases i <;> simp [Item.text]
        have hpos : 0 < i.text.length := List.length_pos_iff.mpr hne
        obtain ⟨is, his⟩ := ih s₂.length (by simp; omega) h₂ rfl
        rw [h₂.2.rest] at hi
        exact ⟨i :: is, .cons hi.of_append his⟩
      · exact ⟨[], .nil⟩

theorem takes_strLiteral {c c' : Cursor} {s : Source}
    (h : grammar.Takes (.rule .strLiteral) c s c') :
    ∃ is body, s = '"' :: (body ++ ['"']) ∧ Spelled is body := by
  obtain ⟨c₁, t, c₂, rfl, ht, -⟩ := Grammar.takes_between (Grammar.takes_rule.mp h)
  obtain ⟨is, his⟩ := takes_characters ht
  exact ⟨is, t, rfl, his⟩

end Escape

end XiFront

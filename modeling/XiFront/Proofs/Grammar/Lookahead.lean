import XiFront.Proofs.Grammar.Derivation
import XiFront.Proofs.Grammar.Beside
import XiFront.Proofs.Grammar.Spacing

namespace XiFront

open Peg

def isExponentMark (z : Char) : Bool :=
  decide ('e' = z) || decide ('E' = z)

def isSignMark (z : Char) : Bool :=
  decide ('+' = z) || decide ('-' = z)

def opensExponent (l : List Char) : Bool :=
  l.head?.any isExponentMark && (l.tail.head?.any Char.isDigit ||
    l.tail.head?.any isSignMark && l.tail.tail.head?.any Char.isDigit)

def opensFloat (l : List Char) : Bool :=
  l.head?.any Char.isDigit && (decide ((l.dropWhile Char.isDigit).head? = some '.') &&
    (l.dropWhile Char.isDigit).tail.head?.any Char.isDigit)

theorem answer_plus_class {e : Expr Rule} {p : Char → Bool} (h : grammar.IsClass e p)
    (rest : List Char) (offset : Nat) :
    grammar.answer true (.plus e) ⟨rest, offset⟩ =
      if rest.head?.any p then
        .ok [] ⟨rest.dropWhile p, offset + Source.byteLength (rest.takeWhile p)⟩
      else .fail := by
  have hplus : Expr.plus e = .seq e (.star e) := rfl
  rw [hplus, Grammar.answer_seq_tight, h]
  cases rest with
  | nil => rfl
  | cons y ys =>
      rw [Cursor.next?_cons, List.head?_cons, Option.any_some]
      cases hy : p y with
      | false => rfl
      | true => simp [h.star, hy, Nat.add_assoc]

theorem isClass_exponentMark :
    grammar.IsClass (.alt (Rule.symbol 'e') (Rule.symbol 'E')) isExponentMark :=
  (isClass_symbol 'e').alt (isClass_symbol 'E')

theorem isClass_signMark :
    grammar.IsClass (.alt (Rule.symbol '+') (Rule.symbol '-')) isSignMark :=
  (isClass_symbol '+').alt (isClass_symbol '-')

theorem not_isDigit_of_isSignMark {z : Char} (h : isSignMark z = true) : z.isDigit = false := by
  simp only [isSignMark, Bool.or_eq_true, decide_eq_true_eq] at h
  rcases h with rfl | rfl <;> rfl

theorem answer_exponent_eq_fail_iff {rest : List Char} {offset : Nat} :
    grammar.answer true (.rule .exponent) ⟨rest, offset⟩ = .fail ↔ opensExponent rest = false := by
  have hbody : (grammar.production .exponent).body =
      .seq (.alt (Rule.symbol 'e') (Rule.symbol 'E'))
        (.seq (.opt (.alt (Rule.symbol '+') (Rule.symbol '-'))) (.plus (.char .digit))) := rfl
  rw [Grammar.answer_rule_tight, hbody, Grammar.answer_seq_tight, isClass_exponentMark]
  cases rest with
  | nil => simp [opensExponent]
  | cons z r =>
      rw [Cursor.next?_cons, opensExponent, List.head?_cons, Option.any_some, List.tail_cons]
      cases isExponentMark z with
      | false => simp
      | true =>
          rw [if_pos rfl, Reply.ofOption_some, Reply.resume_ok, Grammar.answer_seq_tight,
            Grammar.answer_opt, isClass_signMark]
          cases r with
          | nil => simp [answer_plus_class isClass_digit]
          | cons y r =>
              rw [Cursor.next?_cons]
              cases hsign : isSignMark y with
              | false => cases hdigit : y.isDigit <;>
                  simp [answer_plus_class isClass_digit, hdigit, hsign]
              | true =>
                  have hdigit := not_isDigit_of_isSignMark hsign
                  cases hr : r.head?.any Char.isDigit <;>
                    simp [answer_plus_class isClass_digit, hdigit, hr, hsign]

theorem answer_floatLiteral_eq_fail_iff {rest : List Char} {offset : Nat} :
    grammar.answer true (.rule .floatLiteral) ⟨rest, offset⟩ = .fail ↔ opensFloat rest = false := by
  have hbody : (grammar.production .floatLiteral).body =
      .seq (.plus (.char .digit)) (.seq (Rule.symbol '.')
        (.seq (.plus (.char .digit)) (.opt (.rule .exponent)))) := rfl
  have hopt (c : Cursor) : grammar.answer true (.opt (.rule .exponent)) c ≠ .fail := by
    rw [Grammar.answer_opt]
    cases hreply : grammar.answer true (.rule .exponent) c <;> simp
  rw [Grammar.answer_rule_tight, hbody, Grammar.answer_seq_tight, answer_plus_class isClass_digit,
    opensFloat]
  cases hfirst : rest.head?.any Char.isDigit with
  | false => simp
  | true =>
      rw [if_pos rfl, Reply.resume_ok, Grammar.answer_seq_tight, isClass_symbol]
      cases hrest : rest.dropWhile Char.isDigit with
      | nil => simp
      | cons y r =>
          rw [Cursor.next?_cons]
          by_cases hy : '.' = y
          · subst hy
            rw [if_pos (decide_eq_true rfl), Reply.ofOption_some, Reply.resume_ok,
              Grammar.answer_seq_tight, answer_plus_class isClass_digit]
            cases hsecond : r.head?.any Char.isDigit with
            | false => simp [hsecond]
            | true => simp [Reply.prepend_eq_fail_iff, hopt, hsecond]
          · rw [if_neg (by simpa using hy)]
            simp [Ne.symm hy]

/-- The characters that begin filler, and the parentheses. -/
def isQuiet (z : Char) : Bool :=
  opensFiller z || decide (z ∈ ['(', ')'])

theorem quiet_cases {P : Char → Prop} (h : ∀ z ∈ [' ', '\t', '\r', '\n', '/', '(', ')'], P z)
    {z : Char}
    (hz : isQuiet z = true) : P z := by
  apply h
  simp only [isQuiet, opensFiller, Bool.or_eq_true, decide_eq_true_eq, List.mem_cons,
    List.not_mem_nil, or_false] at hz ⊢
  tauto

/-- A text that begins with no character that a token can go on with. -/
def Quiet (t : List Char) : Prop :=
  ∀ z ∈ t.head?, isQuiet z = true

namespace Quiet

variable {t t' w : List Char}

theorem head (ht : Quiet t') {p : Char → Bool}
    (hp : ∀ z ∈ [' ', '\t', '\r', '\n', '/', '(', ')'], p z = false)
    (h : ∀ z ∈ (w ++ t).head?, p z = false) : ∀ z ∈ (w ++ t').head?, p z = false := by
  cases w with
  | nil => exact fun z hz => quiet_cases hp (ht z hz)
  | cons y w => exact h

theorem any (ht : Quiet t) {p : Char → Bool}
    (hp : ∀ z ∈ [' ', '\t', '\r', '\n', '/', '(', ')'], p z = false) : t.head?.any p = false := by
  cases t with
  | nil => rfl
  | cons v r => exact quiet_cases hp (ht v rfl)

theorem parted (ht : Quiet t) (s : List Char) : Parted s t :=
  .of_head fun z hz => quiet_cases (P := fun z => isWordChar z = false) (by decide) (ht z hz)

theorem opensExponent (ht : Quiet t') (h : XiFront.opensExponent (w ++ t') = true) :
    XiFront.opensExponent (w ++ t) = true := by
  have hletter := ht.any (p := isExponentMark) (by decide)
  have hdigit := ht.any (p := Char.isDigit) (by decide)
  have hsign := ht.any (p := isSignMark) (by decide)
  match w with
  | [] =>
      rw [List.nil_append, XiFront.opensExponent, hletter, Bool.false_and] at h
      exact nomatch h
  | [z] =>
      rw [List.singleton_append, XiFront.opensExponent, List.tail_cons, hdigit, hsign,
        Bool.false_and, Bool.or_false, Bool.and_false] at h
      exact nomatch h
  | [z, y] =>
      simp only [List.cons_append, List.nil_append, XiFront.opensExponent, List.tail_cons, hdigit,
        Bool.and_false, Bool.or_false, Bool.and_eq_true, List.head?_cons, Bool.or_eq_true] at h ⊢
      exact ⟨h.1, .inl h.2⟩
  | z :: y :: v :: w => exact h

theorem opensFloat (ht : Quiet t') (h : XiFront.opensFloat (w ++ t') = true) :
    XiFront.opensFloat (w ++ t) = true := by
  have hdigit := ht.any (p := Char.isDigit) (by decide)
  by_cases hw : ∃ z ∈ w, z.isDigit = false
  · obtain ⟨-, hdrop⟩ := takeWhile_append_of_mem (r := t) hw
    obtain ⟨-, hdrop'⟩ := takeWhile_append_of_mem (r := t') hw
    rw [XiFront.opensFloat, hdrop'] at h
    rw [XiFront.opensFloat, hdrop]
    cases w with
    | nil => exact absurd hw (by simp)
    | cons v w =>
        cases hrest : (v :: w).dropWhile Char.isDigit with
        | nil =>
            obtain ⟨z, hz, hzdigit⟩ := hw
            have hrun := (v :: w).takeWhile_append_dropWhile (p := Char.isDigit)
            rw [hrest, List.append_nil] at hrun
            rw [← hrun] at hz
            exact nomatch (List.all_eq_true.mp List.all_takeWhile z hz).symm.trans hzdigit
        | cons y r =>
            rw [hrest] at h
            cases r with
            | nil =>
                simp only [List.cons_append, List.nil_append, List.tail_cons, hdigit,
                  Bool.and_false]
                  at h
                exact nomatch h
            | cons u r => exact h
  · have hall : ∀ z ∈ w, z.isDigit = true := by simpa using hw
    have hdrop : (w ++ t').dropWhile Char.isDigit = t' := by
      rw [List.dropWhile_append_of_pos hall]
      cases t' with
      | nil => rfl
      | cons v r =>
          rw [List.dropWhile_cons, if_neg]
          rw [Bool.not_eq_true]
          exact hdigit
    have hpoint : ¬t'.head? = some '.' := by
      intro hz
      have hpoint := ht.any (p := fun z => decide (z = '.')) (by decide)
      rw [hz] at hpoint
      exact nomatch hpoint
    rw [XiFront.opensFloat, hdrop, decide_eq_false hpoint, Bool.false_and, Bool.and_false] at h
    exact nomatch h

end Quiet

/-- Whether a word is read by one of the rules of words is a matter of the word alone. -/
theorem exists_word_test {r : Rule} (hr : r ∈ Rule.keyword :: Rule.words) :
    ∃ P : List Char → Prop, ∀ c, (P c.word → grammar.answer true (.rule r) c = .ok [] c.afterWord) ∧
      (¬P c.word → grammar.answer true (.rule r) c = .fail) := by
  rcases List.mem_cons.mp hr with rfl | hr
  · refine ⟨IsReserved, fun c => ?_⟩
    rw [answer_keyword_word]
    exact ⟨fun h => if_pos h, fun h => if_neg h⟩
  rcases List.mem_cons.mp hr with rfl | hr
  · refine ⟨fun w => w.head?.any isWordStart ∧ ¬IsReserved w, fun c => ?_⟩
    have hhead : c.rest.head?.any isWordStart = c.word.head?.any isWordStart := by
      rw [Cursor.word]
      cases c.rest with
      | nil => rfl
      | cons y ys =>
          cases hy : isWordChar y with
          | true => simp [hy]
          | false =>
              have hstart : isWordStart y = false := by
                by_contra hstart
                rw [Bool.not_eq_false] at hstart
                rw [isWordChar_of_start hstart] at hy
                cases hy
              simp [hy, hstart]
    rw [answer_ident_word, hhead]
    exact ⟨fun h => if_pos h, fun h => if_neg h⟩
  · obtain ⟨k, -, rfl⟩ := List.mem_map.mp hr
    refine ⟨fun w => w = k.spelling, fun c => ?_⟩
    rw [answer_kw_word]
    exact ⟨fun h => if_pos h, fun h => if_neg h⟩

theorem takeWhile_parted {w t : List Char} (hw : w ≠ []) (h : Parted w t) :
    (w ++ t).takeWhile isWordChar = w.takeWhile isWordChar := by
  by_cases hend : ∃ z ∈ w, isWordChar z = false
  · exact (takeWhile_append_of_mem hend).1
  · have hall : ∀ z ∈ w, isWordChar z = true := by simpa using hend
    have hlast := h _ (List.getLast?_eq_some_getLast hw) (hall _ (List.getLast_mem hw))
    have hself := takeWhile_word (r := []) hall nofun
    rw [List.append_nil] at hself
    rw [takeWhile_word hall hlast, hself]

theorem word_fails {r : Rule} (hr : r ∈ Rule.words) {w t t' : List Char} {c c' : Cursor}
    (hw : w ≠ []) (ht : Parted w t) (ht' : Parted w t') (hc : c.rest = w ++ t)
    (hc' : c'.rest = w ++ t') (h : grammar.answer false (.rule r) c = .fail) :
    grammar.answer false (.rule r) c' = .fail := by
  have htight : (grammar.production r).tight = true :=
    Rule.tight_of_isToken (isToken_of_mem_words hr)
  have hword : c'.word = c.word := by
    rw [Cursor.word, Cursor.word, hc, hc', takeWhile_parted hw ht, takeWhile_parted hw ht']
  obtain ⟨P, hP⟩ := exists_word_test (List.mem_cons_of_mem _ hr)
  rw [Grammar.answer_rule_loose, htight, ← Grammar.answer_rule_tight] at h ⊢
  have hfree : ¬P c.word := by
    intro hword
    rw [(hP c).1 hword] at h
    cases hpair : (grammar.production r).leavesPair <;> rw [hpair] at h <;> cases h
  rw [(hP c').2 (hword ▸ hfree)]
  rfl

theorem takes_word {r : Rule} (hr : r ∈ Rule.keyword :: Rule.words) {c d : Cursor} {s : Source}
    (h : grammar.Takes (.rule r) c s d) : s = c.word ∧ d = c.afterWord := by
  obtain ⟨P, hP⟩ := exists_word_test hr
  have hread : P c.word := by
    by_contra hword
    exact nomatch ((hP c).2 hword).symm.trans h.1
  have hd := (Reply.ok.inj (h.1.symm.trans ((hP c).1 hread))).2
  subst hd
  exact ⟨h.2.unique c.reads_word, rfl⟩

theorem spans_word {r : Rule} (hr : r ∈ Rule.keyword :: Rule.words) {c d : Cursor}
    {s rest : List Char}
    (h : grammar.Takes (.rule r) c s d) (hrest : ∀ z ∈ rest.head?, isWordChar z = false) :
    Spans (.rule r) s rest := by
  intro offset
  obtain ⟨rfl, rfl⟩ := takes_word hr h
  have hword : (Cursor.mk (c.word ++ rest) offset).word = c.word :=
    takeWhile_word c.isWordChar_of_mem_word hrest
  obtain ⟨P, hP⟩ := exists_word_test hr
  have hread : P c.word := by
    by_contra hword
    exact nomatch ((hP c).2 hword).symm.trans h.1
  have hread' := (Cursor.mk (c.word ++ rest) offset).reads_word
  have hanswer := (hP ⟨c.word ++ rest, offset⟩).1 (by rw [hword]; exact hread)
  rw [hword] at hread'
  have hafter := hread'.eq_mk.2
  rw [← List.append_cancel_left hread'.rest] at hafter
  rw [hafter] at hanswer
  exact ⟨hanswer, rfl, rfl⟩

theorem takes_digits {c d : Cursor} {s : Source} (h : grammar.Takes (.plus (.char .digit)) c s d) :
    s ≠ [] ∧ (∀ z ∈ s, z.isDigit = true) ∧ ∀ z ∈ d.rest.head?, z.isDigit = false := by
  obtain ⟨s₁, c₁, s₂, rfl, h₁, h₂⟩ := Grammar.takes_seq.mp h
  obtain ⟨z, hz, rfl, -⟩ := isClass_digit.takes.mp h₁
  obtain ⟨hdigits, -, hstop⟩ := isClass_digit.takes_star.mp h₂
  exact ⟨nofun, List.forall_mem_cons.mpr ⟨hz, hdigits⟩, hstop.head?⟩

theorem spans_digits {s rest : List Char} (hne : s ≠ []) (hs : ∀ z ∈ s, z.isDigit = true)
    (hrest : ∀ z ∈ rest.head?, z.isDigit = false) : Spans (.plus (.char .digit)) s rest := by
  obtain ⟨z, s, rfl⟩ := List.exists_cons_of_ne_nil hne
  rw [List.forall_mem_cons] at hs
  exact .seq (s := [z]) (.of_class isClass_digit hs.1) (.of_run isClass_digit hs.2 hrest)

theorem spans_exponent {c d : Cursor} {s rest : List Char}
    (h : grammar.Takes (.rule .exponent) c s d) (hrest : ∀ z ∈ rest.head?, z.isDigit = false) :
    Spans (.rule .exponent) s rest := by
  obtain ⟨s₁, c₁, s₂, rfl, h₁, h₂⟩ := Grammar.takes_seq.mp (Grammar.takes_rule.mp h)
  obtain ⟨s₃, c₃, s₄, rfl, h₃, h₄⟩ := Grammar.takes_seq.mp h₂
  obtain ⟨z, hz, rfl, -⟩ := isClass_exponentMark.takes.mp h₁
  obtain ⟨hne, hdigits, -⟩ := takes_digits h₄
  obtain ⟨y, s₄, rfl⟩ := List.exists_cons_of_ne_nil hne
  refine .rule (.seq (s := [z]) (.of_class isClass_exponentMark hz) (.seq ?_
    (spans_digits nofun hdigits hrest)))
  rcases Grammar.takes_opt.mp h₃ with h₃ | ⟨-, rfl, rfl⟩
  · obtain ⟨v, hv, rfl, -⟩ := isClass_signMark.takes.mp h₃
    exact .opt_some (.of_class isClass_signMark hv)
  · refine .opt_none (.of_class isClass_signMark fun v hv => ?_)
    cases Option.some.inj hv
    by_contra hsign
    rw [Bool.not_eq_false] at hsign
    exact nomatch (hdigits y List.mem_cons_self).symm.trans (not_isDigit_of_isSignMark hsign)

namespace Quiet

variable {t t' w : List Char} {c d : Cursor} {s : Source}

theorem spans_floatLiteral (ht : Quiet t') (h : grammar.Takes (.rule .floatLiteral) c s d)
    (hd : d.rest = w ++ t) : Spans (.rule .floatLiteral) s (w ++ t') := by
  obtain ⟨s₁, c₁, s₂, rfl, h₁, h₂⟩ := Grammar.takes_seq.mp (Grammar.takes_rule.mp h)
  obtain ⟨s₃, c₃, s₄, rfl, h₃, h₄⟩ := Grammar.takes_seq.mp h₂
  obtain ⟨s₅, c₅, s₆, rfl, h₅, h₆⟩ := Grammar.takes_seq.mp h₄
  obtain ⟨rfl, -⟩ := Grammar.takes_text.mp h₃
  obtain ⟨hne₁, hdigits₁, -⟩ := takes_digits h₁
  obtain ⟨hne₅, hdigits₅, hstop₅⟩ := takes_digits h₅
  refine .rule (.seq (spans_digits hne₁ hdigits₁ fun z hz => ?_) (.seq .text (.seq
    (spans_digits hne₅ hdigits₅ ?_) ?_)))
  · cases Option.some.inj hz
    rfl
  all_goals rcases Grammar.takes_opt.mp h₆ with h₆ | ⟨hfail, rfl, rfl⟩
  · obtain ⟨s₇, c₇, s₈, rfl, h₇, -⟩ := Grammar.takes_seq.mp (Grammar.takes_rule.mp h₆)
    obtain ⟨z, hz, rfl, hread⟩ := isClass_exponentMark.takes.mp h₇
    rw [hread.rest] at hstop₅
    exact fun y hy => hstop₅ y hy
  · rw [hd] at hstop₅
    exact ht.head (by decide) hstop₅
  · obtain ⟨s₇, c₇, s₈, rfl, h₇, h₈⟩ := Grammar.takes_seq.mp (Grammar.takes_rule.mp h₆)
    obtain ⟨s₉, c₉, s₀, rfl, -, h₀⟩ := Grammar.takes_seq.mp h₈
    obtain ⟨-, -, hstop⟩ := takes_digits h₀
    rw [hd] at hstop
    exact .opt_some (spans_exponent h₆ (ht.head (by decide) hstop))
  · refine .opt_none fun offset => answer_exponent_eq_fail_iff.mpr ?_
    rw [show d = ⟨d.rest, d.offset⟩ from rfl, hd, answer_exponent_eq_fail_iff] at hfail
    by_contra hopens
    rw [Bool.not_eq_false] at hopens
    exact nomatch hfail.symm.trans (ht.opensExponent hopens)

theorem spans_operator (ht : Quiet t') {spelling : List Char} {last : Option Char}
    (hlast : ∀ z ∈ last, z ∉ [' ', '\t', '\r', '\n', '/', '(', ')'])
    (h : grammar.Takes (Rule.operator spelling last) c s d) (hd : d.rest = w ++ t) :
    Spans (Rule.operator spelling last) s (w ++ t') := by
  cases last with
  | none =>
      obtain ⟨rfl, -⟩ := Grammar.takes_text.mp h
      exact .text
  | some z =>
      obtain ⟨s₁, c₁, s₂, rfl, h₁, h₂⟩ := Grammar.takes_seq.mp h
      obtain ⟨rfl, -⟩ := Grammar.takes_text.mp h₁
      obtain ⟨hfail, rfl, rfl⟩ := Grammar.takes_neg.mp h₂
      have hstop := ((isClass_symbol z).fails_iff.mp hfail).head?
      rw [hd] at hstop
      refine .seq .text (.neg (.of_class (isClass_symbol z) (ht.head ?_ hstop)))
      exact fun y hy => decide_eq_false fun hz => hlast z rfl (hz ▸ hy)

/-- A token is read as well in front of any other text that it could not go on in. -/
theorem spans_token (ht : Quiet t') {r : Rule} (hr : r.isToken = true)
    (h : grammar.Takes (.rule r) c s d) (hd : d.rest = w ++ t) : Spans (.rule r) s (w ++ t') := by
  have hword (hr : r ∈ Rule.keyword :: Rule.words) : Spans (.rule r) s (w ++ t') := by
    refine spans_word hr h (ht.head (t := t) (by decide) ?_)
    rw [← hd, (takes_word hr h).2]
    exact c.afterWord_stops
  cases r with
  | kw k => exact hword (by simp [Rule.words, k.mem_all])
  | keyword => exact hword List.mem_cons_self
  | ident => exact hword (List.mem_cons_of_mem _ List.mem_cons_self)
  | intLiteral =>
      obtain ⟨hne, hdigits, hstop⟩ := takes_digits (Grammar.takes_rule.mp h)
      rw [hd] at hstop
      exact .rule (spans_digits hne hdigits (ht.head (by decide) hstop))
  | floatLiteral => exact ht.spans_floatLiteral h hd
  | charLiteral => exact Escape.spans_charLiteral h _
  | strLiteral => exact Escape.spans_strLiteral h _
  | binary o =>
      exact .rule (ht.spans_operator (by cases o <;> decide) (Grammar.takes_rule.mp h) hd)
  | unary o =>
      exact .rule (ht.spans_operator (by cases o <;> decide) (Grammar.takes_rule.mp h) hd)
  | _ => exact nomatch hr

end Quiet

theorem answer_token_iff {r : Rule} (hr : r.isToken = true) {c d : Cursor} {ps : List (Pair Rule)} :
    grammar.answer false (.rule r) c = .ok ps d ↔
      (∃ s, grammar.Takes (.rule r) c s d) ∧ ps = [.node r c.offset d.offset []] := by
  have htight : (grammar.production r).tight = true := Rule.tight_of_isToken hr
  have hpair : (grammar.production r).leavesPair = true := Rule.leavesPair_of_isToken hr
  rw [Grammar.answer_rule_loose, htight, hpair, Reply.close_eq_ok_iff]
  constructor
  · rintro ⟨cs, hcs, rfl⟩
    cases Grammar.answer_tight hcs
    rw [← Grammar.answer_rule_tight] at hcs
    exact ⟨Grammar.takes_of_answer hcs, rfl⟩
  · rintro ⟨⟨s, hs⟩, rfl⟩
    refine ⟨[], ?_, rfl⟩
    rw [← Grammar.answer_rule_tight]
    exact hs.1

theorem answer_of_tightOperators {c d : Cursor} {ps : List (Pair Rule)}
    (h : grammar.answer false tightOperators c = .ok ps d) :
    ∃ o, grammar.answer false (.rule (.binary o)) c = .ok ps d := by
  rcases Grammar.answer_alt_eq_ok_iff.mp h with h | ⟨-, h⟩
  · exact ⟨_, h⟩
  · rcases Grammar.answer_alt_eq_ok_iff.mp h with h | ⟨-, h⟩ <;> exact ⟨_, h⟩

theorem takes_quoted {r : Rule} {q : Char} (hr : r.quote? = some q) {c d : Cursor} {s : Source}
    (h : grammar.Takes (.rule r) c s d) :
    ∃ s', s = q :: s' ∧ ∀ rest, Spans (.rule r) (q :: s') rest := by
  rcases Rule.quote?_eq_some_iff.mp hr with ⟨rfl, rfl⟩ | ⟨rfl, rfl⟩
  · have hspans := Escape.spans_strLiteral h
    obtain ⟨is, body, rfl, -⟩ := Escape.takes_strLiteral h
    exact ⟨_, rfl, hspans⟩
  · have hspans := Escape.spans_charLiteral h
    obtain ⟨i, rfl, -⟩ := Escape.takes_charLiteral h
    exact ⟨_, rfl, hspans⟩

/-- What is read in front of filler at the end, and is no filler, is read in front of the filler
before it. -/
theorem append_of_plain {s r w gap next : List Char} (hs : ∀ z ∈ s, isPlain z = true)
    (h : s ++ r = w ++ (gap ++ next)) (hgap : IsGap gap next) (hnext : next <:+ r) :
    ∃ w', w = s ++ w' ∧ r = w' ++ (gap ++ next) := by
  obtain ⟨pre, rfl⟩ := hnext
  rw [← List.append_assoc, ← List.append_assoc] at h
  rcases List.append_eq_append_iff.mp (List.append_cancel_right h) with ⟨v, rfl, rfl⟩ | ⟨v, rfl, hv⟩
  · exact ⟨v, rfl, List.append_assoc ..⟩
  · cases v with
    | nil => exact ⟨[], by simp, by simp [hv]⟩
    | cons z v =>
        have hopens := hgap.opensFiller z (by rw [hv]; rfl)
        have hplain := hs z (by simp)
        rw [isPlain_of_opensFiller hopens] at hplain
        exact nomatch hplain

theorem append_of_head {s r w x : List Char} (h : s ++ r = w ++ x) (hx : ∀ z ∈ x.head?, z ∉ s) :
    ∃ w', w = s ++ w' ∧ r = w' ++ x := by
  rcases List.append_eq_append_iff.mp h with ⟨v, rfl, rfl⟩ | ⟨v, rfl, rfl⟩
  · exact ⟨v, rfl, rfl⟩
  · cases v with
    | nil => exact ⟨[], by simp, rfl⟩
    | cons z v => exact absurd (by simp) (hx z rfl)

namespace Cut

variable {x w v s : List Char} {c d : Cursor}

theorem tails (h : Cut x (s ++ w)) (hs : ∀ z ∈ s, isPlain z = true) : Cut x w := by
  induction s with
  | nil => exact h
  | cons z s ih =>
      rw [List.forall_mem_cons] at hs
      exact ih (h.tail hs.1) hs.2

theorem of_plain (hs : ∀ z ∈ s, isPlain z = true) : Cut x s := by
  have hcut := Cut.plains hs (.nil : Cut x [])
  rwa [List.append_nil] at hcut

theorem opens_nothing (h : Cut x ('/' :: w)) (hfirm : IsFirm ('/' :: w ++ x)) :
    ∀ z ∈ (w ++ x).head?, z ≠ '/' ∧ z ≠ '*' := by
  generalize hcons : '/' :: w = v at h hfirm
  cases h with
  | nil => exact nomatch hcons
  | plain hc _ =>
      cases hcons
      exact nomatch hc
  | slash hnext _ =>
      cases hcons
      exact hnext
  | literal hr _ _ =>
      cases hcons
      exact absurd rfl (Rule.quote?_eq_some hr).2.2
  | gap ha _ hgap _ =>
      rw [List.append_assoc] at hfirm
      exact absurd hfirm (hgap.not_firm ha)

theorem after_token (h : Cut x w) (hne : w ≠ []) (hfirm : IsFirm (w ++ x)) {r : Rule}
    (hr : r.isToken = true) (htoken : grammar.Takes (.rule r) c s d) (hc : c.rest = w ++ x)
    (hplain : (∀ z ∈ s, isPlain z = true) → ∃ w', w = s ++ w' ∧ d.rest = w' ++ x) :
    ∃ w', w = s ++ w' ∧ d.rest = w' ++ x ∧ Cut x w' ∧ Cut (w' ++ x) s := by
  rcases Rule.isToken_cases hr with hunquoted | rfl | ⟨q, hq⟩
  · have hs := unquoted_reads_plain hunquoted htoken
    obtain ⟨w', rfl, hd⟩ := hplain hs
    exact ⟨w', rfl, hd, h.tails hs, .of_plain hs⟩
  · obtain ⟨rfl, hread⟩ := Grammar.takes_text.mp (Grammar.takes_rule.mp htoken)
    obtain ⟨z, w, rfl⟩ := List.exists_cons_of_ne_nil hne
    obtain ⟨rfl, hd⟩ := List.cons.inj (hc.symm.trans hread.rest)
    exact ⟨w, rfl, hd.symm, h.tail_slash hfirm, .slash (by simpa using h.opens_nothing hfirm) .nil⟩
  · obtain ⟨s', rfl, -⟩ := takes_quoted hq htoken
    obtain ⟨z, w, rfl⟩ := List.exists_cons_of_ne_nil hne
    have hrest := htoken.2.rest
    rw [hc] at hrest
    obtain ⟨rfl, -⟩ := List.cons.inj hrest
    obtain ⟨s₁, v, rfl, hspans, hv⟩ := h.tail_literal hq
    have hfirst := (hspans (v ++ x) c.offset).1
    rw [show (z :: s₁) ++ (v ++ x) = c.rest by rw [hc]; simp] at hfirst
    have hd := (Reply.ok.inj (hfirst.symm.trans htoken.1)).2
    have hsame : z :: s₁ = z :: s' := by
      have happend : z :: s₁ ++ (v ++ x) = z :: s' ++ (v ++ x) := by
        rw [hd.symm] at hrest
        rw [← hrest]
        simp
      exact List.append_cancel_right happend
    cases hsame
    refine ⟨v, rfl, by rw [← hd], hv, ?_⟩
    have hcut := Cut.literal hq hspans (.nil : Cut (v ++ x) [])
    rwa [List.append_nil] at hcut

end Cut

end XiFront

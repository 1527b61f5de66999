import XiFront.Proofs.Grammar.Fuel
import XiFront.Proofs.Grammar.Token

namespace XiFront

open Peg

def isBlank (c : Char) : Bool :=
  decide (c ∈ [' ', '\t', '\n', '\r'])

def isNewline (c : Char) : Bool :=
  decide (c ∈ ['\n', '\r'])

/-- Blanks, comments that are closed, and comments up to the end of a line with that end. -/
inductive IsFiller : List Char → Prop
  | nil : IsFiller []
  | blank {c : Char} {s : List Char} (hc : isBlank c = true) (hs : IsFiller s) :
      IsFiller (c :: s)
  | block {body s : List Char} (hbody : ¬['*', '/'] <:+: body) (hs : IsFiller s) :
      IsFiller ('/' :: '*' :: (body ++ '*' :: '/' :: s))
  | line {body : List Char} {c : Char} {s : List Char}
      (hbody : ∀ d ∈ body, isNewline d = false) (hc : isNewline c = true) (hs : IsFiller s) :
      IsFiller ('/' :: '/' :: (body ++ c :: s))

def OpensComment (rest : List Char) : Prop :=
  (∃ r, rest = '/' :: '/' :: r) ∨ ∃ body r, rest = '/' :: '*' :: (body ++ '*' :: '/' :: r)

/-- A text that does not begin with filler. -/
structure IsFirm (rest : List Char) : Prop where
  blank : ∀ c ∈ rest.head?, isBlank c = false
  comment : ¬OpensComment rest

/-- In front of `rest` just `gap` is filler.  A comment to the end of its line may have no end of a
line after it, if there is nothing at all after it. -/
inductive IsGap : (gap rest : List Char) → Prop
  | stop {r : List Char} (h : IsFirm r) : IsGap [] r
  | blank {c : Char} {a r : List Char} (hc : isBlank c = true) (h : IsGap a r) :
      IsGap (c :: a) r
  | block {body a r : List Char} (hbody : ¬['*', '/'] <:+: body) (h : IsGap a r) :
      IsGap ('/' :: '*' :: (body ++ '*' :: '/' :: a)) r
  | line {body a r : List Char} (hbody : ∀ d ∈ body, isNewline d = false)
      (hend : ∀ d ∈ (a ++ r).head?, isNewline d = true) (h : IsGap a r) :
      IsGap ('/' :: '/' :: (body ++ a)) r

theorem isBlank_of_isNewline {c : Char} (h : isNewline c = true) : isBlank c = true := by
  simp only [isNewline, isBlank, decide_eq_true_eq, List.mem_cons, List.not_mem_nil,
    or_false] at h ⊢
  exact .inr (.inr h)

theorem IsFirm.nil : IsFirm [] := by
  refine ⟨nofun, ?_⟩
  rintro (⟨r, hr⟩ | ⟨body, r, hr⟩)
  · exact nomatch hr
  · exact nomatch hr

theorem IsFirm.slash {rest : List Char} (h : ∀ c ∈ rest.head?, c ≠ '/' ∧ c ≠ '*') :
    IsFirm ('/' :: rest) := by
  constructor
  · intro c hc
    cases Option.some.inj hc
    rfl
  · rintro (⟨r, hr⟩ | ⟨body, r, hr⟩)
    · cases hr
      exact (h '/' rfl).1 rfl
    · cases hr
      exact (h '*' rfl).2 rfl

theorem IsFirm.cons {c : Char} {rest : List Char} (hblank : isBlank c = false) (hc : c ≠ '/') :
    IsFirm (c :: rest) := by
  constructor
  · intro d hd
    cases Option.some.inj hd
    exact hblank
  · rintro (⟨r, hr⟩ | ⟨body, r, hr⟩)
    · exact hc (List.cons.inj hr).1
    · exact hc (List.cons.inj hr).1

theorem IsFirm.not_blank {c : Char} {rest : List Char} (h : IsFirm (c :: rest)) :
    isBlank c = false :=
  h.blank c rfl

namespace IsGap

theorem firm {a r : List Char} (h : IsGap a r) : IsFirm r := by
  induction h with
  | stop h => exact h
  | blank _ _ ih => exact ih
  | block _ _ ih => exact ih
  | line _ _ _ ih => exact ih

theorem not_firm {a r : List Char} (h : IsGap a r) (hne : a ≠ []) : ¬IsFirm (a ++ r) := by
  intro hfirm
  cases h with
  | stop h => exact hne rfl
  | blank hc h => exact nomatch hc.symm.trans hfirm.not_blank
  | block hbody h => exact hfirm.comment (.inr ⟨_, _, by simp; rfl⟩)
  | line hbody hend h => exact hfirm.comment (.inl ⟨_, rfl⟩)

end IsGap

theorem IsFiller.append_isGap {w a r : List Char} (hw : IsFiller w) (h : IsGap a r) :
    IsGap (w ++ a) r := by
  induction hw with
  | nil => exact h
  | blank hc _ ih => exact .blank hc ih
  | @block body s hbody _ ih =>
      have hgap := IsGap.block hbody ih
      simpa using hgap
  | @line body c s hbody hc _ ih =>
      have hgap := IsGap.line hbody ?_ (.blank (isBlank_of_isNewline hc) ih)
      · simpa using hgap
      · intro d hd
        cases Option.some.inj hd
        exact hc

theorem IsFiller.isGap {a r : List Char} (h : IsFiller a) (hr : IsFirm r) : IsGap a r := by
  have hgap := h.append_isGap (.stop hr)
  rwa [List.append_nil] at hgap

theorem append_inj_of_run {p : α → Bool} {s s' r r' : List α}
    (hs : ∀ c ∈ s, p c = true) (hs' : ∀ c ∈ s', p c = true)
    (hr : ∀ c ∈ r.head?, p c = false) (hr' : ∀ c ∈ r'.head?, p c = false)
    (h : s ++ r = s' ++ r') : s = s' ∧ r = r' := by
  have hcut {s r : List α} (hs : ∀ c ∈ s, p c = true) (hr : ∀ c ∈ r.head?, p c = false) :
      (s ++ r).takeWhile p = s := by
    rw [List.takeWhile_append_of_pos hs]
    cases r with
    | nil => simp
    | cons y ys => simp [hr y rfl]
  have hss : s = s' := by rw [← hcut hs hr, h, hcut hs' hr']
  subst hss
  exact ⟨rfl, List.append_cancel_left h⟩

theorem infix_of_close {c : Char} {s r r' : List Char}
    (h : '*' :: '/' :: r = c :: s ++ '*' :: '/' :: r') : ['*', '/'] <:+: c :: s := by
  cases s with
  | nil => exact nomatch (List.cons.inj (List.cons.inj h).2).1
  | cons d s =>
      have hc := (List.cons.inj h).1
      have hd := (List.cons.inj (List.cons.inj h).2).1
      exact ⟨[], s, by rw [hc, hd]; rfl⟩

theorem append_inj_of_close {s s' r r' : List Char} (hs : ¬['*', '/'] <:+: s)
    (hs' : ¬['*', '/'] <:+: s') (h : s ++ '*' :: '/' :: r = s' ++ '*' :: '/' :: r') :
    s = s' ∧ r = r' := by
  induction s generalizing s' with
  | nil =>
      cases s' with
      | nil =>
          simp only [List.nil_append, List.cons.injEq, true_and] at h
          exact ⟨rfl, h⟩
      | cons y ys => exact absurd (infix_of_close h) hs'
  | cons x xs ih =>
      cases s' with
      | nil => exact absurd (infix_of_close h.symm) hs
      | cons y ys =>
          obtain ⟨hx, htail⟩ := List.cons.inj h
          rw [List.infix_cons_iff, not_or] at hs hs'
          obtain ⟨hxs, hr⟩ := ih hs.2 hs'.2 htail
          exact ⟨by rw [hx, hxs], hr⟩

theorem IsGap.unique {a a' r r' : List Char} (h : IsGap a r) (h' : IsGap a' r')
    (heq : a ++ r = a' ++ r') : a = a' ∧ r = r' := by
-- How a gap goes on is told by its first characters, the end of it by the rest being firm.
  induction h generalizing a' with
  | stop hfirm =>
      by_cases hne : a' = []
      · subst hne
        exact ⟨rfl, heq⟩
      · rw [List.nil_append] at heq
        rw [heq] at hfirm
        exact absurd hfirm (h'.not_firm hne)
  | @blank c a r hc h ih =>
      cases h' with
      | stop hfirm =>
          rw [List.nil_append] at heq
          rw [← heq] at hfirm
          exact nomatch hc.symm.trans hfirm.not_blank
      | blank hc' h' =>
          obtain ⟨rfl, htail⟩ := List.cons.inj heq
          obtain ⟨rfl, hr⟩ := ih h' htail
          exact ⟨rfl, hr⟩
      | block hbody h' =>
          obtain ⟨rfl, -⟩ := List.cons.inj heq
          exact nomatch hc
      | line hbody hend h' =>
          obtain ⟨rfl, -⟩ := List.cons.inj heq
          exact nomatch hc
  | @block body a r hbody h ih =>
      cases h' with
      | stop hfirm =>
          have hgap := IsGap.block hbody h
          rw [List.nil_append] at heq
          rw [← heq] at hfirm
          exact absurd hfirm (hgap.not_firm nofun)
      | blank hc' h' =>
          obtain ⟨rfl, -⟩ := List.cons.inj heq
          exact nomatch hc'
      | block hbody' h' =>
          simp only [List.cons_append, List.cons.injEq, true_and, List.append_assoc] at heq
          obtain ⟨rfl, hrest⟩ := append_inj_of_close hbody hbody' heq
          obtain ⟨rfl, hr⟩ := ih h' hrest
          exact ⟨rfl, hr⟩
      | line hbody' hend h' =>
          exact nomatch (List.cons.inj (List.cons.inj heq).2).1
  | @line body a r hbody hend h ih =>
      cases h' with
      | stop hfirm =>
          have hgap := IsGap.line hbody hend h
          rw [List.nil_append] at heq
          rw [← heq] at hfirm
          exact absurd hfirm (hgap.not_firm nofun)
      | blank hc' h' =>
          obtain ⟨rfl, -⟩ := List.cons.inj heq
          exact nomatch hc'
      | block hbody' h' =>
          exact nomatch (List.cons.inj (List.cons.inj heq).2).1
      | line hbody' hend' h' =>
          simp only [List.cons_append, List.cons.injEq, true_and, List.append_assoc] at heq
          have hrun {s : List Char} (hs : ∀ d ∈ s, isNewline d = false) :
              ∀ d ∈ s, (!isNewline d) = true := fun d hd => by rw [hs d hd]; rfl
          have hstop {s : List Char} (hs : ∀ d ∈ s.head?, isNewline d = true) :
              ∀ d ∈ s.head?, (!isNewline d) = false := fun d hd => by rw [hs d hd]; rfl
          obtain ⟨rfl, hrest⟩ := append_inj_of_run (p := fun d => !isNewline d) (hrun hbody)
            (hrun hbody') (hstop hend) (hstop hend') heq
          obtain ⟨rfl, hr⟩ := ih h' hrest
          exact ⟨rfl, hr⟩

theorem answer_text_eq_fail {tight : Bool} {x : Char} {xs : List Char} {c : Cursor}
    (h : ∀ y ∈ c.rest.head?, x ≠ y) : grammar.answer tight (.text (x :: xs)) c = .fail := by
  apply grammar.answer_text_eq_fail_iff.mpr
  rintro ⟨r, hr⟩
  exact h x (by rw [← hr]; rfl) rfl

theorem answer_newline_eq_fail_iff {c : Cursor} :
    grammar.answer true Rule.newline c = .fail ↔ c.StopsAt isNewline := by
  have hsymbol (x : Char) := (isClass_symbol x).fails_iff (c := c)
  rw [Rule.newline, answer_oneOf_eq_fail_iff]
  constructor
  · intro h y ys hrest
    have hn := (hsymbol '\n').mp (h _ List.mem_cons_self) y ys hrest
    have hr := (hsymbol '\r').mp (h (Rule.symbol '\r') (by simp)) y ys hrest
    simp only [decide_eq_false_iff_not] at hn hr
    simp [isNewline, Ne.symm hn, Ne.symm hr]
  · intro h d hd
    have hne (x : Char) (hx : isNewline x = true) : ∀ y ∈ c.rest.head?, x ≠ y := by
      intro y hy hxy
      rw [← hxy] at hy
      exact nomatch hx.symm.trans (h.head? x hy)
    simp only [List.mem_cons, List.not_mem_nil, or_false] at hd
    rcases hd with rfl | rfl | rfl
    · exact answer_text_eq_fail (hne '\n' rfl)
    · exact answer_text_eq_fail (hne '\r' rfl)
    · exact answer_text_eq_fail (hne '\r' rfl)

theorem takes_newline {c c' : Cursor} {s : Source} (h : grammar.Takes Rule.newline c s c') :
    s ≠ [] ∧ ∀ y ∈ s, isBlank y = true := by
  rcases Grammar.takes_alt.mp h with h | ⟨-, h⟩
  · obtain ⟨rfl, -⟩ := Grammar.takes_text.mp h
    decide
  rcases Grammar.takes_alt.mp h with h | ⟨-, h⟩
  · obtain ⟨rfl, -⟩ := Grammar.takes_text.mp h
    decide
  · obtain ⟨rfl, -⟩ := Grammar.takes_text.mp h
    decide

theorem takes_whitespace {c c' : Cursor} {s : Source}
    (h : grammar.Takes (.rule .whitespace) c s c') : s ≠ [] ∧ ∀ y ∈ s, isBlank y = true := by
  rcases Grammar.takes_alt.mp (Grammar.takes_rule.mp h) with h | ⟨-, h⟩
  · obtain ⟨rfl, -⟩ := Grammar.takes_text.mp h
    decide
  rcases Grammar.takes_alt.mp h with h | ⟨-, h⟩
  · obtain ⟨rfl, -⟩ := Grammar.takes_text.mp h
    decide
  · exact takes_newline h

theorem stopsAt_of_whitespace {c : Cursor}
    (h : grammar.answer true (.rule .whitespace) c = .fail) : c.StopsAt isBlank := by
  have hbody : (grammar.production .whitespace).body =
      .oneOf (Rule.symbol ' ') [Rule.symbol '\t', Rule.newline] := rfl
  rw [Grammar.answer_rule_tight, hbody, answer_oneOf_eq_fail_iff] at h
  intro y ys hrest
  have hspace := (isClass_symbol ' ').fails_iff.mp (h _ List.mem_cons_self) y ys hrest
  have htab := (isClass_symbol '\t').fails_iff.mp (h (Rule.symbol '\t') (by simp)) y ys hrest
  have hnewline := answer_newline_eq_fail_iff.mp (h Rule.newline (by simp)) y ys hrest
  simp only [decide_eq_false_iff_not, isNewline, List.mem_cons, List.not_mem_nil, or_false,
    not_or] at hspace htab hnewline
  simp [isBlank, Ne.symm hspace, Ne.symm htab, hnewline]

theorem takes_whitespaces {c c' : Cursor} {s : Source}
    (h : grammar.Takes (.star (.rule .whitespace)) c s c') :
    (∀ y ∈ s, isBlank y = true) ∧ c'.StopsAt isBlank := by
  -- A return and the newline after it are one blank, so the induction is on the length.
  induction hlength : s.length using Nat.strongRecOn generalizing c s with
  | ind length ih =>
      subst hlength
      rcases Grammar.takes_star.mp h with ⟨s₁, c₁, s₂, rfl, h₁, h₂⟩ | ⟨hfail, rfl, rfl⟩
      · obtain ⟨hne, hblank⟩ := takes_whitespace h₁
        have hpos : 0 < s₁.length := List.length_pos_iff.mpr hne
        obtain ⟨hblanks, hstop⟩ := ih s₂.length (by simp; omega) h₂ rfl
        exact ⟨List.forall_mem_append.mpr ⟨hblank, hblanks⟩, hstop⟩
      · exact ⟨nofun, stopsAt_of_whitespace hfail⟩

/-- A run up to `stop` passes only places where `stop` fails, and ends where it does not. -/
theorem takes_upTo {stop : Expr Rule} {c c' : Cursor} {s : Source}
    (h : grammar.Takes (Rule.upTo stop) c s c') {Q : List Char → Prop}
    (hQ : ∀ c, grammar.answer true stop c = .fail → Q c.rest) :
    (∀ t, t ≠ [] → t <:+ s → Q (t ++ c'.rest)) ∧
      (c'.rest = [] ∨ grammar.answer true stop c' ≠ .fail) := by
  induction s generalizing c with
  | nil =>
      refine ⟨fun t hne ht => absurd (List.suffix_nil.mp ht) hne, ?_⟩
      by_cases hnil : c'.rest = []
      · exact .inl hnil
      · refine .inr fun hstop => ?_
        obtain ⟨y, ys, hrest⟩ := List.exists_cons_of_ne_nil hnil
        rcases Grammar.takes_star.mp h with ⟨s₁, c₁, s₂, hs, h₁, -⟩ | ⟨hfail, -, rfl⟩
        · obtain ⟨rfl, -⟩ := List.append_eq_nil_iff.mp hs.symm
          obtain ⟨s₃, c₃, s₄, hs', h₃, h₄⟩ := Grammar.takes_seq.mp h₁
          obtain ⟨z, -, rfl, -⟩ := (Grammar.IsClass.char .any).takes.mp h₄
          exact nomatch (List.append_eq_nil_iff.mp hs'.symm).2
        · rw [Grammar.answer_seq_tight, Grammar.answer_neg, hstop, Reply.resume_fail,
            Reply.resume_ok, Grammar.answer_char, Cursor.char?, hrest] at hfail
          exact nomatch hfail
  | cons y s ih =>
      rcases Grammar.takes_star.mp h with ⟨s₁, c₁, s₂, hs, h₁, h₂⟩ | ⟨-, hs, -⟩
      · obtain ⟨s₃, c₃, s₄, rfl, h₃, h₄⟩ := Grammar.takes_seq.mp h₁
        obtain ⟨hstop, rfl, rfl⟩ := Grammar.takes_neg.mp h₃
        obtain ⟨z, -, rfl, -⟩ := (Grammar.IsClass.char .any).takes.mp h₄
        obtain ⟨rfl, rfl⟩ := List.cons.inj hs
        obtain ⟨hpassed, hend⟩ := ih h₂
        refine ⟨fun t hne ht => ?_, hend⟩
        rcases List.suffix_cons_iff.mp ht with rfl | ht
        · rw [← h.2.rest]
          exact hQ _ hstop
        · exact hpassed t hne ht
      · exact nomatch hs

theorem takes_comment {c c' : Cursor} {s : Source}
    (h : grammar.Takes (.rule .comment) c s c') :
    (∃ body, s = '/' :: '/' :: body ∧ (∀ d ∈ body, isNewline d = false) ∧
      ∀ d ∈ c'.rest.head?, isNewline d = true) ∨
    ∃ body, s = '/' :: '*' :: (body ++ ['*', '/']) ∧ ¬['*', '/'] <:+: body := by
  rcases Grammar.takes_alt.mp (Grammar.takes_rule.mp h) with h | ⟨-, h⟩
  · obtain ⟨s₁, c₁, s₂, rfl, h₁, h₂⟩ := Grammar.takes_seq.mp h
    obtain ⟨rfl, -⟩ := Grammar.takes_text.mp h₁
    obtain ⟨hpassed, hend⟩ := takes_upTo h₂ (Q := fun r => ∀ d ∈ r.head?, isNewline d = false)
      fun c hc => (answer_newline_eq_fail_iff.mp hc).head?
    refine .inl ⟨s₂, rfl, fun d hd => ?_, fun d hd => ?_⟩
    · obtain ⟨before, after, rfl⟩ := List.append_of_mem hd
      exact hpassed (d :: after) nofun (List.suffix_append before _) d rfl
    · obtain ⟨ds, hrest⟩ := List.head?_eq_some_iff.mp hd
      rw [Ne, answer_newline_eq_fail_iff] at hend
      cases hnewline : isNewline d with
      | true => rfl
      | false =>
          refine absurd ?_ (hend.resolve_left (by rw [hrest]; exact nofun))
          intro y ys hy
          cases hrest.symm.trans hy
          exact hnewline
  · obtain ⟨s₁, c₁, s₂, rfl, h₁, h₂⟩ := Grammar.takes_seq.mp h
    obtain ⟨s₃, c₃, s₄, rfl, h₃, h₄⟩ := Grammar.takes_seq.mp h₂
    obtain ⟨rfl, -⟩ := Grammar.takes_text.mp h₁
    obtain ⟨rfl, -⟩ := Grammar.takes_text.mp h₄
    refine .inr ⟨s₃, rfl, ?_⟩
    rintro ⟨before, after, rfl⟩
    have hpassed := (takes_upTo h₃ (Q := fun r => ¬['*', '/'] <+: r) ?_).1
    · rw [List.append_assoc] at hpassed
      exact hpassed (['*', '/'] ++ after) nofun (List.suffix_append before _)
        ⟨after ++ c₃.rest, rfl⟩
    · intro c hfail
      exact grammar.answer_text_eq_fail_iff.mp hfail

theorem not_opensComment_of_fail {c : Cursor}
    (h : grammar.answer true (.rule .comment) c = .fail) : ¬OpensComment c.rest := by
  have hbody : (grammar.production .comment).body =
      .oneOf (.seq (.text ['/', '/']) (Rule.upTo Rule.newline))
        [.seq (.text ['/', '*']) (.seq (Rule.upTo (.text ['*', '/'])) (.text ['*', '/']))] := rfl
  rw [Grammar.answer_rule_tight, hbody, answer_oneOf_eq_fail_iff] at h
  rintro (⟨r, hr⟩ | ⟨body, r, hr⟩)
  · obtain hopen | ⟨s, c₁, -, hline⟩ := Grammar.fails_seq_iff.mp (h _ List.mem_cons_self)
    · exact grammar.answer_text_eq_fail_iff.mp hopen ⟨r, hr.symm⟩
    · exact grammar.answer_star_ne_fail true _ c₁ hline
  · obtain hopen | ⟨s, c₁, hread, hblock⟩ :=
      Grammar.fails_seq_iff.mp (h _ (List.mem_cons_of_mem _ List.mem_cons_self))
    · exact grammar.answer_text_eq_fail_iff.mp hopen ⟨_, hr.symm⟩
    obtain ⟨rfl, -⟩ := Grammar.takes_text.mp hread
    obtain hupTo | ⟨s, c₂, hupTo, hclose⟩ := Grammar.fails_seq_iff.mp hblock
    · exact grammar.answer_star_ne_fail true _ c₁ hupTo
    obtain ⟨hpassed, hend⟩ := takes_upTo hupTo (Q := fun r => ¬['*', '/'] <+: r)
      fun c hc => grammar.answer_text_eq_fail_iff.mp hc
    -- A run to the very end would have passed the closing mark.
    have hnil := hend.resolve_right fun hne => hne hclose
    have hall : s = body ++ '*' :: '/' :: r := by
      have hrest := hread.2.rest
      rw [hr, hupTo.2.rest, hnil, List.append_nil] at hrest
      simpa using hrest.symm
    refine hpassed ('*' :: '/' :: r) nofun ?_ ⟨r ++ c₂.rest, rfl⟩
    rw [hall]
    exact List.suffix_append body _

theorem IsGap.blanks {s a r : List Char} (hs : ∀ c ∈ s, isBlank c = true) (h : IsGap a r) :
    IsGap (s ++ a) r := by
  induction s with
  | nil => exact h
  | cons c s ih =>
      rw [List.forall_mem_cons] at hs
      exact .blank hs.1 (ih hs.2)

theorem takes_comments {c c' : Cursor} {s : Source}
    (h : grammar.Takes (.star (.seq (.rule .comment) (.star (.rule .whitespace)))) c s c')
    (hstop : c.StopsAt isBlank) : IsGap s c'.rest := by
  induction hlength : s.length using Nat.strongRecOn generalizing c s with
  | ind length ih =>
      subst hlength
      rcases Grammar.takes_star.mp h with ⟨s₁, c₁, s₂, rfl, h₁, h₂⟩ | ⟨hfail, rfl, rfl⟩
      · obtain ⟨s₃, c₃, s₄, rfl, hcomment, hblanks⟩ := Grammar.takes_seq.mp h₁
        obtain ⟨hblank, hstop₁⟩ := takes_whitespaces hblanks
        rcases takes_comment hcomment with ⟨body, rfl, hbody, hend⟩ | ⟨body, rfl, hbody⟩
        · have hgap := (ih s₂.length (by simp; omega) h₂ hstop₁ rfl).blanks hblank
          rw [hblanks.2.rest, h₂.2.rest, ← List.append_assoc] at hend
          have hline := IsGap.line hbody hend hgap
          simpa only [List.append_assoc, List.cons_append] using hline
        · have hgap := (ih s₂.length (by simp; omega) h₂ hstop₁ rfl).blanks hblank
          have hblock := IsGap.block hbody hgap
          simpa only [List.append_assoc, List.cons_append, List.nil_append] using hblock
      · refine .stop ⟨hstop.head?, ?_⟩
        obtain hcomment | ⟨s, c₁, -, hblanks⟩ := Grammar.fails_seq_iff.mp hfail
        · exact not_opensComment_of_fail hcomment
        · exact absurd hblanks (grammar.answer_star_ne_fail true _ c₁)

theorem exists_takes_filler (c : Cursor) : ∃ s c', grammar.Takes filler c s c' := by
  have hstuck : grammar.answer true filler c ≠ .stuck :=
    ranking.answer_ne_stuck ranking.fits_filler c
  cases hfiller : grammar.answer true filler c with
  | stuck => exact absurd hfiller hstuck
  | ok ps c' =>
      obtain ⟨s, hs⟩ := Grammar.takes_of_answer hfiller
      exact ⟨s, c', hs⟩
  | fail =>
      obtain hblanks | ⟨s, c₁, -, hcomments⟩ := Grammar.fails_seq_iff.mp hfiller
      · exact absurd hblanks (grammar.answer_star_ne_fail true _ c)
      · exact absurd hcomments (grammar.answer_star_ne_fail true _ c₁)

theorem takes_filler {c c' : Cursor} {s : Source} :
    grammar.Takes filler c s c' ↔ c.Reads s c' ∧ IsGap s c'.rest := by
  have hgap {s : Source} {c' : Cursor} (h : grammar.Takes filler c s c') : IsGap s c'.rest := by
    obtain ⟨s₁, c₁, s₂, rfl, h₁, h₂⟩ := Grammar.takes_seq.mp h
    obtain ⟨hblank, hstop⟩ := takes_whitespaces h₁
    exact (takes_comments h₂ hstop).blanks hblank
  constructor
  · intro h
    exact ⟨h.2, hgap h⟩
  · rintro ⟨hreads, h⟩
    obtain ⟨s', c'', h'⟩ := exists_takes_filler c
    obtain ⟨rfl, hrest⟩ := h.unique (hgap h') (hreads.rest.symm.trans h'.2.rest)
    have hcursor : c' = c'' := by
      rw [hreads.eq_mk.2, h'.2.eq_mk.2, hrest]
    rw [hcursor]
    exact h'

end XiFront

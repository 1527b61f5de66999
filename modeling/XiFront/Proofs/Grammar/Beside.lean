import XiFront.Proofs.Grammar.Lead
import XiFront.Proofs.Grammar.Word

namespace XiFront

open Peg

namespace Peg.Reply.Agrees

variable {g : Grammar ρ} {a b : Expr ρ} {c c' : Cursor} {P : Pair ρ → Pair ρ → Prop}
variable {D E : Cursor → Cursor → Prop}

theorem seq_tight (ha : (g.answer true a c).Agrees P D (g.answer true a c'))
    (hb : ∀ d d', D d d' → (g.answer true b d).Agrees P E (g.answer true b d')) :
    (g.answer true (.seq a b) c).Agrees P E (g.answer true (.seq a b) c') := by
  rw [Grammar.answer_seq_tight, Grammar.answer_seq_tight]
  apply ha.resume
  · intro ps ps' d d' hps hd
    exact (hb d d' hd).prepend hps
  · exact .fails

theorem alt_tight (ha : (g.answer true a c).Agrees P E (g.answer true a c'))
    (hb : (g.answer true b c).Agrees P E (g.answer true b c')) :
    (g.answer true (.alt a b) c).Agrees P E (g.answer true (.alt a b) c') := by
  rw [Grammar.answer_alt, Grammar.answer_alt]
  exact ha.resume (fun _ _ _ _ hps hd => .matches_ hps hd) hb

theorem opt_tight (ha : (g.answer true a c).Agrees P E (g.answer true a c')) (hc : E c c') :
    (g.answer true (.opt a) c).Agrees P E (g.answer true (.opt a) c') := by
  rw [Grammar.answer_opt, Grammar.answer_opt]
  exact ha.resume (fun _ _ _ _ hps hd => .matches_ hps hd) (.matches_ .nil hc)

end Peg.Reply.Agrees

/-- Both texts begin as words do that are no numbers. -/
structure Lettered (x y : List Char) : Prop where
  left : ∀ z ∈ x.head?, isWordStart z = true
  right : ∀ z ∈ y.head?, isWordStart z = true

theorem not_isDigit_of_start {z : Char} (h : isWordStart z = true) : z.isDigit = false := by
  by_contra hdigit
  rw [Bool.not_eq_false] at hdigit
  have hlead := Lead.ofText?_digit hdigit []
  rw [Lead.ofText?, if_pos h] at hlead
  split at hlead <;> cases hlead

theorem Lettered.slashSafe {x y : List Char} (h : Lettered x y) : SlashSafe x y := by
  intro z hz
  have hstart := h.right z hz
  constructor
  · rintro rfl
    exact absurd hstart (by decide)
  · rintro rfl
    exact absurd hstart (by decide)

variable {x y : List Char} {c c' d d' : Cursor}

/-- A text without letters, digits and underscores, that is no filler and no quote. -/
def isSignText (chars : List Char) : Bool :=
  chars.all fun z => isPlain z && !isWordChar z

def Peg.Expr.isSign : Expr Rule → Bool
  | .text chars => isSignText chars
  | .char set => decide (set = .digit)
  | _ => false

def Rule.isSign : Rule → Bool
  | intLiteral | unary _ => true
  | binary o => decide (o ≠ .div)
  | _ => false

theorem sign_built : ∀ r ∈ Rule.all, r.isSign = true →
    (Rule.production r).body.built Expr.isSign Rule.isSign = true := by
  decide +kernel

theorem not_mem_of_isSignText {z : Char} (hz : isWordStart z = true) {chars : List Char}
    (hchars : isSignText chars = true) : z ∉ chars := by
  intro hmem
  have hsign := List.all_eq_true.mp hchars z hmem
  rw [isWordChar_of_start hz, Bool.not_true, Bool.and_false] at hsign
  exact nomatch hsign

theorem isPlain_of_isSignText {chars : List Char} (h : isSignText chars = true) :
    chars.all isPlain = true :=
  List.all_eq_true.mpr fun z hz => (Bool.and_eq_true_iff.mp (List.all_eq_true.mp h z hz)).1

theorem sign_leaf_agrees (hxy : Lettered x y) {e : Expr Rule} (he : e.isSign = true)
    (hc : Abreast x y c c') :
    (grammar.answer true e c).Agrees (fun _ _ => False) (Abreast x y)
      (grammar.answer true e c') := by
  cases e with
  | text chars =>
      rw [Grammar.answer_text, Grammar.answer_text]
      exact text_agrees (fun z hz => not_mem_of_isSignText (hxy.left z hz) he)
        (fun z hz => not_mem_of_isSignText (hxy.right z hz) he) (isPlain_of_isSignText he) hc
  | char set =>
      obtain rfl : set = .digit := of_decide_eq_true he
      rw [Grammar.answer_char, Grammar.answer_char]
      exact char_agrees (fun z hz => not_isDigit_of_start (hxy.left z hz))
        (fun z hz => not_isDigit_of_start (hxy.right z hz)) (by decide) hc
  | _ => exact absurd he Bool.false_ne_true

def signs (hxy : Lettered x y) : Likeness grammar true :=
  .ofLeaves (Abreast x y) Expr.isSign Rule.isSign (sign_leaf_agrees hxy)
    (sign_built _ (Rule.mem_all _))

/-- What the cursor has before `x` does not end in a letter, a digit or an underscore. -/
def Clear (x : List Char) (c : Cursor) : Prop :=
  ∀ w, c.rest = w ++ x → ∀ z ∈ w.getLast?, isWordChar z = false

theorem Clear.reads (h : Clear x c) {s : Source} (hs : c.Reads s d) : Clear x d := by
  intro w hw z hz
  have hne : w ≠ [] := by
    rintro rfl
    exact nomatch hz
  apply h (s ++ w)
  · rw [hs.rest, hw, List.append_assoc]
  · rw [List.getLast?_append_of_ne_nil s hne]
    exact hz

theorem Clear.ne (h : Clear x c) {s : Source} (hs : c.Reads s d) (hne : s ≠ [])
    (hword : ∀ z ∈ s, isWordChar z = true) : d.rest ≠ x := by
  intro hd
  have hlast := h s (by rw [hs.rest, hd]) _ (List.getLast?_eq_some_getLast hne)
  rw [hword _ (List.getLast_mem hne)] at hlast
  exact nomatch hlast

/-- Cursors in front of the same pieces, with no word at their end. -/
def Ahead (x y : List Char) (c c' : Cursor) : Prop :=
  Abreast x y c c' ∧ Clear x c

def Short (x y : List Char) (c c' : Cursor) : Prop :=
  Ahead x y c c' ∧ c.rest ≠ x

theorem Short.pieces (h : Short x y c c') :
    ∃ w, w ≠ [] ∧ Cut x w ∧ c.rest = w ++ x ∧ c' = ⟨w ++ y, c.offset⟩ ∧
      ∃ z ∈ w, isWordChar z = false := by
  obtain ⟨⟨⟨w, hw, hrest, hc'⟩, hclear⟩, hne⟩ := h
  have hnil : w ≠ [] := by
    rintro rfl
    exact hne hrest
  refine ⟨w, hnil, hw, hrest, hc', w.getLast hnil, List.getLast_mem hnil, ?_⟩
  exact hclear w hrest _ (List.getLast?_eq_some_getLast hnil)

theorem Cut.dropWhile {w : List Char} (h : Cut x w) {p : Char → Bool}
    (hp : ∀ z, p z = true → isPlain z = true) : Cut x (w.dropWhile p) := by
  induction w with
  | nil => exact h
  | cons z w ih =>
      rw [List.dropWhile_cons]
      split
      · next hz => exact ih (h.tail (hp z hz))
      · exact h

theorem takeWhile_append_of_mem {p : α → Bool} {w r : List α} (h : ∃ z ∈ w, p z = false) :
    (w ++ r).takeWhile p = w.takeWhile p ∧ (w ++ r).dropWhile p = w.dropWhile p ++ r := by
  obtain ⟨z, hz, hpz⟩ := h
  induction w with
  | nil => exact nomatch hz
  | cons y w ih =>
      rw [List.cons_append, List.takeWhile_cons, List.takeWhile_cons, List.dropWhile_cons,
        List.dropWhile_cons]
      cases hy : p y with
      | false => exact ⟨rfl, rfl⟩
      | true =>
          have hzw : z ∈ w := by
            refine (List.mem_cons.mp hz).resolve_left ?_
            rintro rfl
            exact nomatch hy.symm.trans hpz
          obtain ⟨htake, hdrop⟩ := ih hzw
          exact ⟨congrArg (y :: ·) htake, hdrop⟩

theorem Short.word (h : Short x y c c') :
    c'.word = c.word ∧ c'.rest.head? = c.rest.head? ∧ Abreast x y c.afterWord c'.afterWord := by
  obtain ⟨w, hne, hw, hrest, rfl, hend⟩ := h.pieces
  obtain ⟨htake, hdrop⟩ := takeWhile_append_of_mem (r := x) hend
  obtain ⟨htake', hdrop'⟩ := takeWhile_append_of_mem (r := y) hend
  have hword : c.word = w.takeWhile isWordChar := by rw [Cursor.word, hrest, htake]
  have hword' : (Cursor.mk (w ++ y) c.offset).word = w.takeWhile isWordChar := htake'
  refine ⟨hword'.trans hword.symm, ?_, w.dropWhile isWordChar,
    hw.dropWhile fun z => isPlain_of_isWordChar, ?_, ?_⟩
  · obtain ⟨z, w, rfl⟩ := List.exists_cons_of_ne_nil hne
    rw [hrest]
    rfl
  · rw [Cursor.afterWord, hrest, hdrop]
  · rw [Cursor.afterWord, Cursor.afterWord, hword', hword, hdrop']

/-- Words are read alike. -/
theorem word_agrees (h : Short x y c c') {r : Rule} (hr : r ∈ Rule.keyword :: Rule.words) :
    (grammar.answer true (.rule r) c).Agrees (fun _ _ => False) (Abreast x y)
      (grammar.answer true (.rule r) c') := by
  obtain ⟨hword, hhead, hafter⟩ := h.word
  have hagrees {p : Prop} [Decidable p] :
      (if p then .ok [] c.afterWord else .fail : Reply Rule).Agrees (fun _ _ => False) (Abreast x y)
        (if p then .ok [] c'.afterWord else .fail) := by
    split
    · exact .matches_ .nil hafter
    · exact .fails
  rcases List.mem_cons.mp hr with rfl | hr
  · rw [answer_keyword_word, answer_keyword_word, hword]
    exact hagrees
  rcases List.mem_cons.mp hr with rfl | hr
  · rw [answer_ident_word, answer_ident_word, hword, hhead]
    exact hagrees
  · obtain ⟨k, -, rfl⟩ := List.mem_map.mp hr
    rw [answer_kw_word, answer_kw_word, hword]
    exact hagrees

theorem Peg.Reply.Agrees.ahead {e : Expr Rule} (hclear : Clear x c)
    (h : (grammar.answer true e c).Agrees (fun _ _ => False) (Abreast x y)
      (grammar.answer true e c')) :
    (grammar.answer true e c).Agrees (fun _ _ => False) (Ahead x y) (grammar.answer true e c') := by
  refine h.reads.mono (fun _ _ => id) ?_
  rintro d d' ⟨⟨s, hs⟩, -, hd⟩
  exact ⟨hd, hclear.reads hs⟩

theorem sign_agrees (hxy : Lettered x y) (h : Ahead x y c c') {e : Expr Rule}
    (he : e.built Expr.isSign Rule.isSign = true) :
    (grammar.answer true e c).Agrees (fun _ _ => False) (Ahead x y) (grammar.answer true e c') :=
  ((signs hxy).agree he c c' h.1).ahead h.2

theorem digits_agrees (hxy : Lettered x y) (h : Ahead x y c c') :
    (grammar.answer true (.plus (.char .digit)) c).Agrees (fun _ _ => False) (Short x y)
      (grammar.answer true (.plus (.char .digit)) c') := by
  have hagrees := sign_agrees hxy h (e := .plus (.char .digit)) rfl
  cases hreply : grammar.answer true (.plus (.char .digit)) c with
  | stuck => trivial
  | fail =>
      rw [hagrees.eq_fail hreply]
      exact .fails
  | ok ps d =>
      obtain ⟨ps', d', hreply', hps, hd⟩ := hagrees.exists_ok hreply
      obtain ⟨s, hs⟩ := Grammar.takes_of_answer hreply
      rw [hreply']
      obtain ⟨t, c₁, ds, rfl, hfirst, hmore⟩ := Grammar.takes_seq.mp hs
      obtain ⟨z, hz, rfl, -⟩ := isClass_digit.takes.mp hfirst
      have hdigits : ∀ v ∈ z :: ds, v.isDigit = true :=
        List.forall_mem_cons.mpr ⟨hz, (isClass_digit.takes_star.mp hmore).1⟩
      refine .matches_ hps ⟨hd, h.2.ne hs.2 nofun fun v hv => ?_⟩
      simp [isWordChar, Char.isAlphanum, hdigits v hv]

theorem letter_agrees (h : Short x y c c') {z : Char} (hz : isWordChar z = true) :
    (grammar.answer true (Rule.symbol z) c).Agrees (fun _ _ => False) (Short x y)
      (grammar.answer true (Rule.symbol z) c') := by
  obtain ⟨w, hne, hw, hrest, rfl, hend⟩ := h.pieces
  obtain ⟨rest, offset⟩ := c
  obtain rfl : rest = w ++ x := hrest
  obtain ⟨v, w, rfl⟩ := List.exists_cons_of_ne_nil hne
  rw [Rule.symbol, Grammar.answer_text, Grammar.answer_text, List.cons_append, List.cons_append,
    Cursor.text?_cons_cons, Cursor.text?_cons_cons]
  by_cases hzv : z = v
  · subst hzv
    rw [if_pos rfl, if_pos rfl]
    have hread : (Cursor.mk (z :: w ++ x) offset).Reads [z] ⟨w ++ x, offset + z.utf8Size⟩ :=
      ⟨rfl, rfl⟩
    refine .matches_ .nil ⟨⟨⟨w, hw.tail (isPlain_of_isWordChar hz), rfl, rfl⟩, ?_⟩, ?_⟩
    · exact h.1.2.reads hread
    · exact h.1.2.ne hread nofun (List.forall_mem_singleton.mpr hz)
  · rw [if_neg hzv, if_neg hzv]
    exact .fails

theorem exponent_agrees (hxy : Lettered x y) (h : Short x y c c') :
    (grammar.answer true (.rule .exponent) c).Agrees (fun _ _ => False) (Short x y)
      (grammar.answer true (.rule .exponent) c') := by
  rw [Grammar.answer_rule_tight, Grammar.answer_rule_tight]
  refine .seq_tight ((letter_agrees h rfl).alt_tight (letter_agrees h rfl)) fun d d' hd => ?_
  exact .seq_tight (sign_agrees hxy hd.1 rfl) fun _ _ => digits_agrees hxy

theorem float_agrees (hxy : Lettered x y) (h : Ahead x y c c') :
    (grammar.answer true (.rule .floatLiteral) c).Agrees (fun _ _ => False) (Short x y)
      (grammar.answer true (.rule .floatLiteral) c') := by
  rw [Grammar.answer_rule_tight, Grammar.answer_rule_tight]
  refine .seq_tight (digits_agrees hxy h) fun d d' hd => ?_
  refine .seq_tight (sign_agrees hxy hd.1 rfl) fun e e' he => ?_
  refine .seq_tight (digits_agrees hxy he) fun f f' hf => ?_
  exact (exponent_agrees hxy hf).opt_tight hf

/-- Tokens, signs that are not tokens, and the end of the text. -/
def Peg.Expr.isMark : Expr Rule → Bool
  | .text chars => !chars.isEmpty && isSignText chars
  | .finish => true
  | .rule r => r.isToken
  | _ => false

theorem Peg.Expr.isAtom_of_isMark {e : Expr Rule} (h : e.isMark = true) : e.isAtom = true := by
  cases e with
  | text chars => exact isPlain_of_isSignText (Bool.and_eq_true_iff.mp h).2
  | finish => rfl
  | rule r => exact h
  | _ => exact nomatch h

theorem mark_built : ∀ r ∈ Rule.all, r.isLexical = false → r ≠ .file →
    (Rule.production r).body.built Expr.isMark
      (fun r => !r.isLexical && decide (r ≠ .file)) = true := by
  decide +kernel

theorem unquoted_cases {r : Rule} (htoken : r.isToken = true) (hr : r.isUnquoted = true) :
    r ∈ Rule.keyword :: Rule.words ∨ r.isSign = true ∨ r = .floatLiteral := by
  cases r with
  | kw k =>
      refine .inl (List.mem_cons_of_mem _ (List.mem_cons_of_mem _ ?_))
      exact List.mem_map_of_mem k.mem_all
  | keyword => exact .inl List.mem_cons_self
  | ident => exact .inl (List.mem_cons_of_mem _ List.mem_cons_self)
  | floatLiteral => exact .inr (.inr rfl)
  | binary o => exact .inr (.inl hr)
  | charLiteral => exact absurd hr Bool.false_ne_true
  | strLiteral => exact absurd hr Bool.false_ne_true
  | _ => first | exact .inr (.inl rfl) | exact nomatch htoken

/-- In front of pieces that do not end in a word, tokens are read alike. -/
theorem mark_agrees (hxy : Lettered x y) (hc : Inside x y c c') (hclear : Clear x c)
    {e : Expr Rule} (he : e.isMark = true) :
    (grammar.answer false e c).Agrees (Twin c c') (Abreast x y) (grammar.answer false e c') := by
  have hshort : Short x y c c' := by
    refine ⟨⟨hc.abreast, hclear⟩, ?_⟩
    obtain ⟨w, hne, -, -, hrest, -⟩ := hc
    rw [hrest]
    exact fun h => hne (List.append_left_eq_self.mp h)
  refine atom_agrees_of hc (Expr.isAtom_of_isMark he) ?_ fun {r} htoken hr => ?_
  · rintro chars rfl
    have hsign : isSignText chars = true := (Bool.and_eq_true_iff.mp he).2
    have hbuilt : (Expr.text chars).built (signs hxy).leaf (signs hxy).part = true := hsign
    have hagrees := (signs hxy).agree hbuilt c c' hc.abreast
    rwa [Grammar.answer_text, Grammar.answer_text] at hagrees
  · rcases unquoted_cases htoken hr with hr | hr | rfl
    · exact word_agrees hshort hr
    · have hbuilt : (Expr.rule r).built Expr.isSign Rule.isSign = true := hr
      exact (signs hxy).agree hbuilt c c' hc.abreast
    · exact (float_agrees hxy hshort.1).mono (fun _ _ => id) fun _ _ h => h.1.1

theorem avoids_name : ∀ r ∈ Rule.all, r.isToken = true → r ≠ .ident →
    (Expr.rule r).avoids 3 .name = true := by
  decide +kernel

theorem mark_agrees_at {w w' v : List Char} (hw : IsIdentifier w) (hw' : IsIdentifier w')
    (hv : ∀ z ∈ v.head?, isWordChar z = false) (hc : c.rest = w ++ v) (hc' : c'.rest = w' ++ v)
    {e : Expr Rule} (he : e.isMark = true) :
    (grammar.answer false e c).Agrees
      (fun p p' => ∃ d d', c.Reads w d ∧ c'.Reads w' d' ∧
        p = .node .ident c.offset d.offset [] ∧ p' = .node .ident c'.offset d'.offset [])
      (fun d d' => c.Reads w d ∧ d.rest = v ∧ d'.rest = v) (grammar.answer false e c') := by
  have hstarts {u : List Char} (hu : IsIdentifier u) : ∃ z r, u ++ v = z :: r ∧
      isWordStart z = true := by
    obtain ⟨z, zs, rfl, hz⟩ := hu.start
    exact ⟨z, zs ++ v, rfl, hz⟩
  have hfails (hfail : ∀ {u : List Char}, IsIdentifier u → Fails e (u ++ v)) :
      grammar.answer false e c = .fail ∧ grammar.answer false e c' = .fail :=
    ⟨hfail hw c hc, hfail hw' c' hc'⟩
  cases e with
  | text chars =>
      obtain ⟨hne, hsign⟩ := Bool.and_eq_true_iff.mp he
      cases chars with
      | nil => exact nomatch hne
      | cons z zs =>
          obtain ⟨hfail, hfail'⟩ := hfails fun hu => by
            obtain ⟨y, r, hstart, hy⟩ := hstarts hu
            rw [hstart]
            refine .text fun y' hy' => ?_
            cases Option.some.inj hy'
            rintro rfl
            exact not_mem_of_isSignText hy hsign List.mem_cons_self
          rw [hfail, hfail']
          exact .fails
  | finish =>
      obtain ⟨hfail, hfail'⟩ := hfails fun hu => by
        obtain ⟨y, r, hstart, -⟩ := hstarts hu
        rintro c hc
        rw [Grammar.answer_finish, hc, hstart]
        rfl
      rw [hfail, hfail']
      exact .fails
  | rule r =>
      by_cases hr : r = .ident
      · subst hr
        obtain ⟨d, hd, hrest, hanswer⟩ := answer_ident_of_rest hw hv hc
        obtain ⟨d', hd', hrest', hanswer'⟩ := answer_ident_of_rest hw' hv hc'
        rw [hanswer, hanswer']
        exact .matches_ (.cons ⟨d, d', hd, hd', rfl, rfl⟩ .nil) ⟨hd, hrest, hrest'⟩
      · obtain ⟨hfail, hfail'⟩ := hfails fun hu =>
          .of_avoids 3 (avoids_name r r.mem_all he hr) (hu.firm v)
            (Lead.ofText?_identifier hu hv)
        rw [hfail, hfail']
        exact .fails
  | _ => exact nomatch he

end XiFront

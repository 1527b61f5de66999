import XiFront.Proofs.Grammar.Lead
import XiFront.Proofs.Grammar.Word
import XiFront.Proofs.Tree.Extent

/-!
What stands in front of an identifier.  A word is read to its end, and a number is followed by no
identifier.  So where a match reads an identifier, the text before it falls into pieces, and the
last of them does not end in a letter, a digit or an underscore.
-/

namespace XiFront

open Peg

/-- No word of the first text goes on in the second. -/
def Parted (s rest : List Char) : Prop :=
  ∀ z ∈ s.getLast?, isWordChar z = true → ∀ y ∈ rest.head?, isWordChar y = false

namespace Parted

variable {s t rest : List Char}

theorem nil : Parted [] rest :=
  nofun

theorem of_last (h : ∀ z ∈ s.getLast?, isWordChar z = false) : Parted s rest := by
  intro z hz hword
  rw [h z hz] at hword
  exact nomatch hword

theorem of_head (h : ∀ y ∈ rest.head?, isWordChar y = false) : Parted s rest :=
  fun _ _ _ => h

theorem append (hs : t = [] → Parted s rest) (ht : Parted t rest) : Parted (s ++ t) rest := by
  by_cases hnil : t = []
  · rw [hnil, List.append_nil]
    exact hs hnil
  · intro z hz
    rw [List.getLast?_append_of_ne_nil s hnil] at hz
    exact ht z hz

theorem of_append (h : Parted (s ++ t) rest) : Parted t rest := by
  by_cases ht : t = []
  · rw [ht]
    exact .nil
  · intro z hz
    refine h z ?_
    rwa [List.getLast?_append_of_ne_nil s ht]

theorem last (h : Parted s rest) (hrest : ∃ y ∈ rest.head?, isWordChar y = true) :
    ∀ z ∈ s.getLast?, isWordChar z = false := by
  intro z hz
  by_contra hword
  rw [Bool.not_eq_false] at hword
  obtain ⟨y, hy, hyword⟩ := hrest
  rw [h z hz hword y hy] at hyword
  exact nomatch hyword

end Parted

theorem not_isWordChar_of_isBlank {c : Char} (h : isBlank c = true) : isWordChar c = false := by
  by_contra hword
  rw [Bool.not_eq_false] at hword
  rw [(isBlank_of_isPlain (isPlain_of_isWordChar hword)).1] at h
  exact nomatch h

theorem not_isWordChar_of_opensFiller {c : Char} (h : opensFiller c = true) :
    isWordChar c = false := by
  by_contra hword
  rw [Bool.not_eq_false] at hword
  exact nomatch (isPlain_of_opensFiller h).symm.trans (isPlain_of_isWordChar hword)

theorem Parted.of_gap {s a rest : List Char} (h : Parted (s ++ a) rest)
    (ha : a = [] ∨ IsGap a rest) : Parted s (a ++ rest) := by
  by_cases hnil : a = []
  · rw [hnil, List.append_nil] at h
    rwa [hnil]
  · refine .of_head fun z hz => ?_
    rw [List.head?_append_of_ne_nil _ hnil] at hz
    exact not_isWordChar_of_opensFiller ((ha.resolve_left hnil).opensFiller z hz)

theorem IsGap.parted {a rest : List Char} (h : IsGap a rest) : Parted a rest := by
  induction h with
  | stop _ => exact .nil
  | @blank c a r hc _ ih =>
      have hlast : Parted [c] r := .of_last fun z hz => by
        cases Option.some.inj hz
        exact not_isWordChar_of_isBlank hc
      exact Parted.append (s := [c]) (fun _ => hlast) ih
  | @block body a r _ _ ih =>
      have hlast : Parted ('/' :: '*' :: (body ++ ['*', '/'])) r := .of_last fun z hz => by
        rw [show '/' :: '*' :: (body ++ ['*', '/']) = ('/' :: '*' :: (body ++ ['*'])) ++ ['/'] by simp,
          List.getLast?_concat] at hz
        cases Option.some.inj hz
        decide
      have happend := Parted.append (fun _ => hlast) ih
      simpa using happend
  | @line body a r _ hend _ ih =>
      rw [show '/' :: '/' :: (body ++ a) = ('/' :: '/' :: body) ++ a from rfl]
      refine .append (fun hnil => .of_head fun y hy => ?_) ih
      apply not_isWordChar_of_isBlank
      apply isBlank_of_isNewline
      apply hend
      rw [hnil]
      exact hy

namespace Rule

/-- The rules that may match a number at their end, and parts of tokens. -/
def endsInNumber : Rule → Bool
  | kw _ | ident | strLiteral | charLiteral | binary _ | unary _ => false
  | expr | exprWithoutBlock | breakExpr | returnExpr | assignExpr | chain _ | castExpr
  | unaryExpr | callExpr | primaryExpr | literalExpr | letInit | fieldInit => true
  | r => r.isLexical

end Rule

/-- Whether a match may end in the middle of a word: after a number a letter can come next. -/
def Peg.Expr.endsInNumber : Expr Rule → Bool
  | .text chars => chars.any isWordChar
  | .char _ => true
  | .start | .finish | .neg _ => false
  | .rule r => r.endsInNumber
  | .seq a b => b.endsInNumber || b.nullable Rule.isEmpty && a.endsInNumber
  | .alt a b => a.endsInNumber || b.endsInNumber
  | .opt a | .star a | .more a => a.endsInNumber

theorem endsInNumber_body : ∀ r ∈ Rule.all, r.endsInNumber = false → r ∉ Rule.words →
    (Rule.production r).body.endsInNumber = false := by
  decide +kernel

theorem word_stops {r : Rule} (hr : r ∈ Rule.words) {c c' : Cursor} {ps : List (Pair Rule)}
    (h : grammar.answer true (.rule r) c = .ok ps c') :
    ∀ y ∈ c'.rest.head?, isWordChar y = false := by
  have hafter : c' = c.afterWord := by
    rcases List.mem_cons.mp hr with rfl | hr
    · rw [answer_ident_word] at h
      split at h
      · exact (Reply.ok.inj h).2.symm
      · exact nomatch h
    · obtain ⟨k, -, rfl⟩ := List.mem_map.mp hr
      rw [answer_kw_word] at h
      split at h
      · exact (Reply.ok.inj h).2.symm
      · exact nomatch h
  rw [hafter]
  exact c.afterWord_stops

/-- Between the cursors no word is begun that goes on. -/
def Spaced (c c' : Cursor) : Prop :=
  ∃ s, c.Reads s c' ∧ Parted s c'.rest

namespace Spaced

variable {c c₁ c₂ : Cursor}

theorem refl (c : Cursor) : Spaced c c :=
  ⟨[], .refl c, .nil⟩

theorem trans (h : Spaced c c₁) (h' : Spaced c₁ c₂) : Spaced c c₂ := by
  obtain ⟨s, hs, hparted⟩ := h
  obtain ⟨t, ht, hparted'⟩ := h'
  refine ⟨s ++ t, hs.trans ht, .append (fun hnil => ?_) hparted'⟩
  rw [hnil] at ht
  rw [ht.eq_of_nil]
  exact hparted

theorem after {s : Source} (hs : c.Reads s c₁) (h : Spaced c₁ c₂) (hne : c₂ ≠ c₁) :
    Spaced c c₂ := by
  obtain ⟨t, ht, hparted⟩ := h
  refine ⟨s ++ t, hs.trans ht, .append (fun hnil => ?_) hparted⟩
  rw [hnil] at ht
  exact absurd ht.eq_of_nil hne

theorem of_filler {ps : List (Pair Rule)} (h : grammar.answer true filler c = .ok ps c₁) :
    Spaced c c₁ := by
  obtain ⟨a, ha⟩ := Grammar.takes_of_answer h
  obtain ⟨hread, hgap⟩ := takes_filler.mp ha
  exact ⟨a, hread, hgap.parted⟩

end Spaced

/-- A match that does not end in a number reads its last word to the end. -/
theorem spaced_of_rounds {fuel : Nat} {tight : Bool} {e : Expr Rule}
    (he : e.endsInNumber = false) {c c' : Cursor} {ps : List (Pair Rule)}
    (h : grammar.rounds fuel tight e c = .ok ps c') : Spaced c c' := by
  induction fuel generalizing tight e c c' ps with
  | zero => exact nomatch h
  | succ fuel ih =>
      have hcases := Grammar.round_eq_ok h
      have hskip {c₁ c₂ : Cursor} {qs : List (Pair Rule)}
          (h : grammar.skip (grammar.rounds fuel) tight c₁ = .ok qs c₂) : Spaced c₁ c₂ := by
        cases tight with
        | true =>
            obtain ⟨-, rfl⟩ := Reply.ok.inj h
            exact .refl _
        | false => exact .of_filler (Grammar.answer_of_rounds h)
      cases e with
      | text chars =>
          refine ⟨chars, hcases.2, .of_last fun z hz => ?_⟩
          have hany : chars.any isWordChar = false := he
          simpa using List.any_eq_false.mp hany z (List.mem_of_getLast? hz)
      | char set => exact nomatch he
      | start =>
          obtain ⟨-, rfl, -⟩ := hcases
          exact .refl c'
      | finish =>
          obtain ⟨-, rfl, -⟩ := hcases
          exact .refl c'
      | neg a =>
          obtain ⟨-, -, rfl⟩ := hcases
          exact .refl c'
      | rule r =>
          obtain ⟨cs, hcs, -⟩ := hcases
          by_cases hr : r ∈ Rule.words
          · have htight : (grammar.production r).tight = true :=
              Rule.tight_of_isToken (isToken_of_mem_words hr)
            rw [htight, Bool.or_true] at hcs
            have hword := Grammar.answer_of_rounds hcs
            obtain ⟨s, hs⟩ := Grammar.answer_reads hword
            rw [← Grammar.answer_rule_tight] at hword
            exact ⟨s, hs, .of_head (word_stops hr hword)⟩
          · exact ih (endsInNumber_body r r.mem_all he hr) hcs
      | seq a b =>
          obtain ⟨ps₁, c₁, ps₂, c₂, ps₃, h₁, h₂, h₃, -⟩ := hcases
          obtain ⟨hb, ha⟩ := Bool.or_eq_false_iff.mp he
          have hsecond := ih hb h₃
          rcases Bool.and_eq_false_iff.mp ha with hnull | ha
          · obtain ⟨s₁, hs₁⟩ := Grammar.rounds_reads h₁
            obtain ⟨g, hg, -⟩ := hskip h₂
            obtain ⟨t, ht, hne⟩ := answer_reads_something hnull (Grammar.answer_of_rounds h₃)
            refine hsecond.after (hs₁.trans hg) ?_
            rintro rfl
            exact hne (ht.unique (.refl _))
          · exact (ih ha h₁).trans ((hskip h₂).trans hsecond)
      | alt a b =>
          obtain ⟨ha, hb⟩ := Bool.or_eq_false_iff.mp he
          rcases hcases with h₁ | ⟨-, h₁⟩
          · exact ih ha h₁
          · exact ih hb h₁
      | opt a =>
          rcases hcases with h₁ | ⟨-, -, rfl⟩
          · exact ih (e := a) he h₁
          · exact .refl c'
      | star a =>
          rcases hcases with ⟨ps₁, c₁, ps₂, h₁, h₂, -⟩ | ⟨-, -, rfl⟩
          · exact (ih (e := a) he h₁).trans (ih (e := .more a) he h₂)
          · exact .refl c'
      | more a =>
          rcases hcases with ⟨ps₁, c₁, ps₂, c₂, ps₃, h₁, h₂, h₃, -⟩ | ⟨-, rfl⟩
          · exact (hskip h₁).trans ((ih (e := a) he h₂).trans (ih (e := .more a) he h₃))
          · exact .refl c'

def Peg.Expr.leadsToName (e : Expr Rule) : Bool :=
  (e.leads (Rule.leads 3)).any fun l => decide (l = .name ∨ l = .any)

/-- Whether no part that may end in a number has one behind it that may begin with an identifier. -/
def Peg.Expr.isSpaced : Expr Rule → Bool
  | .seq a b => a.isSpaced && b.isSpaced && !(a.endsInNumber && b.leadsToName)
  | .alt a b => a.isSpaced && b.isSpaced
  | .opt a => a.isSpaced
  | .star a | .more a => a.isSpaced && !(a.endsInNumber && a.leadsToName)
  | _ => true

theorem spaced_body : ∀ r ∈ Rule.all, r.isLexical = false →
    (Rule.production r).body.isSpaced = true := by
  decide +kernel

theorem firm_of_ident {c c' : Cursor} {s : Source} (h : grammar.Takes (.rule .ident) c s c') :
    IsFirm c.rest := by
  rw [h.2.rest]
  exact (takes_ident h).firm c'.rest

theorem leadsToName_of_rounds {fuel : Nat} {e : Expr Rule} {c c' d : Cursor}
    {ps : List (Pair Rule)} (h : grammar.rounds fuel false e c = .ok ps c') {s r : Source}
    (hident : grammar.Takes (.rule .ident) c s d) (hr : d.Reads r c') : e.leadsToName = true := by
  rcases lead_of_rounds (firm_of_ident hident) h 3 with rfl | ⟨l, hl, hat⟩
  · obtain ⟨z, zs, rfl, -⟩ := (takes_ident hident).start
    exact nomatch (hident.2.trans hr).unique (.refl _)
  · refine List.any_eq_true.mpr ⟨l, hl, decide_eq_true ?_⟩
    refine hat.symm.imp_left fun hat => ?_
    exact (Option.some.inj ((lead_ident hident).symm.trans hat)).symm

/-- Between two parts that are kept apart, an identifier is read where no word goes on. -/
theorem spaced_of_apart {fuel : Nat} {a b : Expr Rule}
    (h : (!(a.endsInNumber && b.leadsToName)) = true) {c c₁ c₂ c' d : Cursor}
    {ps qs : List (Pair Rule)} (hfirst : grammar.rounds fuel false a c = .ok ps c₁)
    (hsecond : grammar.rounds fuel false b c₂ = .ok qs c') {s r : Source}
    (hident : grammar.Takes (.rule .ident) c₂ s d) (hr : d.Reads r c') : Spaced c c₁ := by
  rw [leadsToName_of_rounds hsecond hident hr, Bool.and_true, Bool.not_eq_true'] at h
  exact spaced_of_rounds h hfirst

/-- If the pair is that of an identifier, the match from one cursor to the other read it behind whole
pieces, and behind the end of a word at most if something else stands between. -/
def Names (c c' : Cursor) (p : Pair Rule) : Prop :=
  p.rule = .ident → ∃ d d' s r, p.start = d.offset ∧ p.stop = d'.offset ∧ Reaches c d ∧
    Spaced c d ∧ grammar.Takes (.rule .ident) d s d' ∧ d'.Reads r c'

namespace Names

variable {c c₁ c₂ c' : Cursor} {p : Pair Rule} {ps qs : List (Pair Rule)}

theorem widen (h : Names c c₁ p) {r : Source} (hr : c₁.Reads r c') : Names c c' p := by
  intro hp
  obtain ⟨d, d', s, r', hstart, hstop, hreach, hspace, hident, hr'⟩ := h hp
  exact ⟨d, d', s, r' ++ r, hstart, hstop, hreach, hspace, hident, hr'.trans hr⟩

theorem after (h : Names c₁ c' p) (hreach : Reaches c c₁)
    (hspace : ∀ {s r d}, grammar.Takes (.rule .ident) c₁ s d → d.Reads r c' → Spaced c c₁) :
    Names c c' p := by
  intro hp
  obtain ⟨d, d', s, r, hstart, hstop, hreach', hspace', hident, hr⟩ := h hp
  refine ⟨d, d', s, r, hstart, hstop, hreach.trans hreach', ?_, hident, hr⟩
  by_cases hd : d = c₁
  · subst hd
    exact hspace hident hr
  · obtain ⟨w, hw, -⟩ := hreach
    exact hspace'.after hw hd

/-- The pairs of two parts, the second of which begins between `c₁` and the end. -/
theorem append (hps : ∀ p ∈ ps, p.Every (Names c c₁)) (hqs : ∀ q ∈ qs, q.Every (Names c₂ c'))
    (hread : ∃ r, c₁.Reads r c') (hreach : Reaches c c₂)
    (hspace : ∀ {s r d}, grammar.Takes (.rule .ident) c₂ s d → d.Reads r c' → Spaced c c₂) :
    ∀ p ∈ ps ++ qs, p.Every (Names c c') := by
  obtain ⟨r, hr⟩ := hread
  rw [List.forall_mem_append]
  constructor
  · exact fun p hp => (hps p hp).mono fun q hq => hq.widen hr
  · exact fun q hq => (hqs q hq).mono fun p hp => hp.after hreach hspace

theorem of_token {r : Rule} (hr : r.isToken = true)
    (h : grammar.answer false (.rule r) c = .ok ps c') : ∀ p ∈ ps, p.Every (Names c c') := by
  have htight : (grammar.production r).tight = true := Rule.tight_of_isToken hr
  rw [Grammar.answer_rule_loose, htight] at h
  obtain ⟨cs, hcs, rfl⟩ := Reply.close_eq_ok_iff.mp h
  have hpair : (grammar.production r).leavesPair = true := Rule.leavesPair_of_isToken hr
  cases Grammar.answer_tight hcs
  rw [if_pos hpair, List.forall_mem_singleton]
  refine .node (fun hident => ?_) nofun
  obtain rfl : r = .ident := hident
  rw [← Grammar.answer_rule_tight] at hcs
  obtain ⟨s, hs⟩ := Grammar.takes_of_answer hcs
  exact ⟨c, c', s, [], rfl, rfl, .refl c, .refl c, hs, .refl c'⟩

theorem of_tightOperators
    (h : grammar.answer false tightOperators c = .ok ps c') : ∀ p ∈ ps, p.Every (Names c c') := by
  rcases Grammar.answer_alt_eq_ok_iff.mp h with h | ⟨-, h⟩
  · exact of_token rfl h
  · rcases Grammar.answer_alt_eq_ok_iff.mp h with h | ⟨-, h⟩
    · exact of_token rfl h
    · exact of_token rfl h

end Names

theorem names_of_rounds {fuel : Nat} {e : Expr Rule} (hsteady : e.isSteady = true)
    (hspaced : e.isSpaced = true) {c c' : Cursor} (hfirm : (∀ a, e ≠ .more a) → IsFirm c.rest)
    {ps : List (Pair Rule)} (h : grammar.rounds fuel false e c = .ok ps c') :
    ∀ p ∈ ps, p.Every (Names c c') := by
  induction fuel generalizing e c c' ps with
  | zero => exact nomatch h
  | succ fuel ih =>
      have hcases := Grammar.round_eq_ok h
      have hskip {c₁ c₂ : Cursor} {qs : List (Pair Rule)}
          (h : grammar.skip (grammar.rounds fuel) false c₁ = .ok qs c₂) :
          Reaches c₁ c₂ ∧ IsFirm c₂.rest ∧ Spaced c₁ c₂ := by
        have hanswer : grammar.answer true filler c₁ = .ok qs c₂ := Grammar.answer_of_rounds h
        obtain ⟨hreach, hfirm⟩ := Reaches.of_filler hanswer
        exact ⟨hreach, hfirm, .of_filler hanswer⟩
      cases e with
      | text chars =>
          rw [hcases.1]
          exact nofun
      | char set => exact nomatch hsteady
      | start =>
          rw [hcases.1]
          exact nofun
      | finish =>
          rw [hcases.1]
          exact nofun
      | neg a =>
          rw [hcases.2.1]
          exact nofun
      | rule r =>
          rcases Bool.or_eq_true_iff.mp hsteady with hr | hr
          · exact Names.of_token (Bool.and_eq_true_iff.mp hr).1 (Grammar.answer_of_rounds h)
          · rw [Bool.not_eq_true'] at hr
            obtain ⟨cs, hcs, rfl⟩ := hcases
            have hloose : (grammar.production r).tight = false := Rule.loose_of_isLexical hr
            rw [hloose] at hcs
            have hinside := ih (steady_body r r.mem_all hr) (spaced_body r r.mem_all hr)
              (fun _ => hfirm nofun) hcs
            split
            · rw [List.forall_mem_singleton]
              refine .node (fun hident => ?_) hinside
              obtain rfl : r = .ident := hident
              exact nomatch hr
            · exact hinside
      | seq a b =>
          obtain ⟨ps₁, c₁, ps₂, c₂, ps₃, h₁, h₂, h₃, rfl⟩ := hcases
          obtain ⟨hboth, hapart⟩ := Bool.and_eq_true_iff.mp hspaced
          obtain ⟨haspaced, hbspaced⟩ := Bool.and_eq_true_iff.mp hboth
          obtain ⟨hasteady, hbsteady⟩ := Bool.and_eq_true_iff.mp hsteady
          obtain ⟨hgap, hfirm₂, hspace⟩ := hskip h₂
          have hreach : Reaches c c₁ := steady_seq_first hsteady (hfirm nofun)
            (Grammar.answer_of_rounds h₁) (Grammar.answer_of_rounds h₂)
            (Grammar.answer_of_rounds h₃)
          have hfirst : ∀ p ∈ ps₁, p.Every (Names c c₁) := by
            rcases Bool.or_eq_true_iff.mp hasteady with ha | ha
            · exact ih ha haspaced (fun _ => hfirm nofun) h₁
            · rw [Bool.and_eq_true, decide_eq_true_eq] at ha
              rw [ha.1] at h₁
              exact Names.of_tightOperators (Grammar.answer_of_rounds h₁)
-- What the second part reads stands behind whole pieces, because the first part reads some.
          obtain ⟨g, hg, -⟩ := hspace
          obtain ⟨t, ht⟩ := Grammar.rounds_reads h₃
          refine Names.append hfirst (ih hbsteady hbspaced (fun _ => hfirm₂) h₃)
            ⟨_, hg.trans ht⟩ (hreach.trans hgap) ?_
          exact fun hident hr => (spaced_of_apart hapart h₁ h₃ hident hr).trans (hskip h₂).2.2
      | alt a b =>
          obtain ⟨haspaced, hbspaced⟩ := Bool.and_eq_true_iff.mp hspaced
          obtain ⟨hasteady, hbsteady⟩ := Bool.and_eq_true_iff.mp hsteady
          rcases hcases with h₁ | ⟨-, h₁⟩
          · exact ih hasteady haspaced (fun _ => hfirm nofun) h₁
          · exact ih hbsteady hbspaced (fun _ => hfirm nofun) h₁
      | opt a =>
          rcases hcases with h₁ | ⟨-, rfl, -⟩
          · exact ih (e := a) hsteady hspaced (fun _ => hfirm nofun) h₁
          · exact nofun
      | star a =>
          obtain ⟨haspaced, hapart⟩ := Bool.and_eq_true_iff.mp hspaced
          rcases hcases with ⟨ps₁, c₁, ps₂, h₁, h₂, rfl⟩ | ⟨-, rfl, -⟩
          · refine Names.append (ih (e := a) hsteady haspaced (fun _ => hfirm nofun) h₁)
              (ih (e := .more a) hsteady hspaced (fun hne => absurd rfl (hne a)) h₂)
              (Grammar.rounds_reads h₂)
              (reaches_of_rounds (e := a) hsteady (fun _ => hfirm nofun) h₁) ?_
            exact fun hident hr => spaced_of_apart (b := .more a) hapart h₁ h₂ hident hr
          · exact nofun
      | more a =>
          obtain ⟨haspaced, hapart⟩ := Bool.and_eq_true_iff.mp hspaced
          rcases hcases with ⟨ps₁, c₁, ps₂, c₂, ps₃, h₁, h₂, h₃, rfl⟩ | ⟨rfl, -⟩
          · obtain ⟨hgap, hfirm₁, hspace⟩ := hskip h₁
            have hbody := ih (e := a) hsteady haspaced (fun _ => hfirm₁) h₂
            have hfirst : ∀ p ∈ ps₂, p.Every (Names c c₂) :=
              fun p hp => (hbody p hp).mono fun q hq => hq.after hgap fun _ _ => hspace
            refine Names.append hfirst
              (ih (e := .more a) hsteady hspaced (fun hne => absurd rfl (hne a)) h₃)
              (Grammar.rounds_reads h₃)
              (hgap.trans (reaches_of_rounds (e := a) hsteady (fun _ => hfirm₁) h₂)) ?_
            exact fun hident hr =>
              hspace.trans (spaced_of_apart (b := .more a) hapart h₂ h₃ hident hr)
          · exact nofun

/-- In the match of a file, every identifier is read behind whole pieces, and not directly behind
another word or a number. -/
theorem names_of_answer_file {source : Source} {p : Pair Rule} {after : Cursor}
    (h : grammar.answer false (.rule .file) (.ofText source) = .ok [p] after) :
    p.Every (Names (.ofText source) after) := by
  obtain ⟨c, cs, hskip, hitems, hp⟩ := answer_file_eq_ok.mp h
  cases hp
  obtain ⟨hreach, hfirm⟩ := Reaches.of_filler hskip
  obtain ⟨n, hn⟩ := grammar.settles_rounds false
    (.seq (.star (.rule .item)) (.rule .endOfInput)) c
  have hnames := names_of_rounds rfl rfl (fun _ => hfirm) ((hn n (Nat.le_refl n)).trans hitems)
  refine .node nofun fun q hq => (hnames q hq).mono fun p hp => hp.after hreach ?_
  exact fun _ _ => .of_filler hskip

end XiFront

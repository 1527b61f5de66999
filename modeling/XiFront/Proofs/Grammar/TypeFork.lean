import XiFront.Proofs.Grammar.Fork
import XiFront.Proofs.Grammar.TypeList

namespace XiFront

open Peg

namespace Fork

/-- Where the texts part, a type on the second text is a list of types on the first, and no tuple
ends there that has begun before. -/
structure Doorway (f : Fork) : Prop where
  enters {c c' d' : Cursor} : f.Begins c c' → f.At c c' → Matches (.rule .ty) c' d' →
    ∃ d, Types c d ∧ Behind f.Begins d d'
  shut {c c' d' : Cursor} : f.Begins c c' → ¬f.At c c' → Matches (.rule .tupleType) c' d' →
    ')' :: d'.rest ≠ f.next'

variable {f : Fork} {c c' d d' n n' : Cursor}

theorem Begins.reads_back (h : f.Begins c c') (hat : ¬f.At c c') {z : Char} (hz : isPlain z = true)
    (hread : c'.Reads [z] d') : ∃ d, c.Reads [z] d ∧ Behind f.Begins d d' := by
  obtain ⟨ps, d, hok, hd⟩ := h.sign_back hat hz (Matches.text_iff.mpr hread).choose_spec
  exact ⟨d, Matches.text_iff.mp ⟨ps, hok⟩, hd⟩

theorem not_at_of_reads {z : Char} (hread : c'.Reads [z] d') (hz : z ≠ '(' ∧ z ≠ ')') :
    ¬f.At c c' := by
  intro hat
  obtain ⟨y, hy, hparen⟩ := f.paren
  rw [← hat.2, hread.rest] at hy
  cases Option.some.inj hy
  exact hparen.elim hz.1 hz.2

theorem Begins.behind (h : f.Begins c c') : Behind f.Begins c c' :=
  ⟨c, c', answer_filler_firm h.firm.1, answer_filler_firm h.firm.2, h⟩

theorem Begins.word_fails (h : f.Begins c c') (hat : ¬f.At c c') {r : Rule} (hr : r ∈ Rule.words)
    (hfail : FailsAt (.rule r) c') : FailsAt (.rule r) c := by
  obtain ⟨-, -, ⟨w, hne, -, hw, hc, hc'⟩ | hat' | ⟨hrest, -, -⟩⟩ := h
  · exact XiFront.word_fails hr hne (f.quiet.parted w) (f.parted hw) hc' hc hfail
  · exact absurd hat' hat
  · exact (atom_agrees_of_rest hrest.symm (e := .rule r) (isToken_of_mem_words hr)).eq_fail hfail

def isName (r : Rule) : Bool :=
  decide (r ∈ [.path, .segment, .dot, .basicType])

def isNameLeaf (e : Expr Rule) : Bool :=
  e.isNamePart || decide (e = .rule .generics)

theorem passes_name : ∀ r ∈ Rule.all, isName r = true → r.isLexical = false ∧ r ≠ .file ∧
    (Rule.production r).body.passes isNameLeaf isName (fun s b => s.clear 20 b) = true := by
  decide +kernel

/-- Type arguments are read on the first text if they are on the second, up to a length of what is
left. -/
def Arguments (f : Fork) (length : Nat) : Prop :=
  ∀ ⦃c c' d'⦄, f.Begins c c' → c'.rest.length ≤ length → Matches (.rule .generics) c' d' →
    ∃ d, Matches (.rule .generics) c d ∧ Behind f.Begins d d'

variable {length : Nat}

theorem Arguments.leaf_back (hgenerics : f.Arguments length) {e : Expr Rule}
    {ps' : List (Pair Rule)} (he : isNameLeaf e = true) (h : f.Begins c c')
    (hlength : c'.rest.length ≤ length) (hderives : Derives e c' ps' d') :
    ∃ ps d, Derives e c ps d ∧ Behind (fun n' n => f.Begins n n' ∧ n'.rest.length ≤ length) d' d := by
  obtain ⟨⟨ps, d, hok, n, n', hn, hn', hbegins⟩, hwritten⟩ :
      (∃ ps d, grammar.answer false e c = .ok ps d ∧ Behind f.Begins d d') ∧
        e.isWritten = true := by
    rcases Bool.or_eq_true_iff.mp he with he | he
    · exact ⟨h.name_back he hderives.answer, written_of_isNamePart he⟩
    · obtain rfl := of_decide_eq_true he
      obtain ⟨d, ⟨ps, hok⟩, hd⟩ := hgenerics h hlength ⟨ps', hderives.answer⟩
      exact ⟨⟨ps, d, hok, hd⟩, rfl⟩
  obtain ⟨s, hs⟩ := hderives.reads
  obtain ⟨t, ht⟩ := Grammar.answer_reads hn'
  have hle : n'.rest.length ≤ length := by
    have h₁ := hs.length
    have h₂ := ht.length
    omega
  exact ⟨ps, d, .of_answer hwritten hok, n', n, hn', hn, hbegins, hle⟩

theorem name_opens {r : Rule} (hr : isName r = true) : (Rule.production r).tight = false ∧
    (Rule.production r).body.passes isNameLeaf isName (fun s b => s.clear 20 b) = true ∧
    ∀ s ∈ (Rule.production r).body.trials, s ∈ r.trials := by
  obtain ⟨hlexical, hfile, hpasses⟩ := passes_name r r.mem_all hr
  exact ⟨Rule.loose_of_isLexical hlexical, hpasses, trials_body r r.mem_all hlexical hfile⟩

def names (f : Fork) (hgenerics : f.Arguments length) : Passage where
  Begins c' c := f.Begins c c' ∧ c'.rest.length ≤ length
  Sound _ _ _ := True
  Same _ _ := True
  leaf := isNameLeaf
  part := isName
  special _ _ := false
  firm h := ⟨h.1.firm.2, h.1.firm.1⟩
  injective h h' := h.1.functional h'.1
  parts _ _ _ _ := ⟨trivial, trivial⟩
  nil := trivial
  append _ _ := trivial
  node _ _ := trivial
  opens := name_opens
  leaves he h hderives _ :=
    have ⟨ps, d, hd, hbehind⟩ := hgenerics.leaf_back he h.1 h.2 hderives
    ⟨ps, d, hd, hbehind, trivial⟩
  rules _ _ _ _ := .inl trivial
  yields h := absurd h Bool.false_ne_true

theorem Arguments.name_back (hgenerics : f.Arguments length) (h : f.Begins c c')
    (hlength : c'.rest.length ≤ length) {r : Rule} (hr : isName r = true)
    (hname : Matches (.rule r) c' d')
    (hends : ∀ n n', grammar.answer true filler d' = .ok [] n' → f.Begins n n' →
      ∀ s ∈ r.trials, FailsAt s n) : ∃ d, Matches (.rule r) c d ∧ Behind f.Begins d d' := by
  obtain ⟨ps', hok⟩ := hname
  have hpasses : (f.names hgenerics).passes (.rule r) = true :=
    Bool.or_eq_true_iff.mpr (.inr hr)
  obtain ⟨ps, d, hd, ⟨n', n, hn', hn, hbegins, -⟩, -⟩ :=
    Passage.carried (k := f.names hgenerics) (.of_rule hok) hpasses ⟨h, hlength⟩ trivial
      fun n' n hn' hbegins s hs _ => hends n n' hn' hbegins.1 s hs
  exact ⟨d, ⟨ps, hd.answer⟩, n, n', hn, hn', hbegins⟩

def Lists (f : Fork) (length : Nat) : Prop :=
  ∀ ⦃c c' d'⦄, f.Begins c c' → c'.rest.length ≤ length → Types c' d' →
    (∀ n n', grammar.answer true filler d' = .ok [] n' → f.Begins n n' → EndsType n) →
    ∃ d, Types c d ∧ Behind f.Begins d d'

theorem Lists.before_sign (hlists : f.Lists length) (h : f.Begins c c')
    (hlength : c'.rest.length ≤ length) {m' : Cursor} (htypes : Types c' d')
    (hskip : grammar.answer true filler d' = .ok [] n') {z : Char} (hz : z ∈ [',', ')', '>'])
    (hread : n'.Reads [z] m') (hat : ∀ n, ¬f.At n n') :
    ∃ d n m, Types c d ∧ grammar.answer true filler d = .ok [] n ∧ n.Reads [z] m ∧
      Behind f.Begins m m' := by
  have hplain : ∀ z ∈ [',', ')', '>'], isPlain z = true := by decide
  have hback {n : Cursor} (hn : f.Begins n n') := hn.reads_back (hat n) (hplain z hz) hread
  obtain ⟨d, hd, n, n₁', hn, hn', hbegins⟩ := hlists h hlength htypes (by
    intro n n₁' hn' hbegins
    obtain ⟨-, rfl⟩ := Reply.ok.inj (hskip.symm.trans hn')
    obtain ⟨m, hm, -⟩ := hback hbegins
    exact .of_sign hz hm)
  obtain ⟨-, rfl⟩ := Reply.ok.inj (hskip.symm.trans hn')
  obtain ⟨m, hm, hbehind⟩ := hback hbegins
  exact ⟨d, n, m, hd, hn, hm, hbehind⟩

theorem Begins.opened (h : f.Begins c c') (hat : ¬f.At c c') {z : Char} (hz : isPlain z = true)
    {a' b' : Cursor} (hread : c'.Reads [z] a') (hskip : grammar.answer true filler a' = .ok [] b')
    (hlength : c'.rest.length ≤ length + 1) :
    ∃ a b, c.Reads [z] a ∧ grammar.answer true filler a = .ok [] b ∧ f.Begins b b' ∧
      b'.rest.length ≤ length := by
  obtain ⟨a, ha, b, b₁', hb, hb', hbegins⟩ := h.reads_back hat hz hread
  obtain ⟨-, rfl⟩ := Reply.ok.inj (hskip.symm.trans hb')
  obtain ⟨t, ht⟩ := Grammar.answer_reads hskip
  have hle : b'.rest.length ≤ length := by
    have hshort := ht.length
    rw [hread.rest, List.singleton_append, List.length_cons] at hlength
    omega
  exact ⟨a, b, ha, hb, hbegins, hle⟩

theorem Lists.generics_back (hlists : f.Lists length) (h : f.Begins c c')
    (hlength : c'.rest.length ≤ length + 1) (hmatch : Matches (.rule .generics) c' d') :
    ∃ d, Matches (.rule .generics) c d ∧ Behind f.Begins d d' := by
  obtain ⟨a', b', e', n', hopen, hskip, htypes, hend, hclose⟩ := matches_generics_iff.mp hmatch
  obtain ⟨a, b, ha, hb, hbegins, hle⟩ :=
    h.opened (not_at_of_reads hopen (by decide)) rfl hopen hskip hlength
  obtain ⟨e, n, d, he, hn, hd, hbehind⟩ :=
    hlists.before_sign hbegins hle htypes hend (by decide) hclose
      fun n => not_at_of_reads hclose (by decide)
  exact ⟨d, matches_generics_iff.mpr ⟨a, b, e, n, ha, hb, he, hn, hd⟩, hbehind⟩

theorem Lists.tupleType_back (hdoor : f.Doorway) (hlists : f.Lists length) (h : f.Begins c c')
    (hat : ¬f.At c c') (hlength : c'.rest.length ≤ length + 1)
    (hmatch : Matches (.rule .tupleType) c' d') :
    ∃ d, Matches (.rule .tupleType) c d ∧ Behind f.Begins d d' := by
  have hshut {n n' : Cursor} (hclose : n'.Reads [')'] d') : ¬f.At n n' := fun hat' =>
    hdoor.shut h hat hmatch (hclose.rest.symm.trans hat'.2)
  obtain ⟨a', b', hopen, hskip, hrest⟩ := matches_tupleType_iff.mp hmatch
  obtain ⟨a, b, ha, hb, hbegins, hle⟩ := h.opened hat rfl hopen hskip hlength
  rcases hrest with hclose | ⟨e', n', htypes, hend, hclose | ⟨m', k', hcomma, hnext, hclose⟩⟩
  · obtain ⟨d, hd, hbehind⟩ := hbegins.reads_back (hshut hclose) rfl hclose
    exact ⟨d, matches_tupleType_iff.mpr ⟨a, b, ha, hb, .inl hd⟩, hbehind⟩
  · obtain ⟨e, n, d, he, hn, hd, hbehind⟩ :=
      hlists.before_sign hbegins hle htypes hend (by decide) hclose fun n => hshut hclose
    exact ⟨d, matches_tupleType_iff.mpr ⟨a, b, ha, hb, .inr ⟨e, n, he, hn, .inl hd⟩⟩, hbehind⟩
  · obtain ⟨e, n, m, he, hn, hm, k, k₁', hk, hk', hbegins'⟩ :=
      hlists.before_sign hbegins hle htypes hend (by decide) hcomma fun n =>
        not_at_of_reads hcomma (by decide)
    obtain ⟨-, rfl⟩ := Reply.ok.inj (hnext.symm.trans hk')
    obtain ⟨d, hd, hbehind⟩ := hbegins'.reads_back (hshut hclose) rfl hclose
    exact ⟨d, matches_tupleType_iff.mpr
      ⟨a, b, ha, hb, .inr ⟨e, n, he, hn, .inr ⟨m, k, hm, hk, hd⟩⟩⟩, hbehind⟩

theorem Lists.nonArrayType_back (hdoor : f.Doorway) (hlists : f.Lists length) (h : f.Begins c c')
    (hat : ¬f.At c c') (hlength : c'.rest.length ≤ length + 1)
    (hmatch : Matches (.rule .nonArrayType) c' d')
    (hends : ∀ n n', grammar.answer true filler d' = .ok [] n' → f.Begins n n' →
      ∀ s ∈ Rule.path.trials, FailsAt s n) :
    ∃ d, Matches (.rule .nonArrayType) c d ∧ Behind f.Begins d d' := by
  have hgenerics : f.Arguments (length + 1) := fun _ _ _ h => hlists.generics_back h
  have hbasic : FailsAt (.rule .basicType) c' → FailsAt (.rule .basicType) c :=
    basicType_fails_of fun k => h.word_fails hat (by simp [Rule.words, k.mem_all])
  have hself (hfail : FailsAt (.rule (.kw .upperSelf)) c') : FailsAt (.rule (.kw .upperSelf)) c :=
    h.word_fails hat (by decide) hfail
  rcases matches_nonArrayType_iff.mp hmatch with
    hmatch | ⟨hnobasic, hmatch | ⟨hnoself, hmatch | ⟨-, hmatch⟩⟩⟩
  · obtain ⟨d, hd, hbehind⟩ := hgenerics.name_back h hlength rfl hmatch
      fun _ _ _ _ s hs => absurd hs List.not_mem_nil
    exact ⟨d, matches_nonArrayType_iff.mpr (.inl hd), hbehind⟩
  · obtain ⟨ps', hok⟩ := hmatch
    obtain ⟨ps, d, hd, hbehind⟩ := h.name_back (e := .rule (.kw .upperSelf)) (by decide) hok
    exact ⟨d, matches_nonArrayType_iff.mpr (.inr ⟨hbasic hnobasic, .inl ⟨ps, hd⟩⟩), hbehind⟩
  · obtain ⟨d, hd, hbehind⟩ := hgenerics.name_back h hlength rfl hmatch hends
    exact ⟨d, matches_nonArrayType_iff.mpr
      (.inr ⟨hbasic hnobasic, .inr ⟨hself hnoself, .inl hd⟩⟩), hbehind⟩
  · obtain ⟨d, hd, hbehind⟩ := hlists.tupleType_back hdoor h hat hlength hmatch
    obtain ⟨a, b, hopen, -⟩ := matches_tupleType_iff.mp hd
    have hnopath : FailsAt (.rule .path) c :=
      fails_of_sign (by decide) hopen
    exact ⟨d, matches_nonArrayType_iff.mpr
      (.inr ⟨hbasic hnobasic, .inr ⟨hself hnoself, .inr ⟨hnopath, hd⟩⟩⟩), hbehind⟩

theorem Begins.arraySuffix_back (h : f.Begins c c') (hmatch : Matches (.rule .arraySuffix) c' d') :
    ∃ d, Matches (.rule .arraySuffix) c d ∧ (∃ a, c.Reads ['['] a) ∧ Behind f.Begins d d' := by
  have hiff {c d : Cursor} : Matches (.rule .arraySuffix) c d ↔
      ∃ a b, c.Reads ['['] a ∧ grammar.answer true filler a = .ok [] b ∧ b.Reads [']'] d := by
    rw [Matches.rule_iff rfl]
    refine Matches.seq_iff.trans ?_
    simp only [Rule.symbol, Matches.text_iff]
  obtain ⟨a', b', hopen, hskip, hclose⟩ := hiff.mp hmatch
  obtain ⟨a, ha, b, b₁', hb, hb', hbegins⟩ :=
    h.reads_back (not_at_of_reads hopen (by decide)) rfl hopen
  obtain ⟨-, rfl⟩ := Reply.ok.inj (hskip.symm.trans hb')
  obtain ⟨d, hd, hbehind⟩ :=
    hbegins.reads_back (not_at_of_reads hclose (by decide)) rfl hclose
  exact ⟨d, hiff.mpr ⟨a, b, ha, hb, hd⟩, ⟨a, ha⟩, hbehind⟩

theorem Lists.ty_back (hdoor : f.Doorway) (hlists : f.Lists length) (h : f.Begins c c')
    (hat : ¬f.At c c') (hlength : c'.rest.length ≤ length + 1) (hmatch : Matches (.rule .ty) c' d')
    (hends : ∀ n n', grammar.answer true filler d' = .ok [] n' → f.Begins n n' → EndsType n) :
    ∃ d, Matches (.rule .ty) c d ∧ Behind f.Begins d d' := by
  obtain ⟨e', n', hname, hskip, hopt⟩ := matches_ty_iff.mp hmatch
  have hlater {n₁' : Cursor} (hn : grammar.answer true filler e' = .ok [] n₁') : n' = n₁' :=
    (Reply.ok.inj (hskip.symm.trans hn)).2
  rcases Matches.opt_iff.mp hopt with hsuffix | ⟨hnosuffix, rfl⟩
  · obtain ⟨e, he, n, n₁', hn, hn', hbegins⟩ :=
      hlists.nonArrayType_back hdoor h hat hlength hname (by
        intro n n₁' hn' hbegins s hs
        obtain rfl := hlater hn'
        obtain ⟨-, -, ⟨a, ha⟩, -⟩ := hbegins.arraySuffix_back hsuffix
        exact fails_of_sign (z := '[') hs ha)
    obtain rfl := hlater hn'
    obtain ⟨d, hd, -, hbehind⟩ := hbegins.arraySuffix_back hsuffix
    exact ⟨d, matches_ty_iff.mpr ⟨e, n, he, hn, Matches.opt_iff.mpr (.inl hd)⟩, hbehind⟩
  · have hstays := firm_of_filler hskip
    obtain ⟨e, he, n, n₁', hn, hn', hbegins⟩ :=
      hlists.nonArrayType_back hdoor h hat hlength hname (by
        intro n n₁' hn' hbegins s hs
        obtain rfl := hlater hn'
        exact hends n _ hstays hbegins s (List.mem_cons_of_mem _ hs))
    obtain rfl := hlater hn'
    have hfail := hends n _ hstays hbegins _ List.mem_cons_self
    exact ⟨n, matches_ty_iff.mpr ⟨e, n, he, hn, Matches.opt_iff.mpr (.inr ⟨hfail, rfl⟩)⟩,
      hbegins.behind⟩

theorem Lists.step (hdoor : f.Doorway) (hlists : f.Lists length) : f.Lists (length + 1) := by
  -- Along the list; what is inside its types is shorter, because brackets are around it.
  intro c c' d' h hlength htypes hends
  induction htypes generalizing c with
  | @one c' d' hty =>
      by_cases hat : f.At c c'
      · exact hdoor.enters h hat hty
      · obtain ⟨d, hd, hbehind⟩ := hlists.ty_back hdoor h hat hlength hty hends
        exact ⟨d, .one hd, hbehind⟩
  | @cons c' d' n' m' k' e' hty hskip hcomma hnext hrest ih =>
      have hback {n : Cursor} (hn : f.Begins n n') :=
        hn.reads_back (not_at_of_reads hcomma (by decide)) rfl hcomma
      have hlater {n₁' : Cursor} (hn : grammar.answer true filler d' = .ok [] n₁') : n' = n₁' :=
        (Reply.ok.inj (hskip.symm.trans hn)).2
      have hfirst : ∃ d, Types c d ∧ Behind f.Begins d d' := by
        by_cases hat : f.At c c'
        · exact hdoor.enters h hat hty
        · obtain ⟨d, hd, hbehind⟩ := hlists.ty_back hdoor h hat hlength hty (by
            intro n n₁' hn' hbegins
            obtain rfl := hlater hn'
            obtain ⟨m, hm, -⟩ := hback hbegins
            exact .of_sign (by decide) hm)
          exact ⟨d, .one hd, hbehind⟩
      obtain ⟨d, hd, n, n₁', hn, hn', hbegins⟩ := hfirst
      obtain rfl := hlater hn'
      obtain ⟨m, hm, k, k₁', hk, hk', hbegins'⟩ := hback hbegins
      obtain ⟨-, rfl⟩ := Reply.ok.inj (hnext.symm.trans hk')
      have hle : k'.rest.length ≤ length + 1 := by
        obtain ⟨s, hs⟩ := hty.reads
        obtain ⟨t, ht⟩ := Grammar.answer_reads hskip
        obtain ⟨u, hu⟩ := Grammar.answer_reads hnext
        have h₁ := hs.length
        have h₂ := ht.length
        have h₃ := hcomma.length
        have h₄ := hu.length
        omega
      obtain ⟨e, he, hbehind⟩ := ih hbegins' hle hends
      exact ⟨e, hd.append hn hm hk he, hbehind⟩

/-- A list of types on the second text is one on the first. -/
theorem Doorway.lists (hdoor : f.Doorway) (length : Nat) : f.Lists length := by
  induction length with
  | zero =>
      intro c c' d' h hlength htypes
      have hty : ∃ e, Matches (.rule .ty) c' e := by
        cases htypes with
        | one h => exact ⟨_, h⟩
        | cons h _ _ _ _ => exact ⟨_, h⟩
      obtain ⟨e, ps, hok⟩ := hty
      obtain ⟨s, hs, hne⟩ := answer_reads_something (e := .rule .ty) rfl hok
      rw [hs.rest] at hlength
      have := List.length_pos_iff.mpr hne
      simp only [List.length_append] at hlength
      omega
  | succ length ih => exact ih.step hdoor

theorem Doorway.generics_fail (hdoor : f.Doorway) (h : f.Begins c c')
    (hfail : FailsAt (.rule .generics) c) : FailsAt (.rule .generics) c' := by
  refine fails_of_not_matches rfl fun d' hmatch => ?_
  obtain ⟨d, hd, -⟩ := (hdoor.lists c'.rest.length).generics_back h (Nat.le_succ _) hmatch
  exact hd.not_fails hfail

end Fork

end XiFront

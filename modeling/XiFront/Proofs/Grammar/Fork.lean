import XiFront.Proofs.Grammar.Lookahead
import XiFront.Proofs.Grammar.Passage
import XiFront.Proofs.Parse.Interchange

namespace XiFront

open Peg

theorem byteLength_eq_zero {s : Source} (h : Source.byteLength s = 0) : s = [] := by
  cases s with
  | nil => rfl
  | cons z s =>
      rw [Source.byteLength_cons] at h
      have hpos := z.utf8Size_pos
      omega

theorem suffix_of_byteLength_le {s t l : Source} (hs : s <:+ l) (ht : t <:+ l)
    (h : Source.byteLength s ≤ Source.byteLength t) : s <:+ t := by
  rcases List.suffix_or_suffix_of_suffix hs ht with hst | ⟨r, rfl⟩
  · exact hst
  · rw [Source.byteLength_append] at h
    rw [byteLength_eq_zero (s := r) (by omega)]
    exact List.suffix_rfl

theorem Peg.Cursor.In.eq_of_rest {source : Source} {c d : Cursor} (hc : c.In source)
    (hd : d.In source) (h : c.rest = d.rest) : c = d := by
  have hoffset := hc.offset_add.trans hd.offset_add.symm
  rw [h] at hoffset
  obtain ⟨rest, offset⟩ := c
  obtain ⟨rest', offset'⟩ := d
  obtain rfl : rest = rest' := h
  obtain rfl : offset = offset' := Nat.add_right_cancel hoffset
  rfl

/-- Two texts that part at a parenthesis.  `pieces` tells what may come before. -/
structure Fork where
  source : Source
  source' : Source
  gap : List Char
  next : List Char
  gap' : List Char
  next' : List Char
  pieces : List Char → Prop
  skipped : IsGap gap next
  skipped' : IsGap gap' next'
  slashSafe : SlashSafe (gap ++ next) (gap' ++ next')
  next_ne : next ≠ []
  paren : ∃ z ∈ next'.head?, z = '(' ∨ z = ')'
  longer : Source.byteLength next < Source.byteLength next'
  cut {w : List Char} : pieces w → Cut (gap ++ next) w
  parted {w : List Char} : pieces w → Parted w (gap ++ next)
  rest {s w : List Char} : pieces (s ++ w) → Trail (w ++ (gap ++ next)) s →
    Cut (gap ++ next) w → pieces w

namespace Fork

variable (f : Fork)

abbrev old : List Char :=
  f.gap ++ f.next

abbrev new : List Char :=
  f.gap' ++ f.next'

def Ahead (c c' : Cursor) : Prop :=
  ∃ w, w ≠ [] ∧ IsFirm (w ++ f.old) ∧ f.pieces w ∧ c.rest = w ++ f.old ∧ c'.rest = w ++ f.new

def At (c c' : Cursor) : Prop :=
  c.rest = f.next ∧ c'.rest = f.next'

def Beyond (c : Cursor) : Prop :=
  Source.byteLength c.rest < Source.byteLength f.next

/-- Behind the place the same text comes next. -/
def Past (c c' : Cursor) : Prop :=
  c.rest = c'.rest ∧ IsFirm c.rest ∧ f.Beyond c

def Begins (c c' : Cursor) : Prop :=
  c.In f.source ∧ c'.In f.source' ∧ (f.Ahead c c' ∨ f.At c c' ∨ f.Past c c')

variable {f} {c c' d d' : Cursor}

theorem Ahead.not_beyond (h : f.Ahead c c') : ¬f.Beyond c := by
  obtain ⟨w, -, -, -, hc, -⟩ := h
  rw [Beyond, hc]
  simp only [old, Source.byteLength_append]
  omega

theorem At.not_beyond (h : f.At c c') : ¬f.Beyond c := by
  rw [Beyond, h.1]
  omega

theorem Begins.firm (h : f.Begins c c') : IsFirm c.rest ∧ IsFirm c'.rest := by
  obtain ⟨-, -, ⟨w, hne, hfirm, hw, hc, hc'⟩ | ⟨hc, hc'⟩ | ⟨hc, hfirm, -⟩⟩ := h
  · rw [hc, hc']
    exact ⟨hfirm, (f.cut hw).firm hne hfirm f.slashSafe⟩
  · rw [hc, hc']
    exact ⟨f.skipped.firm, f.skipped'.firm⟩
  · rw [← hc]
    exact ⟨hfirm, hfirm⟩

theorem Begins.rest_eq_iff (h : f.Begins c c') (h' : f.Begins d d') :
    c.rest = d.rest ↔ c'.rest = d'.rest := by
  have hlonger := f.longer
  have hpos {w : List Char} (hw : w ≠ []) : 0 < Source.byteLength w :=
    Nat.pos_of_ne_zero fun hzero => hw (byteLength_eq_zero hzero)
  have hne {a b : List Char} (hab : Source.byteLength a ≠ Source.byteLength b) : a ≠ b :=
    fun h => hab (h ▸ rfl)
  obtain ⟨-, -, ⟨w, hw, -, -, hc, hc'⟩ | ⟨hc, hc'⟩ | ⟨hc, -, hlt⟩⟩ := h <;>
    obtain ⟨-, -, ⟨v, hv, -, -, hd, hd'⟩ | ⟨hd, hd'⟩ | ⟨hd, -, hlt'⟩⟩ := h'
  · rw [hc, hc', hd, hd', List.append_left_inj, List.append_left_inj]
  · have := hpos hw
    rw [hc, hc', hd, hd']
    refine iff_of_false (hne ?_) (hne ?_) <;>
      simp only [old, new, Source.byteLength_append] <;> omega
  · rw [Beyond] at hlt'
    rw [← hd, hc, hc']
    refine iff_of_false (hne ?_) (hne ?_) <;>
      simp only [old, new, Source.byteLength_append] <;> omega
  · have := hpos hv
    rw [hc, hc', hd, hd']
    refine iff_of_false (hne ?_) (hne ?_) <;>
      simp only [old, new, Source.byteLength_append] <;> omega
  · rw [hc, hc', hd, hd']
    exact iff_of_true rfl rfl
  · rw [Beyond] at hlt'
    rw [← hd, hc, hc']
    exact iff_of_false (hne (by omega)) (hne (by omega))
  · rw [Beyond] at hlt
    rw [← hc, hd, hd']
    refine iff_of_false (hne ?_) (hne ?_) <;>
      simp only [old, new, Source.byteLength_append] <;> omega
  · rw [Beyond] at hlt
    rw [← hc, hd, hd']
    exact iff_of_false (hne (by omega)) (hne (by omega))
  · rw [hc, hd]

theorem Begins.injective (h : f.Begins c c') (h' : f.Begins d c') : c = d :=
  h.1.eq_of_rest h'.1 ((h.rest_eq_iff h').mpr rfl)

theorem Begins.functional (h : f.Begins c c') (h' : f.Begins c d') : c' = d' :=
  h.2.1.eq_of_rest h'.2.1 ((h.rest_eq_iff h').mp rfl)

theorem quiet (f : Fork) : Quiet f.new := by
  intro z hz
  rcases List.eq_nil_or_concat f.gap' with hgap | ⟨_, _, hgap⟩
  · obtain ⟨y, hy, hparen⟩ := f.paren
    rw [new, hgap, List.nil_append] at hz
    cases Option.some.inj (hz.symm.trans hy)
    rcases hparen with rfl | rfl <;> decide
  · have hopens : opensFiller z = true := by
      refine f.skipped'.opensFiller z ?_
      have hne : f.gap' ≠ [] := by simp [hgap]
      rwa [new, List.head?_append_of_ne_nil _ hne] at hz
    rw [isQuiet, hopens, Bool.true_or]

theorem behind_pieces {w : List Char} (hw : f.pieces w) (hin : d.In f.source)
    (hin' : d'.In f.source')
    (hd : d.rest = w ++ f.old) (hd' : d'.rest = w ++ f.new) : Behind f.Begins d d' := by
  by_cases hne : w = []
  · subst hne
    have hold : grammar.Takes filler d f.gap ⟨f.next, d.offset + Source.byteLength f.gap⟩ :=
      takes_filler.mpr ⟨⟨hd, rfl⟩, f.skipped⟩
    have hnew : grammar.Takes filler d' f.gap' ⟨f.next', d'.offset + Source.byteLength f.gap'⟩ :=
      takes_filler.mpr ⟨⟨hd', rfl⟩, f.skipped'⟩
    exact ⟨_, _, hold.1, hnew.1, hin.reads hold.2, hin'.reads hnew.2, .inr (.inl ⟨rfl, rfl⟩)⟩
  · obtain ⟨s, e, e', he, he', v, hv, hfirm, hcut, hrest, rfl⟩ :=
      Abreast.skips (c := ⟨w ++ f.old, 0⟩) f.slashSafe (f.cut hw) hne rfl
    obtain ⟨hread, hgap⟩ := takes_filler.mp he
    obtain ⟨hread', hgap'⟩ := takes_filler.mp he'
    have hsplit : w = s ++ v := by
      have h := hread.rest
      rw [hrest] at h
      exact List.append_cancel_right (h.trans (List.append_assoc ..).symm)
    subst hsplit
    rw [hrest] at hgap
    have hold : grammar.Takes filler d s ⟨v ++ f.old, d.offset + Source.byteLength s⟩ :=
      takes_filler.mpr ⟨⟨by rw [hd, List.append_assoc], rfl⟩, hgap⟩
    have hnew : grammar.Takes filler d' s ⟨v ++ f.new, d'.offset + Source.byteLength s⟩ :=
      takes_filler.mpr ⟨⟨by rw [hd', List.append_assoc], rfl⟩, hgap'⟩
    refine ⟨_, _, hold.1, hnew.1, hin.reads hold.2, hin'.reads hnew.2, .inl ?_⟩
    exact ⟨v, hv, hfirm, f.rest hw (.of_gap hgap) hcut, rfl, rfl⟩

theorem behind_past (hin : d.In f.source) (hin' : d'.In f.source') (h : d.rest = d'.rest)
    (hd : f.Beyond d) : Behind f.Begins d d' := by
  obtain ⟨s, n, hn⟩ := exists_takes_filler d
  obtain ⟨hread, hgap⟩ := takes_filler.mp hn
  have hn' : grammar.Takes filler d' s ⟨n.rest, d'.offset + Source.byteLength s⟩ :=
    takes_filler.mpr ⟨⟨h.symm.trans hread.rest, rfl⟩, hgap⟩
  refine ⟨_, _, hn.1, hn'.1, hin.reads hn.2, hin'.reads hn'.2, .inr (.inr ⟨rfl, hgap.firm, ?_⟩)⟩
  have hlength := congrArg Source.byteLength hread.rest
  rw [Source.byteLength_append] at hlength
  rw [Beyond] at hd ⊢
  omega

theorem Ahead.next_suffix (h : f.Ahead c c') {s : Source} (hs : c.Reads s d) (hd : ¬f.Beyond d) :
    f.next <:+ d.rest := by
  obtain ⟨w, -, -, -, hc, -⟩ := h
  refine suffix_of_byteLength_le (l := c.rest) ?_ ⟨s, hs.rest.symm⟩ (Nat.not_lt.mp hd)
  rw [hc]
  exact ⟨w ++ f.gap, List.append_assoc ..⟩

theorem Ahead.reads_text (h : f.Ahead c c') {chars : List Char} (hplain : chars.all isPlain = true)
    (hread : c.Reads chars d) (hd : ¬f.Beyond d) :
    ∃ w d', c'.Reads chars d' ∧ f.pieces w ∧ d.rest = w ++ f.old ∧ d'.rest = w ++ f.new := by
  have hnext := h.next_suffix hread hd
  obtain ⟨w, -, -, hw, hc, hc'⟩ := h
  have hs : ∀ z ∈ chars, isPlain z = true := List.all_eq_true.mp hplain
  obtain ⟨v, rfl, hv⟩ := append_of_plain hs (hread.rest.symm.trans hc) f.skipped hnext
  refine ⟨v, ⟨v ++ f.new, c'.offset + Source.byteLength chars⟩, ⟨?_, rfl⟩, ?_, hv, rfl⟩
  · rw [hc', List.append_assoc]
  · exact f.rest hw (.of_cut (.of_plain hs)) ((f.cut hw).tails hs)

theorem Ahead.reads_token (h : f.Ahead c c') {r : Rule} (hr : r.isToken = true) {s : Source}
    (htoken : grammar.Takes (.rule r) c s d) (hd : ¬f.Beyond d) :
    ∃ w d', grammar.Takes (.rule r) c' s d' ∧ f.pieces w ∧ d.rest = w ++ f.old ∧
      d'.rest = w ++ f.new := by
  have hnext := h.next_suffix htoken.2 hd
  obtain ⟨w, hne, hfirm, hw, hc, hc'⟩ := h
  obtain ⟨v, rfl, hv, hcut, hpiece⟩ := (f.cut hw).after_token hne hfirm hr htoken hc fun hs =>
    append_of_plain hs (htoken.2.rest.symm.trans hc) f.skipped hnext
  have htoken' := f.quiet.spans_token hr htoken hv c'.offset
  rw [← List.append_assoc, ← hc'] at htoken'
  exact ⟨v, _, htoken', f.rest hw (.of_cut hpiece) hcut, hv, rfl⟩

/-- What is read on the first text without going past the place is read on the second. -/
theorem Begins.mark (h : f.Begins c c') {e : Expr Rule} (he : e.isMark = true)
    {ps : List (Pair Rule)} (hok : grammar.answer false e c = .ok ps d)
    (hd : ¬f.Beyond d ∨ f.Beyond c) :
    ∃ ps' d', grammar.answer false e c' = .ok ps' d' ∧ Behind f.Begins d d' ∧
      List.Forall₂ (Twin c c') ps ps' := by
  obtain ⟨hin, hin', hc⟩ := h
  obtain ⟨t, ht⟩ := Grammar.answer_reads hok
  rcases hc with hahead | hat | ⟨hrest, -, hbeyond⟩
  · have hd' := hd.resolve_right hahead.not_beyond
    cases e with
    | text chars =>
        obtain ⟨-, hplain⟩ := Bool.and_eq_true_iff.mp he
        obtain ⟨rfl, hread⟩ := Grammar.answer_text_eq_ok_iff.mp hok
        obtain ⟨w, d', hread', hw, hdrest, hdrest'⟩ :=
          hahead.reads_text (isPlain_of_isSignText hplain) hread hd'
        exact ⟨[], d', Grammar.answer_text_eq_ok_iff.mpr ⟨rfl, hread'⟩,
          behind_pieces hw (hin.reads hread) (hin'.reads hread') hdrest hdrest', .nil⟩
    | finish =>
        obtain ⟨w, hne, -, -, hrest, -⟩ := hahead
        rw [Grammar.answer_finish, hrest, if_neg (by simp [hne])] at hok
        exact nomatch hok
    | rule r =>
        have hr : r.isToken = true := he
        obtain ⟨⟨s, hs⟩, rfl⟩ := (answer_token_iff hr).mp hok
        obtain ⟨w, d', hs', hw, hdrest, hdrest'⟩ := hahead.reads_token hr hs hd'
        refine ⟨_, d', (answer_token_iff hr).mpr ⟨⟨s, hs'⟩, rfl⟩,
          behind_pieces hw (hin.reads hs.2) (hin'.reads hs'.2) hdrest hdrest', ?_⟩
        exact .cons ⟨r, d, d', s, hr, hs.2, hs'.2, rfl, rfl⟩ .nil
    | _ => exact nomatch he
  -- Where the texts part, a mark would read beyond the place.
  · exfalso
    have hlength := congrArg Source.byteLength ht.rest
    have hd' := hd.resolve_right hat.not_beyond
    rw [hat.1, Source.byteLength_append] at hlength
    rw [Beyond] at hd'
    have hnil : t = [] := byteLength_eq_zero (by omega)
    have hreads (hnull : e.nullable Rule.isEmpty = false) : False := by
      obtain ⟨s, hs, hne⟩ := answer_reads_something hnull hok
      exact hne ((hs.unique ht).trans hnil)
    cases e with
    | text chars =>
        obtain ⟨hne, -⟩ := Bool.and_eq_true_iff.mp he
        exact hreads ((Bool.not_eq_true' _).mp hne)
    | finish =>
        rw [Grammar.answer_finish, hat.1, if_neg (by simp [f.next_ne])] at hok
        exact nomatch hok
    | rule r => exact hreads (Rule.not_isEmpty_of_isToken he)
    | _ => exact nomatch he
  · obtain ⟨ps', d', hok', hps, hdrest⟩ :=
      (atom_agrees_of_rest hrest (Expr.isAtom_of_isMark he)).exists_ok hok
    obtain ⟨t', ht'⟩ := Grammar.answer_reads hok'
    refine ⟨ps', d', hok', behind_past (hin.reads ht) (hin'.reads ht') hdrest ?_, hps⟩
    have hlength := congrArg Source.byteLength ht.rest
    rw [Source.byteLength_append] at hlength
    rw [Beyond] at hbeyond ⊢
    omega

theorem paren_of_head {z : Char} (hz : z ∈ f.next'.head?) :
    isQuiet z = true ∧ isWordChar z = false := by
  obtain ⟨y, hy, hparen⟩ := f.paren
  cases Option.some.inj (hz.symm.trans hy)
  rcases hparen with rfl | rfl <;> decide

theorem Ahead.unreads_text (h : f.Ahead c c') {chars : List Char}
    (hplain : ∀ z ∈ chars, isPlain z = true)
    (hchars : (∃ z, chars = [z]) ∨ ∀ z ∈ chars, isQuiet z = false) (hread : c'.Reads chars d') :
    ∃ w d, c.Reads chars d ∧ f.pieces w ∧ d.rest = w ++ f.old ∧ d'.rest = w ++ f.new := by
  obtain ⟨w, hne, -, hw, hc, hc'⟩ := h
  obtain ⟨v, rfl, hv⟩ : ∃ v, w = chars ++ v ∧ d'.rest = v ++ f.new := by
    rcases hchars with ⟨z, rfl⟩ | hchars
    · obtain ⟨y, w, rfl⟩ := List.exists_cons_of_ne_nil hne
      obtain ⟨rfl, hv⟩ := List.cons.inj (hread.rest.symm.trans hc')
      exact ⟨w, rfl, hv⟩
    · refine append_of_head (hread.rest.symm.trans hc') fun z hz hmem => ?_
      exact nomatch (hchars z hmem).symm.trans (f.quiet z hz)
  refine ⟨v, ⟨v ++ f.old, c.offset + Source.byteLength chars⟩, ⟨?_, rfl⟩, ?_, rfl, hv⟩
  · rw [hc, List.append_assoc]
  · exact f.rest hw (.of_cut (.of_plain hplain)) ((f.cut hw).tails hplain)

theorem Ahead.unreads_word (h : f.Ahead c c') {r : Rule} (hr : r ∈ Rule.words) {s : Source}
    (hword : grammar.Takes (.rule r) c' s d') :
    ∃ w d, grammar.Takes (.rule r) c s d ∧ f.pieces w ∧ d.rest = w ++ f.old ∧
      d'.rest = w ++ f.new := by
  have hr' : r ∈ Rule.keyword :: Rule.words := List.mem_cons_of_mem _ hr
  obtain ⟨rfl, rfl⟩ := takes_word hr' hword
  have hs := c'.isWordChar_of_mem_word
  have hunquiet : ∀ z ∈ c'.word, isQuiet z = false := by
    intro z hz
    by_contra hquiet
    rw [Bool.not_eq_false] at hquiet
    exact nomatch (hs z hz).symm.trans
      (quiet_cases (P := fun z => isWordChar z = false) (by decide) hquiet)
  obtain ⟨w, d, hread, hw, hd, hd'⟩ :=
    h.unreads_text (fun z hz => isPlain_of_isWordChar (hs z hz)) (.inr hunquiet) hword.2
  refine ⟨w, d, ?_, hw, hd, hd'⟩
  have hstop : ∀ z ∈ d.rest.head?, isWordChar z = false := by
    have hstop' := c'.afterWord_stops
    rw [hd'] at hstop'
    cases w with
    | cons y w =>
        rw [hd]
        exact hstop'
    | nil =>
        obtain ⟨v, hne, -, hv, hc, -⟩ := h
        obtain ⟨t, ht, htne⟩ := answer_reads_something (e := .rule r)
          (Rule.not_isEmpty_of_isToken (isToken_of_mem_words hr)) hword.1
        cases ht.unique hword.2
        have hvs : v = c'.word :=
          List.append_cancel_right (hc.symm.trans (hread.rest.trans (by rw [hd]; rfl)))
        subst hvs
        rw [hd]
        exact f.parted hv _ (List.getLast?_eq_some_getLast htne) (hs _ (List.getLast_mem htne))
  have hspans := spans_word hr' hword hstop c.offset
  rw [← hread.rest] at hspans
  rw [hread.eq_mk.2]
  exact hspans

end Fork

/-- What the names of types consist of: words and signs, but no parentheses. -/
def Peg.Expr.isNamePart : Expr Rule → Bool
  | .text chars => !chars.isEmpty && chars.all fun z => isPlain z && !isQuiet z
  | .rule r => decide (r ∈ Rule.words)
  | _ => false

theorem written_of_isNamePart {e : Expr Rule} (he : e.isNamePart = true) : e.isWritten = true := by
  cases e <;> first | rfl | exact nomatch he

namespace Fork

variable {f : Fork} {c c' d' : Cursor} {ps' : List (Pair Rule)}

theorem Past.back (h : f.Past c c') (hin : c.In f.source) (hin' : c'.In f.source') {e : Expr Rule}
    (he : e.isAtom = true) (hok : grammar.answer false e c' = .ok ps' d') :
    ∃ ps d, grammar.answer false e c = .ok ps d ∧ Behind f.Begins d d' := by
  obtain ⟨ps, d, hok', -, hrest⟩ := (atom_agrees_of_rest h.1.symm he).exists_ok hok
  obtain ⟨t, ht⟩ := Grammar.answer_reads hok'
  obtain ⟨t', ht'⟩ := Grammar.answer_reads hok
  refine ⟨ps, d, hok', behind_past (hin.reads ht) (hin'.reads ht') hrest.symm ?_⟩
  have hbeyond := h.2.2
  have hlength := congrArg Source.byteLength ht.rest
  rw [Source.byteLength_append] at hlength
  rw [Beyond] at hbeyond ⊢
  omega

/-- A part of a name is read on the first text if it is on the second. -/
theorem Begins.name_back (h : f.Begins c c') {e : Expr Rule} (he : e.isNamePart = true)
    (hok : grammar.answer false e c' = .ok ps' d') :
    ∃ ps d, grammar.answer false e c = .ok ps d ∧ Behind f.Begins d d' := by
  obtain ⟨hin, hin', hc⟩ := h
  cases e with
  | text chars =>
      obtain ⟨hne, hchars⟩ := Bool.and_eq_true_iff.mp he
      simp only [List.all_eq_true, Bool.and_eq_true, Bool.not_eq_true'] at hchars
      have hplain : ∀ z ∈ chars, isPlain z = true := fun z hz => (hchars z hz).1
      have hread' := (Grammar.answer_text_eq_ok_iff.mp hok).2
      rcases hc with hahead | hat | hpast
      · obtain ⟨w, d, hread, hw, hd, hd'⟩ :=
          hahead.unreads_text hplain (.inr fun z hz => (hchars z hz).2) hread'
        exact ⟨[], d, Grammar.answer_text_eq_ok_iff.mpr ⟨rfl, hread⟩,
          behind_pieces hw (hin.reads hread) (hin'.reads hread') hd hd'⟩
      · cases chars with
        | nil => exact nomatch hne
        | cons z zs =>
            have hhead : z ∈ f.next'.head? := by
              rw [← hat.2, hread'.rest]
              rfl
            exact nomatch (hchars z List.mem_cons_self).2.symm.trans (paren_of_head hhead).1
      · exact hpast.back hin hin' (List.all_eq_true.mpr hplain) hok
  | rule r =>
      have hr : r ∈ Rule.words := of_decide_eq_true he
      have htoken := isToken_of_mem_words hr
      rcases hc with hahead | hat | hpast
      · obtain ⟨⟨s, hs⟩, -⟩ := (answer_token_iff htoken).mp hok
        obtain ⟨w, d, hs', hw, hd, hd'⟩ := hahead.unreads_word hr hs
        exact ⟨_, d, (answer_token_iff htoken).mpr ⟨⟨s, hs'⟩, rfl⟩,
          behind_pieces hw (hin.reads hs'.2) (hin'.reads hs.2) hd hd'⟩
      · obtain ⟨⟨s, hs⟩, -⟩ := (answer_token_iff htoken).mp hok
        obtain ⟨rfl, -⟩ := takes_word (List.mem_cons_of_mem _ hr) hs
        obtain ⟨t, ht, hne⟩ :=
          answer_reads_something (e := .rule r) (Rule.not_isEmpty_of_isToken htoken) hs.1
        cases ht.unique hs.2
        obtain ⟨z, zs, hz⟩ := List.exists_cons_of_ne_nil hne
        have hhead : z ∈ f.next'.head? := by
          rw [← hat.2, hs.2.rest, hz]
          rfl
        have hword := c'.isWordChar_of_mem_word z (by rw [hz]; exact List.mem_cons_self)
        exact nomatch hword.symm.trans (paren_of_head hhead).2
      · exact hpast.back hin hin' htoken hok
  | _ => exact nomatch he

theorem Begins.sign_back (h : f.Begins c c') (hat : ¬f.At c c') {z : Char} (hz : isPlain z = true)
    (hok : grammar.answer false (Rule.symbol z) c' = .ok ps' d') :
    ∃ ps d, grammar.answer false (Rule.symbol z) c = .ok ps d ∧ Behind f.Begins d d' := by
  obtain ⟨hin, hin', hc⟩ := h
  rcases hc with hahead | hat' | hpast
  · have hread' := (Grammar.answer_text_eq_ok_iff.mp hok).2
    obtain ⟨w, d, hread, hw, hd, hd'⟩ :=
      hahead.unreads_text (List.forall_mem_singleton.mpr hz) (.inl ⟨z, rfl⟩) hread'
    exact ⟨[], d, Grammar.answer_text_eq_ok_iff.mpr ⟨rfl, hread⟩,
      behind_pieces hw (hin.reads hread) (hin'.reads hread') hd hd'⟩
  · exact absurd hat' hat
  · have hatom : (Rule.symbol z).isAtom = true :=
      List.all_eq_true.mpr (List.forall_mem_singleton.mpr hz)
    exact hpast.back hin hin' hatom hok

end Fork

end XiFront

import XiFront.Proofs.Grammar.Quote
import XiFront.Proofs.Grammar.Scan
import XiFront.Proofs.Peg.Likeness

/-!
The pieces of a source.  A text falls into characters, literals and gaps of filler; no token goes on
over the end of its piece.  So two texts that have their first pieces in common are read alike as far
as these go, in every attempt that is made there.
-/

namespace XiFront

open Peg

namespace Rule

def isToken : Rule → Bool
  | kw _ | keyword | ident | intLiteral | floatLiteral | charLiteral | strLiteral | binary _
  | unary _ => true
  | _ => false

def isLexical : Rule → Bool
  | whitespace | comment | identChar | exponent | character | regular | escaped | hexByte
  | decByte | uniChar | single | spaces => true
  | r => r.isToken

/-- The tokens, and parts of tokens, that have neither a quote nor a slash in them. -/
def isUnquoted : Rule → Bool
  | kw _ | keyword | ident | identChar | intLiteral | floatLiteral | exponent | unary _ => true
  | binary o => decide (o ≠ .div)
  | _ => false

def quote? : Rule → Option Char
  | strLiteral => some '"'
  | charLiteral => some '\''
  | _ => none

theorem quote?_eq_some_iff {r : Rule} {q : Char} :
    r.quote? = some q ↔ r = strLiteral ∧ q = '"' ∨ r = charLiteral ∧ q = '\'' := by
  unfold quote?
  split <;> simp_all [eq_comm]

theorem isToken_cases {r : Rule} (h : r.isToken = true) :
    r.isUnquoted = true ∨ r = binary .div ∨ ∃ q, r.quote? = some q := by
  cases r with
  | binary o =>
      by_cases ho : o = .div
      · exact .inr (.inl (by rw [ho]))
      · exact .inl (decide_eq_true ho)
  | charLiteral => exact .inr (.inr ⟨_, rfl⟩)
  | strLiteral => exact .inr (.inr ⟨_, rfl⟩)
  | _ => first | exact .inl rfl | exact nomatch h

theorem tight_of_isToken {r : Rule} (h : r.isToken = true) : (production r).tight = true := by
  cases r <;> first | rfl | exact nomatch h

theorem loose_of_isLexical {r : Rule} (h : r.isLexical = false) :
    (production r).tight = false := by
  cases r <;> first | rfl | exact nomatch h

theorem isLexical_of_isToken {r : Rule} (h : r.isToken = true) : r.isLexical = true := by
  cases r <;> first | rfl | exact nomatch h

theorem leavesPair_of_isToken {r : Rule} (h : r.isToken = true) :
    (production r).leavesPair = true := by
  cases r <;> first | rfl | exact nomatch h

theorem not_isEmpty_of_isToken {r : Rule} (h : r.isToken = true) : r.isEmpty = false := by
  cases r <;> first | rfl | exact nomatch h

end Rule

def isPlain (c : Char) : Bool :=
  !opensFiller c && !decide (c ∈ ['"', '\''])

theorem isBlank_of_isPlain {c : Char} (h : isPlain c = true) : isBlank c = false ∧ c ≠ '/' := by
  simp only [isPlain, opensFiller, Bool.and_eq_true, Bool.not_eq_true', decide_eq_false_iff_not,
    List.mem_cons, List.not_mem_nil, or_false, not_or] at h
  exact ⟨by simp [isBlank, h], h.1.2.2.2.2⟩

theorem isPlain_of_opensFiller {c : Char} (h : opensFiller c = true) : isPlain c = false := by
  rw [isPlain, h]
  rfl

theorem opensFiller_of_isBlank {c : Char} (h : isBlank c = true) : opensFiller c = true := by
  simp only [isBlank, opensFiller, decide_eq_true_eq, List.mem_cons, List.not_mem_nil,
    or_false] at h ⊢
  tauto

theorem Rule.quote?_eq_some {r : Rule} {q : Char} (h : r.quote? = some q) :
    isPlain q = false ∧ isBlank q = false ∧ q ≠ '/' := by
  rcases Rule.quote?_eq_some_iff.mp h with ⟨-, rfl⟩ | ⟨-, rfl⟩ <;> decide

theorem Rule.eq_of_quote? {r r' : Rule} {q : Char} (h : r.quote? = some q)
    (h' : r'.quote? = some q) : r = r' := by
  rcases quote?_eq_some_iff.mp h with ⟨rfl, rfl⟩ | ⟨rfl, rfl⟩
  · exact (quote?_eq_some_iff.mp h').elim (fun h => h.1.symm) fun h => nomatch h.2
  · exact (quote?_eq_some_iff.mp h').elim (fun h => nomatch h.2) fun h => h.1.symm

theorem IsGap.opensFiller {a r : List Char} (h : IsGap a r) :
    ∀ c ∈ a.head?, opensFiller c = true := by
  intro c hc
  cases h with
  | stop h => exact nomatch hc
  | blank hb h =>
      cases Option.some.inj hc
      exact opensFiller_of_isBlank hb
  | block hbody h =>
      cases Option.some.inj hc
      rfl
  | line hbody hend h =>
      cases Option.some.inj hc
      rfl

/-- In front of `rest` the text falls into whole pieces, the last of which is no gap. -/
inductive Cut (rest : List Char) : List Char → Prop
  | nil : Cut rest []
  | plain {c : Char} {w : List Char} (hc : isPlain c = true) (h : Cut rest w) :
      Cut rest (c :: w)
  | slash {w : List Char} (hnext : ∀ c ∈ (w ++ rest).head?, c ≠ '/' ∧ c ≠ '*')
      (h : Cut rest w) : Cut rest ('/' :: w)
  | literal {r : Rule} {q : Char} {s w : List Char} (hr : r.quote? = some q)
      (hs : ∀ rest, Spans (.rule r) (q :: s) rest) (h : Cut rest w) :
      Cut rest (q :: (s ++ w))
  | gap {a w : List Char} (ha : a ≠ []) (hw : w ≠ []) (hgap : IsGap a (w ++ rest))
      (h : Cut rest w) : Cut rest (a ++ w)

namespace Cut

variable {x y w v : List Char}

theorem append (h : Cut (v ++ x) w) (hv : Cut x v) : Cut x (w ++ v) := by
  induction h with
  | nil => exact hv
  | plain hc _ ih => exact .plain hc ih
  | slash hnext _ ih =>
      rw [← List.append_assoc] at hnext
      exact .slash hnext ih
  | literal hr hs _ ih =>
      rw [List.cons_append, List.append_assoc]
      exact .literal hr hs ih
  | gap ha hw hgap _ ih =>
      rw [← List.append_assoc] at hgap
      rw [List.append_assoc]
      exact .gap ha (by simp [hw]) hgap ih

theorem plains (hw : ∀ c ∈ w, isPlain c = true) (hv : Cut x v) : Cut x (w ++ v) := by
  induction w with
  | nil => exact hv
  | cons c w ih =>
      rw [List.forall_mem_cons] at hw
      exact .plain hw.1 (ih hw.2)

theorem tail {c : Char} (h : Cut x (c :: w)) (hc : isPlain c = true) : Cut x w := by
  generalize hcons : c :: w = v at h
  cases h with
  | nil => exact nomatch hcons
  | plain _ h =>
      cases hcons
      exact h
  | slash _ _ =>
      cases hcons
      exact nomatch hc
  | literal hr _ _ =>
      cases hcons
      rw [(Rule.quote?_eq_some hr).1] at hc
      exact nomatch hc
  | @gap a _ ha _ hgap _ =>
      obtain ⟨d, a, rfl⟩ := List.exists_cons_of_ne_nil ha
      cases hcons
      rw [isPlain_of_opensFiller (hgap.opensFiller c rfl)] at hc
      exact nomatch hc

theorem tail_slash (h : Cut x ('/' :: w)) (hfirm : IsFirm ('/' :: w ++ x)) : Cut x w := by
  generalize hcons : '/' :: w = v at h
  cases h with
  | nil => exact nomatch hcons
  | plain hc _ =>
      cases hcons
      exact nomatch hc
  | slash _ h =>
      cases hcons
      exact h
  | literal hr _ _ =>
      cases hcons
      exact absurd rfl (Rule.quote?_eq_some hr).2.2
  | gap ha _ hgap _ =>
      rw [hcons, List.append_assoc] at hfirm
      exact absurd hfirm (hgap.not_firm ha)

theorem tail_literal {r : Rule} {q : Char} (h : Cut x (q :: w)) (hr : r.quote? = some q) :
    ∃ s v, w = s ++ v ∧ (∀ rest, Spans (.rule r) (q :: s) rest) ∧ Cut x v := by
  generalize hcons : q :: w = v at h
  obtain ⟨hplain, hblank, hslash⟩ := Rule.quote?_eq_some hr
  cases h with
  | nil => exact nomatch hcons
  | plain hc _ =>
      cases hcons
      rw [hplain] at hc
      exact nomatch hc
  | slash _ _ =>
      cases hcons
      exact absurd rfl hslash
  | literal hr' hs h =>
      cases hcons
      rw [Rule.eq_of_quote? hr hr']
      exact ⟨_, _, rfl, hs, h⟩
  | @gap a _ ha _ hgap _ =>
      obtain ⟨d, a, rfl⟩ := List.exists_cons_of_ne_nil ha
      cases hcons
      cases hgap with
      | blank hb _ =>
          rw [hblank] at hb
          exact nomatch hb
      | block _ _ => exact absurd rfl hslash
      | line _ _ _ => exact absurd rfl hslash

end Cut

/-- Both texts begin as filler does, or are empty; the second begins with a slash only if the first
does. -/
structure Facing (x y : List Char) : Prop where
  left : ∀ c ∈ x.head?, opensFiller c = true
  right : ∀ c ∈ y.head?, opensFiller c = true
  slash : '/' ∈ y.head? → '/' ∈ x.head?

/-- A slash in front of the second text opens a comment only if it does so in front of the first. -/
def SlashSafe (x y : List Char) : Prop :=
  ∀ c ∈ y.head?, c ≠ '*' ∧ (c = '/' → '/' ∈ x.head?)

theorem Facing.slashSafe {x y : List Char} (h : Facing x y) : SlashSafe x y := by
  intro c hc
  refine ⟨?_, ?_⟩
  · rintro rfl
    exact nomatch h.right '*' hc
  · rintro rfl
    exact h.slash hc

/-- Cursors in front of the same pieces, of which the one comes before `x` and the other before
`y`. -/
def Abreast (x y : List Char) (c c' : Cursor) : Prop :=
  ∃ w, Cut x w ∧ c.rest = w ++ x ∧ c' = ⟨w ++ y, c.offset⟩

/-- The pieces that both cursors are in front of begin with one that is no gap. -/
def Inside (x y : List Char) (c c' : Cursor) : Prop :=
  ∃ w, w ≠ [] ∧ IsFirm (w ++ x) ∧ Cut x w ∧ c.rest = w ++ x ∧ c' = ⟨w ++ y, c.offset⟩

variable {x y : List Char} {c c' d d' : Cursor}

theorem Inside.abreast (h : Inside x y c c') : Abreast x y c c' := by
  obtain ⟨w, -, -, hw, hc, hc'⟩ := h
  exact ⟨w, hw, hc, hc'⟩

theorem Abreast.offset (h : Abreast x y c c') : c'.offset = c.offset := by
  obtain ⟨w, -, -, rfl⟩ := h
  rfl

theorem Abreast.reads (hc : Abreast x y c c') (hd : Abreast x y d d') {s s' : Source}
    (hs : c.Reads s d) (hs' : c'.Reads s' d') : s = s' := by
  obtain ⟨w, -, hrest, rfl⟩ := hc
  obtain ⟨v, -, hrest', rfl⟩ := hd
  have hw := hs.rest
  have hw' := hs'.rest
  rw [hrest, hrest', ← List.append_assoc] at hw
  rw [← List.append_assoc] at hw'
  exact List.append_cancel_right ((List.append_cancel_right hw).symm.trans
    (List.append_cancel_right hw'))

theorem Cut.firm {w : List Char} (h : Cut x w) (hne : w ≠ []) (hfirm : IsFirm (w ++ x))
    (hxy : SlashSafe x y) : IsFirm (w ++ y) := by
  cases h with
  | nil => exact absurd rfl hne
  | plain hc _ => exact .cons (isBlank_of_isPlain hc).1 (isBlank_of_isPlain hc).2
  | @slash w hnext _ =>
      apply IsFirm.slash
      cases w with
      | cons d w => exact hnext
      | nil =>
          intro d hd
          obtain ⟨hstar, hslash⟩ := hxy d hd
          exact ⟨fun h => (hnext '/' (hslash h)).1 rfl, hstar⟩
  | literal hr _ _ =>
      obtain ⟨-, hblank, hslash⟩ := Rule.quote?_eq_some hr
      exact .cons hblank hslash
  | @gap a w ha hw hgap _ =>
      rw [List.append_assoc] at hfirm
      exact absurd hfirm (hgap.not_firm ha)

theorem IsGap.congr {a r r' : List Char} (h : IsGap a r) (hfirm : IsFirm r')
    (hhead : r.head? = r'.head?) : IsGap a r' := by
  induction h with
  | stop _ => exact .stop hfirm
  | blank hc _ ih => exact .blank hc (ih hhead)
  | block hbody _ ih => exact .block hbody (ih hhead)
  | line hbody hend _ ih =>
      rw [List.head?_append, hhead, ← List.head?_append] at hend
      exact .line hbody hend (ih hhead)

theorem IsGap.of_firm {a r r' : List Char} (h : IsGap a r) (hne : r ≠ []) (hfirm : IsFirm r') :
    IsGap a r' := by
  induction h with
  | stop _ => exact .stop hfirm
  | blank hc _ ih => exact .blank hc (ih hne)
  | block hbody _ ih => exact .block hbody (ih hne)
  | @line body a r hbody hend h ih =>
      refine .line hbody (fun d hd => ?_) (ih hne)
      cases a with
      | cons z a => exact hend d hd
      | nil =>
          obtain ⟨z, r, rfl⟩ := List.exists_cons_of_ne_nil hne
          have hblank := h.firm.not_blank
          rw [isBlank_of_isNewline (hend z rfl)] at hblank
          exact nomatch hblank

theorem Abreast.skips (hxy : SlashSafe x y) {w : List Char} (hw : Cut x w) (hne : w ≠ [])
    (hc : c.rest = w ++ x) :
    ∃ s d d', grammar.Takes filler c s d ∧ grammar.Takes filler ⟨w ++ y, c.offset⟩ s d' ∧
      Inside x y d d' := by
  by_cases hfirm : IsFirm (w ++ x)
  · refine ⟨[], c, ⟨w ++ y, c.offset⟩, takes_filler.mpr ⟨.refl _, ?_⟩,
      takes_filler.mpr ⟨.refl _, .stop (hw.firm hne hfirm hxy)⟩, w, hne, hfirm, hw, hc, rfl⟩
    rw [hc]
    exact .stop hfirm
  · cases hw with
    | nil => exact absurd rfl hne
    | plain hd _ =>
        exact absurd (IsFirm.cons (isBlank_of_isPlain hd).1 (isBlank_of_isPlain hd).2) hfirm
    | slash hnext _ => exact absurd (IsFirm.slash hnext) hfirm
    | literal hr _ _ =>
        obtain ⟨-, hblank, hslash⟩ := Rule.quote?_eq_some hr
        exact absurd (IsFirm.cons hblank hslash) hfirm
    | @gap a w ha hw hgap h =>
        have hfirm' := h.firm hw hgap.firm hxy
        have hhead : (w ++ x).head? = (w ++ y).head? := by
          obtain ⟨d, w, rfl⟩ := List.exists_cons_of_ne_nil hw
          rfl
        rw [List.append_assoc] at hc
        rw [List.append_assoc]
        refine ⟨a, ⟨w ++ x, c.offset + Source.byteLength a⟩, _,
          takes_filler.mpr ⟨⟨hc, rfl⟩, hgap⟩,
          takes_filler.mpr ⟨Cursor.reads_append a _ _, hgap.congr hfirm' hhead⟩,
          w, hw, hgap.firm, h, rfl, rfl⟩

def Peg.Expr.isUnquoted : Expr Rule → Bool
  | .text chars => chars.all isPlain
  | .char set => decide (set ≠ .any)
  | _ => false

theorem isPlain_of_contains {set : Charset} (hset : set ≠ .any) {y : Char}
    (hy : set.contains y = true) : isPlain y = true := by
  by_contra hplain
  simp only [isPlain, opensFiller, Bool.not_eq_true, Bool.and_eq_false_iff, Bool.not_eq_false',
    decide_eq_true_eq, List.mem_cons, List.not_mem_nil, or_false] at hplain
  rcases hplain with (rfl | rfl | rfl | rfl | rfl) | (rfl | rfl) <;>
    cases set <;> first | exact hset rfl | exact absurd hy (by decide)

theorem unquoted_built : ∀ r ∈ Rule.all, r.isUnquoted = true →
    (Rule.production r).body.built Expr.isUnquoted Rule.isUnquoted = true := by
  decide +kernel

theorem text_agrees {chars : List Char} (hx : ∀ d ∈ x.head?, d ∉ chars)
    (hy : ∀ d ∈ y.head?, d ∉ chars) (hchars : chars.all isPlain = true) (hc : Abreast x y c c') :
    (Reply.ofOption (c.text? chars) : Reply Rule).Agrees (fun _ _ => False) (Abreast x y)
      (.ofOption (c'.text? chars)) := by
  induction chars generalizing c c' with
  | nil => exact .matches_ .nil hc
  | cons z zs ih =>
      rw [List.all_cons, Bool.and_eq_true] at hchars
      obtain ⟨w, hw, hrest, rfl⟩ := hc
      obtain ⟨rest, offset⟩ := c
      obtain rfl : rest = w ++ x := hrest
      cases w with
      | nil =>
          have hfail {v : List Char} (hv : ∀ d ∈ v.head?, d ∉ z :: zs) :
              (Cursor.mk v offset).text? (z :: zs) = none := by
            cases v with
            | nil => rfl
            | cons d v =>
                rw [Cursor.text?_cons_cons, if_neg]
                rintro rfl
                exact hv z rfl List.mem_cons_self
          rw [List.nil_append, List.nil_append, hfail hx, hfail hy]
          exact .fails
      | cons d w =>
          simp only [List.cons_append, Cursor.text?_cons_cons]
          by_cases hz : z = d
          · subst hz
            rw [if_pos rfl, if_pos rfl]
            exact ih (fun d hd hmem => hx d hd (List.mem_cons_of_mem z hmem))
              (fun d hd hmem => hy d hd (List.mem_cons_of_mem z hmem)) hchars.2
              ⟨w, hw.tail hchars.1, rfl, rfl⟩
          · rw [if_neg hz, if_neg hz]
            exact .fails

theorem char_agrees {set : Charset} (hx : ∀ d ∈ x.head?, set.contains d = false)
    (hy : ∀ d ∈ y.head?, set.contains d = false) (hset : set ≠ .any) (hc : Abreast x y c c') :
    (Reply.ofOption (c.char? set) : Reply Rule).Agrees (fun _ _ => False) (Abreast x y)
      (.ofOption (c'.char? set)) := by
  obtain ⟨w, hw, hrest, rfl⟩ := hc
  obtain ⟨rest, offset⟩ := c
  obtain rfl : rest = w ++ x := hrest
  cases w with
  | nil =>
      have hfail {v : List Char} (hv : ∀ d ∈ v.head?, set.contains d = false) :
          (Cursor.mk v offset).char? set = none := by
        cases v with
        | nil => rfl
        | cons d v => rw [Cursor.char?_cons, hv d rfl, if_neg Bool.false_ne_true]
      rw [List.nil_append, List.nil_append, hfail hx, hfail hy]
      exact .fails
  | cons d w =>
      simp only [List.cons_append, Cursor.char?_cons]
      by_cases hd : set.contains d = true
      · rw [if_pos hd, if_pos hd]
        exact .matches_ .nil ⟨w, hw.tail (isPlain_of_contains hset hd), rfl, rfl⟩
      · rw [if_neg hd, if_neg hd]
        exact .fails

theorem not_mem_of_opensFiller {z : Char} (hz : opensFiller z = true) {chars : List Char}
    (hchars : chars.all isPlain = true) : z ∉ chars := by
  intro hmem
  have hplain := List.all_eq_true.mp hchars z hmem
  rw [isPlain_of_opensFiller hz] at hplain
  exact nomatch hplain

theorem not_contains_of_opensFiller {z : Char} (hz : opensFiller z = true) {set : Charset}
    (hset : set ≠ .any) : set.contains z = false := by
  by_contra hcontains
  rw [Bool.not_eq_false] at hcontains
  have hplain := isPlain_of_contains hset hcontains
  rw [isPlain_of_opensFiller hz] at hplain
  exact nomatch hplain

def unquoted (hxy : Facing x y) : Likeness grammar true where
  Begins := Abreast x y
  Ends := Abreast x y
  Alike := fun _ _ => False
  leaf := Expr.isUnquoted
  part := Rule.isUnquoted
  ends := id
  skips := fun hc => .matches_ .nil hc
  leaves := by
    intro e c c' he hc
    cases e with
    | text chars =>
        rw [Grammar.answer_text, Grammar.answer_text]
        exact text_agrees (fun z hz => not_mem_of_opensFiller (hxy.left z hz) he)
          (fun z hz => not_mem_of_opensFiller (hxy.right z hz) he) he hc
    | char set =>
        rw [Grammar.answer_char, Grammar.answer_char]
        have hset := of_decide_eq_true he
        exact char_agrees (fun z hz => not_contains_of_opensFiller (hxy.left z hz) hset)
          (fun z hz => not_contains_of_opensFiller (hxy.right z hz) hset) hset hc
    | _ => exact nomatch he
  opens := fun hr => ⟨fun _ => rfl, unquoted_built _ (Rule.mem_all _) hr⟩
  closes := nofun

theorem takes_unquoted {e : Expr Rule} (he : e.isUnquoted = true) {ps : List (Pair Rule)}
    (h : grammar.answer true e c = .ok ps d) :
    ∃ s, c.Reads s d ∧ ∀ z ∈ s, isPlain z = true := by
  cases e with
  | text chars =>
      exact ⟨chars, (Grammar.answer_text_eq_ok_iff.mp h).2, List.all_eq_true.mp he⟩
  | char set =>
      obtain ⟨-, z, hz, hread⟩ := Grammar.answer_char_eq_ok_iff.mp h
      refine ⟨[z], hread, fun z' hz' => ?_⟩
      rw [List.mem_singleton.mp hz']
      exact isPlain_of_contains (of_decide_eq_true he) hz
  | _ => exact nomatch he

/-- Without filler, what a match reads consists of the characters that its leaves read. -/
theorem reads_of_leaves {leaf : Expr Rule → Bool} {part : Rule → Bool} {P : Char → Prop}
    (hleaf : ∀ {e c d ps}, leaf e = true → grammar.answer true e c = .ok ps d →
      ∃ s, c.Reads s d ∧ ∀ z ∈ s, P z)
    (hparts : ∀ {r}, part r = true → (grammar.production r).body.built leaf part = true)
    {e : Expr Rule} (he : e.built leaf part = true) {ps : List (Pair Rule)}
    (h : grammar.answer true e c = .ok ps d) : ∃ s, c.Reads s d ∧ ∀ z ∈ s, P z := by
  have hleaves {e : Expr Rule} {a a' : Cursor} (he : leaf e = true)
      (ha : a' = a ∧ ∃ s, c.Reads s a ∧ ∀ z ∈ s, P z) :
      (grammar.answer true e a).Agrees (fun _ _ => False)
        (fun b b' => b' = b ∧ ∃ s, c.Reads s b ∧ ∀ z ∈ s, P z) (grammar.answer true e a') := by
    obtain ⟨rfl, s, hs, hP⟩ := ha
    cases hreply : grammar.answer true e a' with
    | stuck => trivial
    | fail => exact .fails
    | ok ps b =>
        obtain ⟨t, ht, htext⟩ := hleaf he hreply
        cases Grammar.answer_tight hreply
        exact .matches_ .nil ⟨rfl, s ++ t, hs.trans ht, List.forall_mem_append.mpr ⟨hP, htext⟩⟩
  obtain ⟨-, -, -, -, -, hreads⟩ :=
    ((Likeness.ofLeaves _ leaf part hleaves hparts).agree he c c
      ⟨rfl, [], .refl c, nofun⟩).exists_ok h
  exact hreads

theorem unquoted_reads_plain {r : Rule} (hr : r.isUnquoted = true) {s : Source}
    (h : grammar.Takes (.rule r) c s d) : ∀ z ∈ s, isPlain z = true := by
  have hbuilt : (Expr.rule r).built Expr.isUnquoted Rule.isUnquoted = true := hr
  obtain ⟨t, ht, hplain⟩ :=
    reads_of_leaves (fun he => takes_unquoted he)
      (fun hr => unquoted_built _ (Rule.mem_all _) hr) hbuilt h.1
  rw [h.2.unique ht]
  exact hplain

theorem misses_quoted {r : Rule} {q : Char} (hr : r.quote? = some q) {rest : List Char}
    (h : ∀ z ∈ rest.head?, q ≠ z) : Misses (.rule r) rest := by
  rcases Rule.quote?_eq_some_iff.mp hr with ⟨rfl, rfl⟩ | ⟨rfl, rfl⟩
  · exact .rule (.seq (.symbol h))
  · exact .rule (.seq (.symbol h))

theorem quoted_agrees {r : Rule} {q : Char} (hr : r.quote? = some q) (hc : Inside x y c c') :
    (grammar.answer true (.rule r) c).Agrees (fun _ _ => False) (Abreast x y)
      (grammar.answer true (.rule r) c') := by
  obtain ⟨w, hne, -, hw, hrest, rfl⟩ := hc
  obtain ⟨rest, offset⟩ := c
  obtain rfl : rest = w ++ x := hrest
  obtain ⟨z, w, rfl⟩ := List.exists_cons_of_ne_nil hne
  by_cases hz : q = z
  · subst hz
    obtain ⟨s, v, rfl, hs, hv⟩ := hw.tail_literal hr
    have hx := (hs (v ++ x) offset).1
    have hy := (hs (v ++ y) offset).1
    simp only [List.cons_append, List.append_assoc] at hx hy ⊢
    rw [hx, hy]
    exact .matches_ .nil ⟨v, hv, rfl, rfl⟩
  · have hfail (v : List Char) : Misses (.rule r) (z :: v) := by
      refine misses_quoted hr fun z' hz' => ?_
      cases Option.some.inj hz'
      exact hz
    rw [List.cons_append, List.cons_append, hfail, hfail]
    exact .fails

theorem div_agrees (hc : Inside x y c c') :
    (grammar.answer true (.rule (.binary .div)) c).Agrees (fun _ _ => False) (Abreast x y)
      (grammar.answer true (.rule (.binary .div)) c') := by
  obtain ⟨w, hne, hfirm, hw, hrest, rfl⟩ := hc
  obtain ⟨rest, offset⟩ := c
  obtain rfl : rest = w ++ x := hrest
  obtain ⟨z, w, rfl⟩ := List.exists_cons_of_ne_nil hne
  by_cases hz : '/' = z
  · subst hz
    have hread (v : List Char) : Spans (.rule (.binary .div)) ['/'] v := .rule .text
    have hx := (hread (w ++ x) offset).1
    have hy := (hread (w ++ y) offset).1
    rw [List.cons_append, List.cons_append]
    rw [List.singleton_append] at hx hy
    rw [hx, hy]
    exact .matches_ .nil ⟨w, hw.tail_slash hfirm, rfl, rfl⟩
  · have hfail (v : List Char) : Misses (.rule (.binary .div)) (z :: v) := by
      refine .rule (.symbol fun z' hz' => ?_)
      cases Option.some.inj hz'
      exact hz
    rw [List.cons_append, List.cons_append, hfail, hfail]
    exact .fails

/-- Pairs of one token that has the same text at both cursors. -/
def Twin (c c' : Cursor) (p p' : Pair Rule) : Prop :=
  ∃ r d d' s, r.isToken = true ∧ c.Reads s d ∧ c'.Reads s d' ∧
    p = .node r c.offset d.offset [] ∧ p' = .node r c'.offset d'.offset []

theorem token_agrees {r : Rule} (hr : r.isToken = true) {P : Pair Rule → Pair Rule → Prop}
    {E : Cursor → Cursor → Prop}
    (h : (grammar.answer true (.rule r) c).Agrees P E (grammar.answer true (.rule r) c'))
    (hreads : ∀ {d d' s s'}, E d d' → c.Reads s d → c'.Reads s' d' → s = s') :
    (grammar.answer false (.rule r) c).Agrees (Twin c c') E
      (grammar.answer false (.rule r) c') := by
  have hclose (c : Cursor) : grammar.answer false (.rule r) c =
      (grammar.answer true (.rule r) c).close r true c.offset := by
    have htight : (grammar.production r).tight = true := Rule.tight_of_isToken hr
    have hpair : (grammar.production r).leavesPair = true := Rule.leavesPair_of_isToken hr
    rw [Grammar.answer_rule_loose, Grammar.answer_rule_tight, htight, hpair]
  rw [hclose, hclose]
  cases hreply : grammar.answer true (.rule r) c with
  | stuck => trivial
  | fail =>
      rw [h.eq_fail hreply]
      exact .fails
  | ok ps d =>
      obtain ⟨ps', d', hreply', -, hd⟩ := h.exists_ok hreply
      obtain ⟨s, hs⟩ := Grammar.takes_of_answer hreply
      obtain ⟨s', hs'⟩ := Grammar.takes_of_answer hreply'
      cases Grammar.answer_tight hreply
      cases Grammar.answer_tight hreply'
      have hss' := hreads hd hs.2 hs'.2
      subst hss'
      rw [hreply']
      exact .matches_ (.cons ⟨r, d, d', s, hr, hs.2, hs'.2, rfl, rfl⟩ .nil) hd

/-- Tokens, signs that are not tokens, and the end of the text. -/
def Peg.Expr.isAtom : Expr Rule → Bool
  | .text chars => chars.all isPlain
  | .finish => true
  | .rule r => r.isToken
  | _ => false

/-- In front of a piece an atom is read alike, if signs and the tokens without quotes and slashes
are. -/
theorem atom_agrees_of (hc : Inside x y c c') {e : Expr Rule} (he : e.isAtom = true)
    (htext : ∀ {chars}, e = .text chars →
      (Reply.ofOption (c.text? chars) : Reply Rule).Agrees (fun _ _ => False) (Abreast x y)
        (.ofOption (c'.text? chars)))
    (hunquoted : ∀ {r : Rule}, r.isToken = true → r.isUnquoted = true →
      (grammar.answer true (.rule r) c).Agrees (fun _ _ => False) (Abreast x y)
        (grammar.answer true (.rule r) c')) :
    (grammar.answer false e c).Agrees (Twin c c') (Abreast x y) (grammar.answer false e c') := by
  cases e with
  | text chars =>
      rw [Grammar.answer_text, Grammar.answer_text]
      exact (htext rfl).mono (fun _ _ => False.elim) fun _ _ => id
  | finish =>
      obtain ⟨w, hne, -, -, hrest, rfl⟩ := hc
      rw [Grammar.answer_finish, Grammar.answer_finish, hrest, if_neg (by simp [hne]),
        if_neg (by simp [hne])]
      exact .fails
  | rule r =>
      have htoken : r.isToken = true := he
      refine token_agrees htoken (P := fun _ _ => False) ?_
        fun hd hs hs' => hc.abreast.reads hd hs hs'
      rcases Rule.isToken_cases htoken with hr | rfl | ⟨q, hq⟩
      · exact hunquoted htoken hr
      · exact div_agrees hc
      · exact quoted_agrees hq hc
  | _ => exact nomatch he

theorem atom_agrees (hxy : Facing x y) (hc : Inside x y c c') {e : Expr Rule}
    (he : e.isAtom = true) :
    (grammar.answer false e c).Agrees (Twin c c') (Abreast x y) (grammar.answer false e c') := by
  refine atom_agrees_of hc he ?_ fun {r} _ hr => ?_
  · rintro chars rfl
    exact text_agrees (fun z hz => not_mem_of_opensFiller (hxy.left z hz) he)
      (fun z hz => not_mem_of_opensFiller (hxy.right z hz) he) he hc.abreast
  · have hbuilt : (Expr.rule r).built Expr.isUnquoted Rule.isUnquoted = true := hr
    exact (unquoted hxy).agree hbuilt c c' hc.abreast

def Peg.Expr.isLetters : Expr Rule → Bool
  | .text _ | .char _ => true
  | _ => false

theorem lexical_built : ∀ r ∈ Rule.all, r.isLexical = true →
    (Rule.production r).body.built Expr.isLetters Rule.isLexical = true := by
  decide +kernel

/-- Tokens are read alike where the same text comes next. -/
def level : Likeness grammar true where
  Begins := fun c c' => c.rest = c'.rest
  Ends := fun c c' => c.rest = c'.rest
  Alike := fun _ _ => False
  leaf := Expr.isLetters
  part := Rule.isLexical
  ends := id
  skips := fun hc => .matches_ .nil hc
  leaves := by
    rintro e ⟨rest, offset⟩ ⟨rest', offset'⟩ he hc
    obtain rfl : rest = rest' := hc
    cases e with
    | text chars =>
        rw [Grammar.answer_text, Grammar.answer_text]
        clear he
        induction chars generalizing rest offset offset' with
        | nil => exact .matches_ .nil rfl
        | cons z zs ih =>
            cases rest with
            | nil => exact .fails
            | cons d rest =>
                rw [Cursor.text?_cons_cons, Cursor.text?_cons_cons]
                split
                · exact ih ..
                · exact .fails
    | char set =>
        rw [Grammar.answer_char, Grammar.answer_char]
        cases rest with
        | nil => exact .fails
        | cons d rest =>
            rw [Cursor.char?_cons, Cursor.char?_cons]
            split
            · exact .matches_ .nil rfl
            · exact .fails
    | _ => exact nomatch he
  opens := fun hr => ⟨fun _ => rfl, lexical_built _ (Rule.mem_all _) hr⟩
  closes := nofun

theorem atom_agrees_of_rest (hc : c.rest = c'.rest) {e : Expr Rule} (he : e.isAtom = true) :
    (grammar.answer false e c).Agrees (Twin c c') (fun d d' => d.rest = d'.rest)
      (grammar.answer false e c') := by
  cases e with
  | text chars =>
      have hagree := level.agree (e := .text chars) rfl c c' hc
      rw [Grammar.answer_text, Grammar.answer_text] at hagree ⊢
      exact hagree.mono (fun _ _ => False.elim) fun _ _ => id
  | finish =>
      rw [Grammar.answer_finish, Grammar.answer_finish, hc]
      split
      · exact .matches_ .nil hc
      · exact .fails
  | rule r =>
      have htoken : r.isToken = true := he
      have hbuilt : (Expr.rule r).built level.leaf level.part = true := by
        rw [Expr.built, Bool.or_eq_true]
        exact .inr (Rule.isLexical_of_isToken htoken)
      refine token_agrees htoken (level.agree hbuilt c c' hc) fun hd hs hs' => ?_
      have hread := hs.rest.symm.trans (hc.trans hs'.rest)
      rw [hd] at hread
      exact List.append_cancel_right hread
  | _ => exact nomatch he

theorem Peg.Reply.Agrees.reads {tight : Bool} {e : Expr Rule} {c c' : Cursor}
    {P : Pair Rule → Pair Rule → Prop} {E : Cursor → Cursor → Prop}
    (h : (grammar.answer tight e c).Agrees P E (grammar.answer tight e c')) :
    (grammar.answer tight e c).Agrees P
      (fun d d' => (∃ s, c.Reads s d) ∧ (∃ s, c'.Reads s d') ∧ E d d')
      (grammar.answer tight e c') := by
  cases hreply : grammar.answer tight e c with
  | stuck => trivial
  | fail =>
      rw [h.eq_fail hreply]
      exact .fails
  | ok ps d =>
      obtain ⟨ps', d', hreply', hps, hd⟩ := h.exists_ok hreply
      rw [hreply']
      exact .matches_ hps ⟨Grammar.answer_reads hreply, Grammar.answer_reads hreply', hd⟩

theorem Peg.Reply.Agrees.within {s s' : Source} {tight : Bool} {e : Expr Rule} {c c' : Cursor}
    {P : Pair Rule → Pair Rule → Prop} {E : Cursor → Cursor → Prop}
    (h : (grammar.answer tight e c).Agrees P E (grammar.answer tight e c')) (hc : c.In s)
    (hc' : c'.In s') :
    (grammar.answer tight e c).Agrees P (fun d d' => d.In s ∧ d'.In s' ∧ E d d')
      (grammar.answer tight e c') := by
  refine h.reads.mono (fun _ _ => id) ?_
  rintro d d' ⟨⟨_, hs⟩, ⟨_, hs'⟩, hd⟩
  exact ⟨hc.reads hs, hc'.reads hs', hd⟩

theorem filler_agrees_of_rest {c c' : Cursor} (h : c.rest = c'.rest) :
    (grammar.answer true filler c).Agrees (fun _ _ => True) (fun d d' => d.rest = d'.rest)
      (grammar.answer true filler c') := by
  obtain ⟨s, d, hd⟩ := exists_takes_filler c
  obtain ⟨hread, hgap⟩ := takes_filler.mp hd
  have hd' : grammar.Takes filler c' s ⟨d.rest, c'.offset + Source.byteLength s⟩ :=
    takes_filler.mpr ⟨⟨h.symm.trans hread.rest, rfl⟩, hgap⟩
  rw [hd.1, hd'.1]
  exact .matches_ .nil rfl

theorem loose_built : ∀ r ∈ Rule.all, r.isLexical = false → r ≠ .file →
    (Rule.production r).body.built Expr.isAtom
      (fun r => !r.isLexical && decide (r ≠ .file)) = true := by
  decide +kernel

theorem loose_opens {r : Rule} (hr : (!r.isLexical && decide (r ≠ .file)) = true) :
    ((grammar.production r).tight = true → false = true) ∧
      (grammar.production r).body.built Expr.isAtom
        (fun r => !r.isLexical && decide (r ≠ .file)) = true := by
  rw [Bool.and_eq_true, Bool.not_eq_true', decide_eq_true_eq] at hr
  refine ⟨fun htight => ?_, loose_built r r.mem_all hr.1 hr.2⟩
  exact (Rule.loose_of_isLexical hr.1).symm.trans htight

end XiFront

import Mathlib.Logic.Relation
import XiFront.Proofs.Grammar.Lookahead

namespace XiFront

open Peg

def marks : List Char :=
  ['(', '[', '\x7b', ')', ']', '\x7d', ',']

/-- A state that signs and words change; a sign that is not counted changes it as a word does. -/
structure Tally (σ : Type) where
  sign : Char → σ → Option σ
  word : σ → σ
  sign_of_not_mark {z : Char} (hz : z ∉ marks) (i : σ) : sign z i = some (word i)
  word_word (i : σ) : word (word i) = word i

/-- How many brackets are open behind a character, if so many are open before it. -/
def nesting (z : Char) (i : Nat) : Option Nat :=
  if z ∈ ['(', '[', '\x7b'] then some (i + 1)
  else if z ∈ [')', ']', '\x7d'] then (if i = 0 then none else some (i - 1))
  else some i

theorem nesting_add {z : Char} {i j : Nat} (h : nesting z i = some j) (k : Nat) :
    nesting z (i + k) = some (j + k) := by
  simp only [nesting] at h ⊢
  grind

theorem nesting_of_not_mark {z : Char} (hz : z ∉ marks) (i : Nat) : nesting z i = some i := by
  simp only [marks, List.mem_cons, List.not_mem_nil, or_false, not_or] at hz
  rw [nesting, if_neg (by simp [hz]), if_neg (by simp [hz])]

theorem ne_comma_of_not_mark {z : Char} (hz : z ∉ marks) : z ≠ ',' := by
  rintro rfl
  exact hz (by decide)

namespace Tally

def brackets : Tally Nat where
  sign := nesting
  word := id
  sign_of_not_mark := nesting_of_not_mark
  word_word _ := rfl

def commas : Tally Bool where
  sign z _ := some (decide (z = ','))
  word _ := false
  sign_of_not_mark hz _ := congrArg some (decide_eq_false (ne_comma_of_not_mark hz))
  word_word _ := rfl

end Tally

section

variable {σ : Type}

/-- The first piece of a text, with the states before it and behind it. -/
inductive Piece (k : Tally σ) : List Char × σ → List Char × σ → Prop
  | sign {z : Char} {t : List Char} {i j : σ} (hz : isPlain z = true)
      (hj : k.sign z i = some j) : Piece k (z :: t, i) (t, j)
  | slash {t : List Char} {i : σ} (hnext : ∀ z ∈ t.head?, z ≠ '/' ∧ z ≠ '*') :
      Piece k ('/' :: t, i) (t, k.word i)
  | literal {r : Rule} {q : Char} {s t : List Char} {i : σ} (hr : r.quote? = some q)
      (hs : ∀ rest, Spans (.rule r) (q :: s) rest) : Piece k (q :: (s ++ t), i) (t, k.word i)
  | gap {a t : List Char} {i : σ} (ha : a ≠ []) (hgap : IsGap a t) : Piece k (a ++ t, i) (t, i)

def Pieces (k : Tally σ) : List Char × σ → List Char × σ → Prop :=
  Relation.ReflTransGen (Piece k)

namespace Piece

variable {k : Tally σ} {z q : Char} {s t a : List Char} {i : σ} {p : List Char × σ}

theorem of_plain (h : Piece k (z :: t, i) p) (hz : isPlain z = true) :
    p.1 = t ∧ k.sign z i = some p.2 := by
  generalize hu : z :: t = u at h
  cases h with
  | sign _ hj =>
      cases hu
      exact ⟨rfl, hj⟩
  | slash _ =>
      cases hu
      exact nomatch hz
  | literal hr _ =>
      cases hu
      rw [(Rule.quote?_eq_some hr).1] at hz
      exact nomatch hz
  | gap ha hgap =>
      obtain ⟨y, a, rfl⟩ := List.exists_cons_of_ne_nil ha
      cases hu
      rw [isPlain_of_opensFiller (hgap.opensFiller z rfl)] at hz
      exact nomatch hz

theorem of_slash (h : Piece k ('/' :: t, i) p) (hfirm : IsFirm ('/' :: t)) : p = (t, k.word i) := by
  generalize hu : '/' :: t = u at h
  cases h with
  | sign hz _ =>
      cases hu
      exact nomatch hz
  | slash _ =>
      cases hu
      rfl
  | literal hr _ =>
      cases hu
      exact absurd rfl (Rule.quote?_eq_some hr).2.2
  | gap ha hgap =>
      rw [hu] at hfirm
      exact absurd hfirm (hgap.not_firm ha)

theorem of_gap (h : Piece k (a ++ t, i) p) (ha : a ≠ []) (hgap : IsGap a t) : p = (t, i) := by
  have hopens : ∀ z ∈ (a ++ t).head?, opensFiller z = true := by
    obtain ⟨z, a, rfl⟩ := List.exists_cons_of_ne_nil ha
    exact hgap.opensFiller
  generalize hu : a ++ t = u at h hopens
  cases h with
  | sign hz _ =>
      rw [isPlain_of_opensFiller (hopens _ rfl)] at hz
      exact nomatch hz
  | slash hnext =>
      have hfirm := IsFirm.slash hnext
      rw [← hu] at hfirm
      exact absurd hfirm (hgap.not_firm ha)
  | literal hr _ =>
      obtain ⟨-, hblank, hslash⟩ := Rule.quote?_eq_some hr
      exact absurd (hu ▸ .cons hblank hslash) (hgap.not_firm ha)
  | gap _ hgap' =>
      obtain ⟨-, rfl⟩ := hgap.unique hgap' hu
      rfl

theorem of_literal {r : Rule} (h : Piece k (q :: (s ++ t), i) p) (hr : r.quote? = some q)
    (hs : ∀ rest, Spans (.rule r) (q :: s) rest) : p = (t, k.word i) := by
  obtain ⟨hplain, hblank, hslash⟩ := Rule.quote?_eq_some hr
  generalize hu : q :: (s ++ t) = u at h
  cases h with
  | sign hz _ =>
      cases hu
      rw [hplain] at hz
      exact nomatch hz
  | slash _ =>
      cases hu
      exact absurd rfl hslash
  | @literal r' q' s' t' i hr' hs' =>
      obtain ⟨rfl, htail⟩ := List.cons.inj hu
      obtain rfl := Rule.eq_of_quote? hr hr'
      have hfirst := (hs t 0).1
      have hsecond := (hs' t' 0).1
      rw [List.cons_append, htail] at hfirst
      rw [List.cons_append] at hsecond
      have hd := (Reply.ok.inj (hfirst.symm.trans hsecond)).2
      exact congrArg (·, k.word i) (congrArg Cursor.rest hd).symm
  | gap ha hgap =>
      have hfirm : IsFirm (q :: (s ++ t)) := .cons hblank hslash
      rw [hu] at hfirm
      exact absurd hfirm (hgap.not_firm ha)

theorem rightUnique : Relator.RightUnique (Piece k) := by
  intro p p₁ p₂ h h'
  cases h with
  | sign hz hj =>
      obtain ⟨rfl, hj'⟩ := h'.of_plain hz
      cases Option.some.inj (hj.symm.trans hj')
      rfl
  | slash hnext => exact (h'.of_slash (.slash hnext)).symm
  | literal hr hs => exact (h'.of_literal hr hs).symm
  | gap ha hgap => exact (h'.of_gap ha hgap).symm

theorem length (h : Piece k (s, i) p) : p.1.length < s.length := by
  cases h with
  | sign _ _ => simp
  | slash _ => simp
  | literal _ _ =>
      simp only [List.length_cons, List.length_append]
      omega
  | gap ha _ =>
      have := List.length_pos_iff.mpr ha
      simp only [List.length_append]
      omega

theorem add {t : List Char} {i j : Nat} (h : Piece .brackets (s, i) (t, j)) (k : Nat) :
    Piece .brackets (s, i + k) (t, j + k) := by
  cases h with
  | sign hz hj => exact .sign hz (nesting_add hj k)
  | slash hnext => exact .slash hnext
  | literal hr hs => exact .literal hr hs
  | gap ha hgap => exact .gap ha hgap

end Piece

namespace Pieces

variable {k : Tally σ} {s t : List Char} {i : σ} {p p' : List Char × σ}

theorem refl (p : List Char × σ) : Pieces k p p :=
  Relation.ReflTransGen.refl

theorem trans (h : Pieces k p p') {p'' : List Char × σ} (h' : Pieces k p' p'') : Pieces k p p'' :=
  Relation.ReflTransGen.trans h h'

theorem step (h : Piece k p p') : Pieces k p p' :=
  Relation.ReflTransGen.single h

theorem total (h : Pieces k p p') {p'' : List Char × σ} (h' : Pieces k p p'') :
    Pieces k p' p'' ∨ Pieces k p'' p' :=
  Relation.ReflTransGen.total_of_right_unique Piece.rightUnique h h'

theorem length (h : Pieces k p p') : p = p' ∨ p'.1.length < p.1.length := by
  induction h with
  | refl => exact .inl rfl
  | tail _ hstep ih =>
      right
      have hlt := hstep.length
      rcases ih with rfl | ih
      · exact hlt
      · exact Nat.lt_trans hlt ih

theorem eq_of_length (h : Pieces k p p') (hle : p.1.length ≤ p'.1.length) : p = p' :=
  h.length.resolve_right (Nat.not_lt.mpr hle)

theorem state_unique {j j' : σ} (h : Pieces k p (t, j)) (h' : Pieces k p (t, j')) : j = j' := by
  rcases h.total h' with h | h
  · exact (Prod.mk.inj (h.eq_of_length (Nat.le_refl _))).2
  · exact (Prod.mk.inj (h.eq_of_length (Nat.le_refl _))).2.symm

theorem suffix (h : Pieces k p p') : p'.1 <:+ p.1 := by
  induction h with
  | refl => exact List.suffix_rfl
  | tail _ hstep ih =>
      refine List.IsSuffix.trans ?_ ih
      cases hstep with
      | sign _ _ | slash _ => exact List.suffix_cons _ _
      | literal _ _ => exact (List.suffix_append _ _).trans (List.suffix_cons _ _)
      | gap _ _ => exact List.suffix_append _ _

theorem exists_first (h : Pieces k (s ++ t, i) p) (hs : s ≠ []) (hle : p.1.length ≤ t.length) :
    ∃ p', Piece k (s ++ t, i) p' ∧ Pieces k p' p := by
  rcases Relation.ReflTransGen.cases_head h with rfl | hstep
  · have := List.length_pos_iff.mpr hs
    simp only [List.length_append] at hle
    omega
  · exact hstep

theorem of_cut (h : Pieces k (s ++ t, i) p) (hs : Cut t s) (hle : p.1.length ≤ t.length) :
    ∃ j, Pieces k (t, j) p := by
  induction hs generalizing i with
  | nil => exact ⟨i, h⟩
  | plain hz _ ih =>
      obtain ⟨⟨u, j⟩, hfirst, hrest⟩ := h.exists_first nofun hle
      obtain ⟨rfl, -⟩ := hfirst.of_plain hz
      exact ih hrest
  | slash hnext _ ih =>
      obtain ⟨p', hfirst, hrest⟩ := h.exists_first nofun hle
      obtain rfl := hfirst.of_slash (.slash hnext)
      exact ih hrest
  | literal hr hs _ ih =>
      obtain ⟨p', hfirst, hrest⟩ := h.exists_first nofun hle
      rw [List.cons_append, List.append_assoc] at hfirst
      obtain rfl := hfirst.of_literal hr hs
      exact ih hrest
  | gap ha hw hgap _ ih =>
      obtain ⟨p', hfirst, hrest⟩ := h.exists_first (by simp [ha]) hle
      rw [List.append_assoc] at hfirst
      obtain rfl := hfirst.of_gap ha hgap
      exact ih hrest

theorem of_trail (h : Pieces k (s ++ t, i) p) (hs : Trail t s) (hle : p.1.length ≤ t.length) :
    ∃ j, Pieces k (t, j) p := by
  obtain ⟨v, a, rfl, hv, hgap⟩ := hs
  rw [List.append_assoc] at h
  obtain ⟨j, hj⟩ := h.of_cut hv (by rw [List.length_append]; omega)
  by_cases ha : a = []
  · subst ha
    exact ⟨j, hj⟩
  · obtain ⟨p', hfirst, hrest⟩ := hj.exists_first ha hle
    obtain rfl := hfirst.of_gap ha (hgap.resolve_left ha)
    exact ⟨j, hrest⟩

end Pieces

end

namespace Pieces

variable {s t : List Char} {i j : Nat} {p : List Char × Nat}

theorem add (h : Pieces .brackets (s, i) (t, j)) (m : Nat) :
    Pieces .brackets (s, i + m) (t, j + m) :=
  Relation.ReflTransGen.lift (fun p : List Char × Nat => (p.1, p.2 + m))
    (fun _ _ (hstep : Piece _ _ _) => hstep.add m) _ _ h

/-- There is no path out of brackets that have not been opened. -/
theorem eq_of_closes {z : Char} (h : Pieces .brackets (z :: t, 0) p)
    (hz : z ∈ [')', ']', '\x7d']) : p = (z :: t, 0) := by
  rcases Relation.ReflTransGen.cases_head h with heq | ⟨p', hstep, -⟩
  · exact heq.symm
  · have hclosing : ∀ z ∈ [')', ']', '\x7d'], isPlain z = true ∧ nesting z 0 = none := by decide
    obtain ⟨hplain, hnone⟩ := hclosing z hz
    exact nomatch hnone.symm.trans (hstep.of_plain hplain).2

end Pieces

def Peg.Expr.isFlat : Expr Rule → Bool
  | .text chars => chars.all fun z => decide (z ∉ marks)
  | .char set => decide (set ≠ .any)
  | _ => false

theorem flat_built : ∀ r ∈ Rule.all, r.isUnquoted = true →
    (Rule.production r).body.built Expr.isFlat Rule.isUnquoted = true := by
  decide +kernel

theorem not_mark_of_contains {set : Charset} (hset : set ≠ .any) {y : Char}
    (hy : set.contains y = true) : y ∉ marks := by
  intro hmem
  simp only [marks, List.mem_cons, List.not_mem_nil, or_false] at hmem
  rcases hmem with rfl | rfl | rfl | rfl | rfl | rfl | rfl <;>
    cases set <;> first | exact hset rfl | exact absurd hy (by decide)

theorem takes_flat {e : Expr Rule} (he : e.isFlat = true) {c d : Cursor} {ps : List (Pair Rule)}
    (h : grammar.answer true e c = .ok ps d) :
    ∃ s, c.Reads s d ∧ ∀ z ∈ s, z ∉ marks := by
  cases e with
  | text chars =>
      refine ⟨chars, (Grammar.answer_text_eq_ok_iff.mp h).2, fun z hz => ?_⟩
      exact of_decide_eq_true (List.all_eq_true.mp he z hz)
  | char set =>
      obtain ⟨-, z, hz, hread⟩ := Grammar.answer_char_eq_ok_iff.mp h
      exact ⟨[z], hread, List.forall_mem_singleton.mpr
        (not_mark_of_contains (of_decide_eq_true he) hz)⟩
  | _ => exact nomatch he

theorem unquoted_reads_flat {r : Rule} (hr : r.isUnquoted = true) {c d : Cursor} {s : Source}
    (h : grammar.Takes (.rule r) c s d) : ∀ z ∈ s, z ∉ marks := by
  have hbuilt : (Expr.rule r).built Expr.isFlat Rule.isUnquoted = true := hr
  obtain ⟨t, ht, hflat⟩ :=
    reads_of_leaves (fun he => takes_flat he)
      (fun hr => flat_built _ (Rule.mem_all _) hr) hbuilt h.1
  rw [h.2.unique ht]
  exact hflat

namespace Pieces

variable {σ : Type} {k : Tally σ} {c d : Cursor} {s : Source}

theorem of_gap {a t : List Char} (h : IsGap a t) (i : σ) : Pieces k (a ++ t, i) (t, i) := by
  by_cases hne : a = []
  · subst hne
    exact .refl _
  · exact .step (.gap hne h)

theorem of_filler (h : grammar.answer true filler c = .ok [] d) (i : σ) :
    Pieces k (c.rest, i) (d.rest, i) := by
  obtain ⟨a, ha⟩ := Grammar.takes_of_answer h
  obtain ⟨hread, hgap⟩ := takes_filler.mp ha
  rw [hread.rest]
  exact .of_gap hgap i

theorem of_flat (hplain : ∀ z ∈ s, isPlain z = true) (hflat : ∀ z ∈ s, z ∉ marks) (hs : s ≠ [])
    (t : List Char) (i : σ) : Pieces k (s ++ t, i) (t, k.word i) := by
  induction s generalizing i with
  | nil => exact absurd rfl hs
  | cons z s ih =>
      rw [List.forall_mem_cons] at hplain hflat
      have hfirst : Piece k (z :: s ++ t, i) (s ++ t, k.word i) :=
        .sign hplain.1 (k.sign_of_not_mark hflat.1 i)
      by_cases hnil : s = []
      · subst hnil
        exact .step hfirst
      · have hrest := ih hplain.2 hflat.2 hnil (k.word i)
        rw [k.word_word] at hrest
        exact .trans (.step hfirst) hrest

theorem of_token {r : Rule} (hr : r.isToken = true) (h : grammar.Takes (.rule r) c s d)
    (hdiv : r = .binary .div → ∀ z ∈ d.rest.head?, z ≠ '/' ∧ z ≠ '*') (i : σ) :
    Pieces k (c.rest, i) (d.rest, k.word i) := by
  rw [h.2.rest]
  rcases Rule.isToken_cases hr with hunquoted | rfl | ⟨q, hq⟩
  · obtain ⟨s', hs', hne⟩ :=
      answer_reads_something (e := .rule r) (Rule.not_isEmpty_of_isToken hr) h.1
    refine of_flat (unquoted_reads_plain hunquoted h) (unquoted_reads_flat hunquoted h) ?_ _ i
    rwa [h.2.unique hs']
  · obtain ⟨rfl, hread⟩ := Grammar.takes_text.mp (Grammar.takes_rule.mp h)
    exact .step (.slash (hdiv rfl))
  · obtain ⟨s', rfl, hspans⟩ := takes_quoted hq h
    exact .step (.literal hq hspans)

end Pieces

theorem opens_nothing_of_tightOperators {c d n e : Cursor} {ps qs : List (Pair Rule)}
    (hfirm : IsFirm c.rest) (h : grammar.answer false tightOperators c = .ok ps d)
    (hskip : grammar.answer true filler d = .ok [] n)
    (hnext : grammar.answer false (.rule .castExpr) n = .ok qs e)
    (hdiv : grammar.answer false (.rule (.binary .div)) c = .ok ps d) :
    ∀ z ∈ d.rest.head?, z ≠ '/' ∧ z ≠ '*' := by
  obtain ⟨⟨s, hs⟩, -⟩ := (answer_token_iff rfl).mp hdiv
  obtain ⟨rfl, hslash⟩ := Grammar.takes_text.mp (Grammar.takes_rule.mp hs)
  obtain ⟨_, hread, v, a, rfl, hcut, ha⟩ := Reaches.of_tightOperators hfirm h hskip hnext
  have hsplit := hread.unique hslash
  rw [hslash.rest] at hfirm
  cases v with
  | nil =>
      obtain rfl : a = ['/'] := hsplit
      exact absurd hfirm ((ha.resolve_left nofun).not_firm nofun)
  | cons z v =>
      obtain ⟨rfl, hnil⟩ := List.cons.inj hsplit
      obtain ⟨rfl, rfl⟩ := List.append_eq_nil_iff.mp hnil
      exact hcut.opens_nothing hfirm

/-- How many brackets are open behind a match, if so many are open before it. -/
def Peg.Expr.nests : Expr Rule → Nat → Option Nat
  | .text chars, i => chars.foldlM (fun i z => if isPlain z then nesting z i else none) i
  | .char _, _ | .start, _ => none
  | .finish, i => some i
  | .rule r, i => if r ≠ .file ∧ (r.isToken || !r.isLexical) = true then some i else none
  | .seq a b, i => (a.nests i).bind b.nests
  | .alt a b, i => if a.nests i = b.nests i then a.nests i else none
  | .opt a, i | .star a, i | .more a, i => if a.nests i = some i then some i else none
  | .neg a, i => (a.nests i).map fun _ => i

theorem nests_text_cons {z : Char} {chars : List Char} {i j : Nat} :
    (Expr.text (z :: chars) : Expr Rule).nests i = some j ↔
      isPlain z = true ∧ ∃ k, nesting z i = some k ∧
        (Expr.text chars : Expr Rule).nests k = some j := by
  rw [Expr.nests, List.foldlM_cons, Option.bind_eq_bind, Option.bind_eq_some_iff]
  simp only [Option.ite_none_right_eq_some, and_assoc, exists_and_left]
  rfl

theorem nests_body : ∀ r ∈ Rule.all, r.isLexical = false → r ≠ .file →
    (Rule.production r).body.nests 0 = some 0 := by
  decide +kernel

theorem Pieces.of_text {i j : Nat} {chars t : List Char}
    (h : (Expr.text chars : Expr Rule).nests i = some j) :
    Pieces .brackets (chars ++ t, i) (t, j) := by
  induction chars generalizing i with
  | nil =>
      cases h
      exact .refl _
  | cons z chars ih =>
      obtain ⟨hz, k, hk, hrest⟩ := nests_text_cons.mp h
      exact .trans (.step (.sign hz hk)) (ih hrest)

/-- A match that begins at no filler closes the brackets that it opens. -/
theorem Pieces.of_derives {e : Expr Rule} {c d : Cursor} {ps : List (Pair Rule)} {i j : Nat}
    (h : Derives e c ps d) (he : e.isSteady = true) (hn : e.nests i = some j)
    (hfirm : IsFirm c.rest) : Pieces .brackets (c.rest, i) (d.rest, j) := by
  have htoken {r : Rule} {c d : Cursor} {ps : List (Pair Rule)} {i j : Nat} (hr : r.isToken = true)
      (h : grammar.answer false (.rule r) c = .ok ps d)
      (hdiv : r = .binary .div → ∀ z ∈ d.rest.head?, z ≠ '/' ∧ z ≠ '*')
      (hn : (Expr.rule r).nests i = some j) : Pieces .brackets (c.rest, i) (d.rest, j) := by
    obtain ⟨⟨s, hs⟩, -⟩ := (answer_token_iff hr).mp h
    obtain ⟨-, ⟨⟩⟩ := Option.ite_none_right_eq_some.mp hn
    exact .of_token hr hs hdiv i
  induction h generalizing i j with
  | text h =>
      rw [h.rest]
      exact .of_text hn
  | char hy h => exact nomatch hn
  | start h => exact nomatch hn
  | finish h =>
      cases hn
      exact .refl _
  | @token r c d ps htight h =>
      rcases Bool.or_eq_true_iff.mp he with hr | hr
      · rw [Bool.and_eq_true, decide_eq_true_eq] at hr
        exact htoken hr.1 h (fun hdiv => absurd hdiv hr.2) hn
      · have hloose := Rule.loose_of_isLexical ((Bool.not_eq_true' _).mp hr)
        exact nomatch htight.symm.trans hloose
  | @rule r c d cs hloose hbody ih =>
      obtain ⟨⟨hfile, hr⟩, ⟨⟩⟩ := Option.ite_none_right_eq_some.mp hn
      rcases Bool.or_eq_true_iff.mp hr with hr | hr
      · exact nomatch (Rule.tight_of_isToken hr).symm.trans hloose
      · rw [Bool.not_eq_true'] at hr
        have hinside := ih (steady_body r r.mem_all hr) (nests_body r r.mem_all hr hfile) hfirm
        simpa using hinside.add i
  | @seq a b c d n e ps qs ha hskip hb iha ihb =>
      obtain ⟨hsa, hsb⟩ := Bool.and_eq_true_iff.mp he
      obtain ⟨k, hna, hnb⟩ := Option.bind_eq_some_iff.mp hn
      have hfirst : Pieces .brackets (c.rest, i) (d.rest, k) := by
        rcases Bool.or_eq_true_iff.mp hsa with hsa | hsa
        · exact iha hsa hna hfirm
        · rw [Bool.and_eq_true, decide_eq_true_eq, decide_eq_true_eq] at hsa
          obtain ⟨rfl, rfl⟩ := hsa
          obtain ⟨o, ho⟩ := answer_of_tightOperators ha.answer
          have hdepth : k = i := by
            simpa [tightOperators, Expr.nests, Rule.isToken, eq_comm] using hna
          refine htoken rfl ho (fun hdiv => ?_) (by simp [Expr.nests, Rule.isToken, hdepth])
          exact opens_nothing_of_tightOperators hfirm ha.answer hskip hb.answer (hdiv ▸ ho)
      exact hfirst.trans ((Pieces.of_filler hskip k).trans
        (ihb hsb hnb (Reaches.of_filler hskip).2))
  | first ha ih =>
      obtain ⟨hsame, hna⟩ := Option.ite_none_right_eq_some.mp hn
      exact ih (Bool.and_eq_true_iff.mp he).1 hna hfirm
  | second hfail hb ih =>
      obtain ⟨hsame, hna⟩ := Option.ite_none_right_eq_some.mp hn
      exact ih (Bool.and_eq_true_iff.mp he).2 (hsame.symm.trans hna) hfirm
  | some ha ih =>
      obtain ⟨hna, ⟨⟩⟩ := Option.ite_none_right_eq_some.mp hn
      exact ih he hna hfirm
  | none hfail | done hfail =>
      obtain ⟨-, ⟨⟩⟩ := Option.ite_none_right_eq_some.mp hn
      exact .refl _
  | last ha hskip hfail ih =>
      obtain ⟨hna, ⟨⟩⟩ := Option.ite_none_right_eq_some.mp hn
      exact ih he hna hfirm
  | turn ha hskip hrest hne ih ihrest =>
      obtain ⟨hna, ⟨⟩⟩ := Option.ite_none_right_eq_some.mp hn
      exact (ih he hna hfirm).trans ((Pieces.of_filler hskip i).trans
        (ihrest he hn (Reaches.of_filler hskip).2))
  | neg hfail =>
      obtain ⟨-, -, ⟨⟩⟩ := Option.map_eq_some_iff.mp hn
      exact .refl _

/-- Whether a match may end with a comma, or with nothing behind one. -/
def Peg.Expr.endsOpen : Expr Rule → Bool
  | .text chars => decide (',' ∈ chars)
  | .char _ => true
  | .start | .finish | .neg _ => false
  | .rule r => !(r.isToken || !r.isLexical && decide (r ∉ [.file, .endOfInput]))
  | .seq a b => b.endsOpen || b.nullable Rule.isEmpty && a.endsOpen
  | .alt a b => a.endsOpen || b.endsOpen
  | .opt a | .star a | .more a => a.endsOpen

theorem endsOpen_body : ∀ r ∈ Rule.all, r.isLexical = false → r ∉ [Rule.file, .endOfInput] →
    (Rule.production r).body.endsOpen = false := by
  decide +kernel

theorem Pieces.commas_of_text {chars : List Char} (hplain : ∀ z ∈ chars, isPlain z = true)
    (t : List Char) (i : Bool) :
    ∃ j, Pieces .commas (chars ++ t, i) (t, j) ∧
      (j = true → ',' ∈ chars ∨ chars = [] ∧ i = true) := by
  induction chars generalizing i with
  | nil => exact ⟨i, .refl _, fun hi => .inr ⟨rfl, hi⟩⟩
  | cons z chars ih =>
      rw [List.forall_mem_cons] at hplain
      obtain ⟨j, hj, hend⟩ := ih hplain.2 (decide (z = ','))
      refine ⟨j, .trans (.step (.sign hplain.1 rfl)) hj, fun htrue => .inl ?_⟩
      rcases hend htrue with hmem | ⟨-, hz⟩
      · exact List.mem_cons_of_mem _ hmem
      · rw [of_decide_eq_true hz]
        exact List.mem_cons_self

theorem Pieces.commas_of_derives {e : Expr Rule} {c d : Cursor} {ps : List (Pair Rule)}
    (h : Derives e c ps d) (he : e.isSteady = true) (hfirm : IsFirm c.rest) (i : Bool) :
    ∃ j, Pieces .commas (c.rest, i) (d.rest, j) ∧
      (j = true → e.endsOpen = true ∨ d = c ∧ i = true) := by
  have htoken {r : Rule} {c d : Cursor} {ps : List (Pair Rule)} {i : Bool} (hr : r.isToken = true)
      (h : grammar.answer false (.rule r) c = .ok ps d)
      (hdiv : r = .binary .div → ∀ z ∈ d.rest.head?, z ≠ '/' ∧ z ≠ '*') :
      Pieces .commas (c.rest, i) (d.rest, false) := by
    obtain ⟨⟨s, hs⟩, -⟩ := (answer_token_iff hr).mp h
    exact .of_token hr hs hdiv i
  induction h generalizing i with
  | @text chars c d h =>
      obtain ⟨j, hj, hend⟩ := commas_of_text (List.all_eq_true.mp he) d.rest i
      rw [h.rest]
      refine ⟨j, hj, fun htrue => (hend htrue).imp decide_eq_true ?_⟩
      rintro ⟨rfl, hi⟩
      exact ⟨h.eq_of_nil, hi⟩
  | char hy h => exact nomatch he
  | start h | finish h | neg hfail => exact ⟨i, .refl _, fun hi => .inr ⟨rfl, hi⟩⟩
  | @token r c d ps htight h =>
      rcases Bool.or_eq_true_iff.mp he with hr | hr
      · rw [Bool.and_eq_true, decide_eq_true_eq] at hr
        exact ⟨false, htoken hr.1 h (fun hdiv => absurd hdiv hr.2), nofun⟩
      · have hloose := Rule.loose_of_isLexical ((Bool.not_eq_true' _).mp hr)
        exact nomatch htight.symm.trans hloose
  | @rule r c d cs hloose hbody ih =>
      have hlexical := not_isLexical_of_isSteady he hloose
      obtain ⟨j, hj, hend⟩ := ih (steady_body r r.mem_all hlexical) hfirm i
      refine ⟨j, hj, fun htrue => (hend htrue).imp_left fun hopen => ?_⟩
      by_cases hr : r ∈ [Rule.file, .endOfInput]
      · have hopens : ∀ r ∈ [Rule.file, .endOfInput], (Expr.rule r).endsOpen = true := by decide
        exact hopens r hr
      · exact nomatch (endsOpen_body r r.mem_all hlexical hr).symm.trans hopen
  | @seq a b c d n e ps qs ha hskip hb iha ihb =>
      obtain ⟨hsa, hsb⟩ := Bool.and_eq_true_iff.mp he
      have hfirst : ∃ j, Pieces .commas (c.rest, i) (d.rest, j) ∧
          (j = true → a.endsOpen = true ∨ d = c ∧ i = true) := by
        rcases Bool.or_eq_true_iff.mp hsa with hsa | hsa
        · exact iha hsa hfirm i
        · rw [Bool.and_eq_true, decide_eq_true_eq, decide_eq_true_eq] at hsa
          obtain ⟨rfl, rfl⟩ := hsa
          obtain ⟨o, ho⟩ := answer_of_tightOperators ha.answer
          refine ⟨false, htoken rfl ho fun hdiv => ?_, nofun⟩
          exact opens_nothing_of_tightOperators hfirm ha.answer hskip hb.answer (hdiv ▸ ho)
      obtain ⟨j, hj, hend⟩ := hfirst
      obtain ⟨j', hj', hend'⟩ := ihb hsb (Reaches.of_filler hskip).2 j
      refine ⟨j', .trans hj (.trans (.of_filler hskip j) hj'), fun htrue => ?_⟩
      rw [Expr.endsOpen, Bool.or_eq_true, Bool.and_eq_true, or_assoc]
      refine (hend' htrue).imp_right fun ⟨hstays, hcomma⟩ => ?_
      subst hstays
      refine (hend hcomma).imp (fun hopen => ⟨?_, hopen⟩) fun ⟨hd, hi⟩ => ⟨?_, hi⟩
      · by_contra hnull
        rw [Bool.not_eq_true] at hnull
        obtain ⟨t, ht, hne⟩ := answer_reads_something hnull hb.answer
        exact hne (ht.unique (.refl _))
      · subst hd
        exact (Reply.ok.inj (hskip.symm.trans (answer_filler_firm hfirm))).2
  | first ha ih =>
      obtain ⟨j, hj, hend⟩ := ih (Bool.and_eq_true_iff.mp he).1 hfirm i
      exact ⟨j, hj, fun htrue => (hend htrue).imp_left fun hopen => by simp [Expr.endsOpen, hopen]⟩
  | second hfail hb ih =>
      obtain ⟨j, hj, hend⟩ := ih (Bool.and_eq_true_iff.mp he).2 hfirm i
      exact ⟨j, hj, fun htrue => (hend htrue).imp_left fun hopen => by simp [Expr.endsOpen, hopen]⟩
  | some ha ih => exact ih he hfirm i
  | none hfail | done hfail => exact ⟨i, .refl _, fun hi => .inr ⟨rfl, hi⟩⟩
  | last ha hskip hfail ih => exact ih he hfirm i
  | @turn a c d n e ps qs ha hskip hrest hne ih ihrest =>
      obtain ⟨j, hj, -⟩ := ih he hfirm i
      obtain ⟨j', hj', hend'⟩ := ihrest he (Reaches.of_filler hskip).2 j
      refine ⟨j', .trans hj (.trans (.of_filler hskip j) hj'), fun htrue => .inl ?_⟩
      exact (hend' htrue).resolve_right fun h => hne h.1

end XiFront

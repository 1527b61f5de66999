import XiFront.Proofs.Grammar.Filler
import XiFront.Proofs.Tree.Numbering

namespace XiFront

open Peg

def opensFiller (c : Char) : Bool :=
  decide (c ∈ [' ', '\t', '\n', '\r', '/'])

/-- The next character, if there is one, does not begin filler. -/
def IsSolid (rest : List Char) : Prop :=
  ∀ c ∈ rest.head?, opensFiller c = false

theorem IsSolid.cons {c : Char} {cs : List Char} (h : opensFiller c = false) :
    IsSolid (c :: cs) := by
  intro d hd
  cases Option.some.inj hd
  exact h

def Skips (gap rest : List Char) : Prop :=
  ∀ c : Cursor, c.rest = gap ++ rest →
    ∃ c', grammar.answer true filler c = .ok [] c' ∧ c'.rest = rest

theorem IsSolid.isFirm {rest : List Char} (h : IsSolid rest) : IsFirm rest := by
  cases rest with
  | nil => exact .nil
  | cons c cs =>
      have hc := h c rfl
      simp only [opensFiller, decide_eq_false_iff_not, List.mem_cons, List.not_mem_nil, or_false,
        not_or] at hc
      apply IsFirm.cons
      · simp [isBlank, hc]
      · exact hc.2.2.2.2

theorem IsGap.skips {gap rest : List Char} (h : IsGap gap rest) : Skips gap rest := by
  intro c hc
  have htakes : grammar.Takes filler c gap ⟨rest, c.offset + Source.byteLength gap⟩ :=
    takes_filler.mpr ⟨⟨hc, rfl⟩, h⟩
  exact ⟨_, htakes.1, rfl⟩

theorem answer_filler_firm {c : Cursor} (h : IsFirm c.rest) :
    grammar.answer true filler c = .ok [] c :=
  (takes_filler.mpr ⟨.refl c, .stop h⟩).1

theorem skips_nil {rest : List Char} (h : IsSolid rest) : Skips [] rest :=
  (IsGap.stop h.isFirm).skips

theorem skips_blank {rest : List Char} (h : IsSolid rest) : Skips [' '] rest :=
  (IsGap.blank rfl (.stop h.isFirm)).skips

def Fails (e : Expr Rule) (text : List Char) : Prop :=
  ∀ c : Cursor, c.rest = text → grammar.answer false e c = .fail

namespace Fails

theorem text {x : Char} {xs rest : List Char} (h : ∀ y ∈ rest.head?, x ≠ y) :
    Fails (.text (x :: xs)) rest := by
  rintro c rfl
  exact answer_text_eq_fail h

theorem seq {a : Expr Rule} {rest : List Char} (h : Fails a rest) (b : Expr Rule) :
    Fails (.seq a b) rest := by
  intro c hc
  rw [Grammar.answer_seq, h c hc, Reply.resume_fail]

theorem oneOf {a : Expr Rule} {es : List (Expr Rule)} {rest : List Char}
    (h : ∀ d ∈ a :: es, Fails d rest) : Fails (.oneOf a es) rest := by
  intro c hc
  exact answer_oneOf_eq_fail_iff.mpr fun d hd => h d hd c hc

theorem rule {r : Rule} {rest : List Char} (hloose : (Rule.production r).tight = false)
    (h : Fails (Rule.production r).body rest) : Fails (.rule r) rest := by
  intro c hc
  have hloose' : (grammar.production r).tight = false := hloose
  rw [Grammar.answer_rule_loose, hloose']
  exact congrArg (Reply.close r (Rule.production r).leavesPair c.offset) (h c hc)

theorem kw {k : Keyword} {w rest : List Char} (hw : ∀ c ∈ w, isWordChar c = true)
    (hrest : ∀ c ∈ rest.head?, isWordChar c = false) (hne : w ≠ k.spelling) :
    Fails (.rule (.kw k)) (w ++ rest) := by
  rintro ⟨_, offset⟩ rfl
  have hword := answer_word k hw hrest offset
  rw [if_neg hne] at hword
  rw [Grammar.answer_rule_loose]
  exact congrArg (Reply.close (Rule.kw k) true offset) hword

theorem kw_of_head {k : Keyword} {rest : List Char}
    (hrest : ∀ c ∈ rest.head?, isWordChar c = false) : Fails (.rule (.kw k)) rest := by
  refine kw (w := []) nofun hrest ?_
  cases k <;> exact nofun

theorem ident_of_reserved {w rest : List Char} (hw : ∀ c ∈ w, isWordChar c = true)
    (hrest : ∀ c ∈ rest.head?, isWordChar c = false) (h : IsReserved w) :
    Fails (.rule .ident) (w ++ rest) := by
  rintro ⟨_, offset⟩ rfl
  have hbody : grammar.answer true Rule.identBody ⟨w ++ rest, offset⟩ = .fail := by
    rw [Rule.identBody, Expr.inOrder_cons, Grammar.answer_seq_tight, Grammar.answer_neg,
      answer_keyword_of_reserved hw hrest offset h]
    rfl
  rw [Grammar.answer_rule_loose]
  exact congrArg (Reply.close Rule.ident true offset) hbody

end Fails

/-- In front of `rest` the expression reads `text`, and those of its pairs that are to stay have the
property. -/
def Scans (source : Source) (e : Expr Rule) (text rest : List Char)
    (P : List (Pair Rule) → Prop) : Prop :=
  ∀ c : Cursor, c.In source → c.rest = text ++ rest →
    ∃ ps c', grammar.answer false e c = .ok ps c' ∧ c'.rest = rest ∧ P (pruneAll ps)

theorem pruneAll_append (ps qs : List (Pair Rule)) :
    pruneAll (ps ++ qs) = pruneAll ps ++ pruneAll qs := by
  simp only [pruneAll_eq_filterMap, List.filterMap_append]

theorem Peg.Cursor.In.answer {source : Source} {tight : Bool} {e : Expr Rule} {c c' : Cursor}
    {ps : List (Pair Rule)} (h : c.In source) (hmatch : grammar.answer tight e c = .ok ps c') :
    c'.In source := by
  obtain ⟨s, hs⟩ := Grammar.answer_reads hmatch
  exact h.reads hs

namespace Scans

variable {source : Source} {a b : Expr Rule} {s t rest : List Char}
variable {P Q R : List (Pair Rule) → Prop}

theorem mono (h : Scans source a s rest P) (hPQ : ∀ qs, P qs → Q qs) :
    Scans source a s rest Q := by
  intro c hin hc
  obtain ⟨ps, c', hmatch, hrest, hps⟩ := h c hin hc
  exact ⟨ps, c', hmatch, hrest, hPQ _ hps⟩

theorem text (chars rest : List Char) :
    Scans source (.text chars) chars rest fun qs => qs = [] := by
  rintro ⟨_, offset⟩ - rfl
  refine ⟨[], ⟨rest, offset + Source.byteLength chars⟩, ?_, rfl, rfl⟩
  rw [Grammar.answer_text, Cursor.text?_eq_some_iff.mpr (Cursor.reads_append chars rest offset)]
  rfl

theorem seq_gap {g : List Char} (ha : Scans source a s (g ++ (t ++ rest)) P)
    (hgap : Skips g (t ++ rest)) (hb : Scans source b t rest Q)
    (hR : ∀ ps qs, P ps → Q qs → R (ps ++ qs)) :
    Scans source (.seq a b) (s ++ (g ++ t)) rest R := by
  intro c hin hc
  obtain ⟨ps, c₁, hfirst, hrest₁, hps⟩ := ha c hin (by rw [hc]; simp only [List.append_assoc])
  obtain ⟨c₂, hskip, hrest₂⟩ := hgap c₁ hrest₁
  obtain ⟨qs, c₃, hsecond, hrest₃, hqs⟩ := hb c₂ ((hin.answer hfirst).answer hskip) hrest₂
  refine ⟨ps ++ qs, c₃, ?_, hrest₃, ?_⟩
  · have hskip' : grammar.answer true grammar.filler c₁ = .ok [] c₂ := hskip
    rw [Grammar.answer_seq, hfirst, Reply.resume_ok, Grammar.skip_loose, hskip', Reply.resume_ok,
      hsecond, Reply.prepend_ok]
  · rw [pruneAll_append]
    exact hR _ _ hps hqs

theorem seq (ha : Scans source a s (t ++ rest) P) (hsolid : IsSolid (t ++ rest))
    (hb : Scans source b t rest Q) (hR : ∀ ps qs, P ps → Q qs → R (ps ++ qs)) :
    Scans source (.seq a b) (s ++ t) rest R :=
  seq_gap (g := []) ha (skips_nil hsolid) hb hR

theorem seq_gap_right {g : List Char}
    (ha : Scans source a s (g ++ (t ++ rest)) fun qs => qs = []) (hgap : Skips g (t ++ rest))
    (hb : Scans source b t rest Q) : Scans source (.seq a b) (s ++ (g ++ t)) rest Q := by
  refine seq_gap ha hgap hb ?_
  rintro ps qs rfl hqs
  exact hqs

theorem seq_right (ha : Scans source a s (t ++ rest) fun qs => qs = [])
    (hsolid : IsSolid (t ++ rest)) (hb : Scans source b t rest Q) :
    Scans source (.seq a b) (s ++ t) rest Q :=
  seq_gap_right (g := []) ha (skips_nil hsolid) hb

theorem seq_left (ha : Scans source a s (t ++ rest) P) (hsolid : IsSolid (t ++ rest))
    (hb : Scans source b t rest fun qs => qs = []) :
    Scans source (.seq a b) (s ++ t) rest P := by
  refine seq ha hsolid hb ?_
  rintro ps qs hps rfl
  rw [List.append_nil]
  exact hps

/-- The second part reads nothing; the filler in front of it is read all the same. -/
theorem seq_filler {g : List Char} (ha : Scans source a s (g ++ rest) P) (hgap : Skips g rest)
    (hb : Scans source b [] rest fun qs => qs = []) : Scans source (.seq a b) (s ++ g) rest P := by
  have hseq := ha.seq_gap (t := []) (R := P) hgap hb ?_
  · rw [List.append_nil] at hseq
    exact hseq
  · rintro ps qs hps rfl
    rw [List.append_nil]
    exact hps

theorem alt_left (ha : Scans source a s rest P) (b : Expr Rule) :
    Scans source (.alt a b) s rest P := by
  intro c hin hc
  obtain ⟨ps, c', hmatch, hrest, hps⟩ := ha c hin hc
  refine ⟨ps, c', ?_, hrest, hps⟩
  rw [Grammar.answer_alt, hmatch, Reply.resume_ok]

theorem alt_right (ha : Fails a (s ++ rest)) (hb : Scans source b s rest P) :
    Scans source (.alt a b) s rest P := by
  intro c hin hc
  obtain ⟨ps, c', hmatch, hrest, hps⟩ := hb c hin hc
  refine ⟨ps, c', ?_, hrest, hps⟩
  rw [Grammar.answer_alt, ha c hc, Reply.resume_fail, hmatch]

theorem oneOf {es : List (Expr Rule)} {d : Expr Rule} (hd : d ∈ a :: es)
    (h : Scans source d s rest P) (hothers : ∀ e ∈ a :: es, e ≠ d → Fails e (s ++ rest)) :
    Scans source (.oneOf a es) s rest P := by
  induction es generalizing a with
  | nil =>
      cases List.mem_singleton.mp hd
      exact h
  | cons b es ih =>
      by_cases had : a = d
      · rw [had]
        exact h.alt_left _
      · rw [List.forall_mem_cons] at hothers
        have hmem := (List.mem_cons.mp hd).resolve_left fun hda => had hda.symm
        exact .alt_right (hothers.1 had) (ih hmem hothers.2)

theorem opt_some (ha : Scans source a s rest P) : Scans source (.opt a) s rest P := by
  intro c hin hc
  obtain ⟨ps, c', hmatch, hrest, hps⟩ := ha c hin hc
  refine ⟨ps, c', ?_, hrest, hps⟩
  rw [Grammar.answer_opt, hmatch, Reply.resume_ok]

theorem opt_none (ha : Fails a rest) : Scans source (.opt a) [] rest fun qs => qs = [] := by
  intro c _ hc
  refine ⟨[], c, ?_, hc, rfl⟩
  rw [Grammar.answer_opt, ha c hc, Reply.resume_fail]

theorem star_nil (ha : Fails a rest) : Scans source (.star a) [] rest fun qs => qs = [] := by
  intro c _ hc
  refine ⟨[], c, ?_, hc, rfl⟩
  rw [Grammar.answer_star, ha c hc, Reply.resume_fail]

theorem more_of_star (h : Scans source (.star a) s rest P) (hfirm : IsFirm (s ++ rest)) :
    Scans source (.more a) s rest P := by
  intro c hin hc
  have hskip : grammar.answer true grammar.filler c = .ok [] c :=
    answer_filler_firm (by rw [hc]; exact hfirm)
  rw [Grammar.answer_more, Grammar.skip_loose, hskip, Reply.resume_ok, ← Grammar.answer_star]
  exact h c hin hc

theorem more_nil {g : List Char} (hgap : Skips g rest) (ha : Fails a rest) :
    Scans source (.more a) [] (g ++ rest) fun qs => qs = [] := by
  intro c _ hc
  obtain ⟨c₁, hskip, hrest⟩ := hgap c hc
  have hskip' : grammar.answer true grammar.filler c = .ok [] c₁ := hskip
  refine ⟨[], c, ?_, hc, rfl⟩
  rw [Grammar.answer_more, Grammar.skip_loose, hskip', Reply.resume_ok, ha c₁ hrest,
    Reply.resume_fail]

theorem more_cons {g : List Char} (hgap : Skips g (s ++ (t ++ rest)))
    (ha : Scans source a s (t ++ rest) P) (hb : Scans source (.more a) t rest Q)
    (hR : ∀ ps qs, P ps → Q qs → R (ps ++ qs)) :
    Scans source (.more a) (g ++ (s ++ t)) rest R := by
  intro c hin hc
  obtain ⟨c₁, hskip, hrest₁⟩ := hgap c (by rw [hc]; simp only [List.append_assoc])
  have hin₁ := hin.answer hskip
  obtain ⟨ps, c₂, hfirst, hrest₂, hps⟩ := ha c₁ hin₁ hrest₁
  obtain ⟨qs, c₃, hmore, hrest₃, hqs⟩ := hb c₂ (hin₁.answer hfirst) hrest₂
  have hskip' : grammar.answer true grammar.filler c = .ok [] c₁ := hskip
  refine ⟨ps ++ qs, c₃, ?_, hrest₃, ?_⟩
  · rw [Grammar.answer_more, Grammar.skip_loose, hskip', Reply.resume_ok, hfirst,
      Reply.resume_ok, hmore, Reply.prepend_ok]
  · rw [pruneAll_append]
    exact hR _ _ hps hqs

theorem star_more (ha : Scans source a s (t ++ rest) P) (hb : Scans source (.more a) t rest Q)
    (hR : ∀ ps qs, P ps → Q qs → R (ps ++ qs)) : Scans source (.star a) (s ++ t) rest R := by
  intro c hin hc
  obtain ⟨ps, c₁, hfirst, hrest₁, hps⟩ := ha c hin (by rw [hc, List.append_assoc])
  obtain ⟨qs, c₂, hmore, hrest₂, hqs⟩ := hb c₁ (hin.answer hfirst) hrest₁
  refine ⟨ps ++ qs, c₂, ?_, hrest₂, ?_⟩
  · rw [Grammar.answer_star, hfirst, Reply.resume_ok, hmore, Reply.prepend_ok]
  · rw [pruneAll_append]
    exact hR _ _ hps hqs

theorem star_cons (ha : Scans source a s (t ++ rest) P) (hsolid : IsSolid (t ++ rest))
    (hb : Scans source (.star a) t rest Q) (hR : ∀ ps qs, P ps → Q qs → R (ps ++ qs)) :
    Scans source (.star a) (s ++ t) rest R :=
  star_more ha (hb.more_of_star hsolid.isFirm) hR

theorem silent {r : Rule} (hr : Rule.production r = .silent a) (h : Scans source a s rest P) :
    Scans source (.rule r) s rest P := by
  intro c hin hc
  obtain ⟨ps, c', hmatch, hrest, hps⟩ := h c hin hc
  have hr' : grammar.production r = .silent a := hr
  refine ⟨ps, c', ?_, hrest, hps⟩
  rw [Grammar.answer_rule_loose, hr']
  exact congrArg (Reply.close r false c.offset) hmatch

theorem plain {r : Rule} (hr : Rule.production r = .plain a) (h : Scans source a s rest P) :
    Scans source (.rule r) s rest fun qs => ∃ start stop kept, P kept ∧
      qs = (r.selection.apply r start stop kept).toList := by
  intro c hin hc
  obtain ⟨ps, c', hmatch, hrest, hps⟩ := h c hin hc
  have hr' : grammar.production r = .plain a := hr
  refine ⟨[.node r c.offset c'.offset ps], c', ?_, hrest, c.offset, c'.offset, pruneAll ps, hps, ?_⟩
  · rw [Grammar.answer_rule_loose, hr']
    exact congrArg (Reply.close r true c.offset) hmatch
  · rw [pruneAll, prune]
    cases r.selection.apply r c.offset c'.offset (pruneAll ps) <;> rfl

end Scans

/-- A node with the name and without children. -/
structure Node.IsLeaf (source : Source) (name : String) (n : Node) : Prop where
  children : n.children = []
  name : n.name source = name

theorem Node.IsLeaf.size {source : Source} {name : String} {n : Node} (h : n.IsLeaf source name) :
    n.size = 1 := by
  rw [size_eq, h.children]
  rfl

/-- One pair of the rule is to stay, and every node made of it has the property. -/
def Becomes (source : Source) (r : Rule) (Q : Node → Prop) (qs : List (Pair Rule)) : Prop :=
  ∃ q, qs = [q] ∧ q.rule = r ∧ ∀ next, Q (.ofPair source next q)

namespace Scans

variable {source : Source} {a : Expr Rule} {s rest : List Char} {r : Rule}

theorem store {P : List (Pair Rule) → Prop} {Q : Node → Prop} (hr : Rule.production r = .plain a)
    (hstore : r.selection = .store) (h : Scans source a s rest P)
    (hQ : ∀ n : Node, n.rule = r → ∀ qs, P qs → ∀ next,
      n.children = (Node.ofPairs source next qs).1 → Q n) :
    Scans source (.rule r) s rest (Becomes source r Q) := by
  refine (plain hr h).mono ?_
  rintro qs ⟨start, stop, kept, hkept, rfl⟩
  rw [hstore]
  refine ⟨.node r start stop kept, rfl, rfl, fun next => ?_⟩
  exact hQ _ (Node.rule_ofPair ..) kept hkept next (Node.children_ofPair ..)

theorem fold_only {Q : Pair Rule → Prop} (hr : Rule.production r = .plain a)
    (hfold : r.selection = .fold) (h : Scans source a s rest fun qs => ∃ q, qs = [q] ∧ Q q) :
    Scans source (.rule r) s rest fun qs => ∃ q, qs = [q] ∧ Q q := by
  refine (plain hr h).mono ?_
  rintro qs ⟨start, stop, kept, ⟨q, rfl, hq⟩, rfl⟩
  rw [hfold]
  exact ⟨q, rfl, hq⟩

theorem fold_many {P : List (Pair Rule) → Prop} (hr : Rule.production r = .plain a)
    (hfold : r.selection = .fold) (h : Scans source a s rest P)
    (hmany : ∀ qs, P qs → 2 ≤ qs.length) :
    Scans source (.rule r) s rest fun qs => ∃ start stop kept, P kept ∧
      qs = [.node r start stop kept] := by
  refine (plain hr h).mono ?_
  rintro qs ⟨start, stop, kept, hkept, rfl⟩
  refine ⟨start, stop, kept, hkept, ?_⟩
  rw [hfold]
  match kept, hmany kept hkept with
  | _ :: _ :: _, _ => rfl

theorem fold {r' : Rule} {Q : Node → Prop} (hr : Rule.production r = .plain a)
    (hfold : r.selection = .fold) (h : Scans source a s rest (Becomes source r' Q)) :
    Scans source (.rule r) s rest (Becomes source r' Q) :=
  fold_only hr hfold h

theorem token {w : List Char} (hr : Rule.production r = .token a)
    (h : ∀ offset, grammar.answer true a ⟨w ++ rest, offset⟩ =
      .ok [] ⟨rest, offset + Source.byteLength w⟩) :
    Scans source (.rule r) w rest fun qs => ∃ start stop, source.slice start stop = w ∧
      qs = (r.selection.apply r start stop []).toList := by
  rintro ⟨_, offset⟩ hin rfl
  have hr' : grammar.production r = .token a := hr
  let c' : Cursor := ⟨rest, offset + Source.byteLength w⟩
  refine ⟨[.node r offset c'.offset []], c', ?_, rfl, offset, c'.offset, ?_, ?_⟩
  · rw [Grammar.answer_rule_loose, hr']
    exact congrArg (Reply.close r true offset) (h offset)
  · exact hin.slice_eq (Cursor.reads_append w rest offset)
  · rw [pruneAll, prune, pruneAll_nil]
    cases r.selection.apply r offset c'.offset [] <;> rfl

theorem name {w : List Char} (hr : Rule.production r = .token a) (hstore : r.selection = .store)
    (h : ∀ offset, grammar.answer true a ⟨w ++ rest, offset⟩ =
      .ok [] ⟨rest, offset + Source.byteLength w⟩) :
    Scans source (.rule r) w rest (Becomes source r (Node.IsLeaf source (String.ofList w))) := by
  refine (token hr h).mono ?_
  rintro qs ⟨start, stop, hslice, rfl⟩
  rw [hstore]
  exact ⟨.node r start stop [], rfl, rfl, fun next => ⟨rfl, congrArg String.ofList hslice⟩⟩

theorem ident {w : List Char} (hw : IsIdentifier w)
    (hrest : ∀ c ∈ rest.head?, isWordChar c = false) :
    Scans source (.rule .ident) w rest
      (Becomes source .ident (Node.IsLeaf source (String.ofList w))) := by
  refine name rfl rfl fun offset => ?_
  obtain ⟨y, ys, rfl, hy⟩ := hw.start
  have hfree := (answer_keyword_eq_fail_iff hw.word hrest offset).mpr hw.free
  have hstop : Cursor.StopsAt ⟨rest, offset + Source.byteLength (y :: ys)⟩ isWordChar := by
    rintro z zs rfl
    exact hrest z rfl
  have hys : ∀ z ∈ ys, isWordChar z = true := (List.forall_mem_cons.mp hw.word).2
  have htakes : grammar.Takes Rule.identBody ⟨y :: ys ++ rest, offset⟩ (y :: ys)
      ⟨rest, offset + Source.byteLength (y :: ys)⟩ := by
    refine Grammar.takes_seq.mpr ⟨[], _, _, rfl, Grammar.takes_neg.mpr ⟨hfree, rfl, rfl⟩, ?_⟩
    refine Grammar.takes_seq.mpr ⟨[y], ⟨ys ++ rest, offset + y.utf8Size⟩, ys, rfl, ?_, ?_⟩
    · exact isClass_wordStart.takes.mpr ⟨y, hy, rfl, rfl, rfl⟩
    · refine isClass_identChar.takes_star.mpr ⟨hys, ⟨rfl, ?_⟩, hstop⟩
      simp only [Source.byteLength_cons, Nat.add_assoc]
  exact htakes.1

theorem answer_wordBody (k : Keyword) (hrest : ∀ c ∈ rest.head?, isWordChar c = false)
    (offset : Nat) :
    grammar.answer true (Rule.wordBody k.spelling) ⟨k.spelling ++ rest, offset⟩ =
      .ok [] ⟨rest, offset + Source.byteLength k.spelling⟩ :=
  (answer_word k (spelling_isWord k) hrest offset).trans (if_pos rfl)

theorem kw {k : Keyword} (hstore : k.selection = .store)
    (hrest : ∀ c ∈ rest.head?, isWordChar c = false) :
    Scans source (.rule (.kw k)) k.spelling rest
      (Becomes source (.kw k) (Node.IsLeaf source k.word)) :=
  name rfl hstore (answer_wordBody k hrest)

theorem kw_discarded {k : Keyword} (hdiscard : k.selection = .discard)
    (hrest : ∀ c ∈ rest.head?, isWordChar c = false) :
    Scans source (.rule (.kw k)) k.spelling rest fun qs => qs = [] := by
  refine (token rfl (answer_wordBody k hrest)).mono ?_
  rintro qs ⟨start, stop, -, rfl⟩
  have hselection : (Rule.kw k).selection = .discard := hdiscard
  rw [hselection]
  rfl

end Scans

end XiFront

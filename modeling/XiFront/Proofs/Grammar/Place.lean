import XiFront.Proofs.Grammar.Crossing

namespace XiFront

open Peg

theorem Lead.sign_of_ofText? {z y : Char} {t : List Char}
    (h : Lead.ofText? (z :: t) = some (.sign y)) :
    z = y := by
  rw [Lead.ofText?] at h
  split at h
  · split at h <;> cases h
  · split at h <;> cases h
    rfl

theorem exists_sign_of_closer {l : Lead} (hl : l ∈ closers) :
    ∃ z, l = .sign z ∧ isWordChar z = false := by
  simp only [closers, List.mem_cons, List.not_mem_nil, or_false] at hl
  rcases hl with rfl | rfl | rfl | rfl | rfl | rfl <;> exact ⟨_, rfl, by decide⟩

/-- Pieces stay what they are in front of another text, as far as they go. -/
theorem Pieces.carry {σ : Type} {k : Tally σ} {s t t' : List Char} {i : σ} {p : List Char × σ}
    (h : Pieces k (s ++ t, i) p) (hs : Cut t s) (hsafe : SlashSafe t t')
    (hle : p.1.length ≤ t.length) :
    ∃ j, Pieces k (t, j) p ∧ Pieces k (s ++ t', i) (t', j) := by
  induction hs generalizing i with
  | nil => exact ⟨i, h, .refl _⟩
  | plain hz _ ih =>
      obtain ⟨⟨u, j⟩, hfirst, hrest⟩ := h.exists_first nofun hle
      obtain ⟨rfl, hj⟩ := hfirst.of_plain hz
      obtain ⟨j', hold, hnew⟩ := ih hrest
      exact ⟨j', hold, .trans (.step (.sign hz hj)) hnew⟩
  | @slash w hnext _ ih =>
      obtain ⟨p', hfirst, hrest⟩ := h.exists_first nofun hle
      obtain rfl := hfirst.of_slash (.slash hnext)
      obtain ⟨j', hold, hnew⟩ := ih hrest
      refine ⟨j', hold, .trans (.step (.slash fun z hz => ?_)) hnew⟩
      cases w with
      | cons y w => exact hnext z hz
      | nil =>
          obtain ⟨hstar, hslash⟩ := hsafe z hz
          exact ⟨fun h => (hnext '/' (hslash h)).1 rfl, hstar⟩
  | literal hr hs _ ih =>
      obtain ⟨p', hfirst, hrest⟩ := h.exists_first nofun hle
      rw [List.cons_append, List.append_assoc] at hfirst
      obtain rfl := hfirst.of_literal hr hs
      obtain ⟨j', hold, hnew⟩ := ih hrest
      refine ⟨j', hold, .trans (.step ?_) hnew⟩
      rw [List.cons_append, List.append_assoc]
      exact .literal hr hs
  | @gap a w ha hw hgap h' ih =>
      obtain ⟨p', hfirst, hrest⟩ := h.exists_first (by simp [ha]) hle
      rw [List.append_assoc] at hfirst
      obtain rfl := hfirst.of_gap ha hgap
      obtain ⟨j', hold, hnew⟩ := ih hrest
      refine ⟨j', hold, .trans (.step ?_) hnew⟩
      rw [List.append_assoc]
      refine .gap ha (hgap.congr (h'.firm hw hgap.firm hsafe) ?_)
      obtain ⟨z, w, rfl⟩ := List.exists_cons_of_ne_nil hw
      rfl

namespace Fork

theorem carry {f : Fork} {σ : Type} {k : Tally σ} {w : List Char} {i j : σ}
    (h : Pieces k (w ++ f.old, i) (f.next, j)) (hw : f.pieces w) :
    Pieces k (w ++ f.new, i) (f.next', j) := by
  obtain ⟨m, hm, hnew⟩ := h.carry (f.cut hw) f.slashSafe (by simp [old])
  obtain rfl := hm.state_unique (.of_gap f.skipped m)
  exact hnew.trans (.of_gap f.skipped' j)

end Fork

/-- The match of the expression leaves nothing but the nodes, once rules that only pass on what they
match are left out. -/
def Wraps (a : Expr Rule) (c : Cursor) (qs : List (Pair Rule)) (d : Cursor) : Prop :=
  ∃ ps, Derives a c ps d ∧ pruneAll ps = qs

namespace Wraps

variable {a b : Expr Rule} {c d n : Cursor} {qs : List (Pair Rule)} {q : Pair Rule}

theorem fold {r : Rule} (hloose : (Rule.production r).tight = false)
    (hpair : (Rule.production r).leavesPair = true) (hfold : r.selection = .fold)
    (h : Wraps (Rule.production r).body c [q] d) : Wraps (.rule r) c [q] d := by
  obtain ⟨ps, hps, hq⟩ := h
  refine ⟨_, .rule hloose hps, ?_⟩
  rw [if_pos hpair, pruneAll_cons, prune, hfold, hq]
  rfl

theorem first (h : Wraps a c qs d) : Wraps (.alt a b) c qs d := by
  obtain ⟨ps, hps, hqs⟩ := h
  exact ⟨ps, .first hps, hqs⟩

theorem second (hfail : FailsAt a c) (h : Wraps b c qs d) : Wraps (.alt a b) c qs d := by
  obtain ⟨ps, hps, hqs⟩ := h
  exact ⟨ps, .second hfail hps, hqs⟩

theorem star (h : Wraps a c qs d) (hskip : grammar.answer true filler d = .ok [] n)
    (hfail : FailsAt b n) : Wraps (.seq a (.star b)) c qs n := by
  obtain ⟨ps, hps, hqs⟩ := h
  exact ⟨ps ++ [], .seq hps hskip (.done hfail), by rw [List.append_nil, hqs]⟩

theorem opt (h : Wraps a c qs d) (hskip : grammar.answer true filler d = .ok [] n)
    (hfail : FailsAt b n) : Wraps (.seq a (.opt b)) c qs n := by
  obtain ⟨ps, hps, hqs⟩ := h
  exact ⟨ps ++ [], .seq hps hskip (.none hfail), by rw [List.append_nil, hqs]⟩

theorem after_star (hfail : FailsAt a c) (hskip : grammar.answer true filler c = .ok [] n)
    (h : Wraps b n qs d) : Wraps (.seq (.star a) b) c qs d := by
  obtain ⟨ps, hps, hqs⟩ := h
  exact ⟨[] ++ ps, .seq (.done hfail) hskip hps, hqs⟩

end Wraps

theorem exists_of_fold {r : Rule} {c d : Cursor} {ps : List (Pair Rule)}
    (h : Derives (.rule r) c ps d)
    (hloose : (Rule.production r).tight = false) (hpair : (Rule.production r).leavesPair = true)
    (hfold : r.selection = .fold) : ∃ q, pruneAll ps = [q] := by
  cases h with
  | token htight _ => exact nomatch hloose.symm.trans htight
  | @rule _ _ _ cs _ _ =>
      rw [if_pos hpair, pruneAll_cons, prune, hfold]
      cases hkept : pruneAll cs with
      | nil => exact ⟨_, rfl⟩
      | cons q qs => cases qs <;> exact ⟨_, rfl⟩

/-- An expression in a text: the pieces in front of it and the filler behind them, its own pieces,
and the filler behind these, up to where the match ends and beyond. -/
structure Place where
  before : List Char
  gap : List Char
  inside : List Char
  last : List Char
  ahead : List Char
  behind : List Char
  pairs : List (Pair Rule)
  cut_before : Cut (gap ++ (inside ++ ((last ++ ahead) ++ behind))) before
  skipped : IsGap gap (inside ++ ((last ++ ahead) ++ behind))
  parted : Parted before (gap ++ (inside ++ ((last ++ ahead) ++ behind)))
  cut_inside : Cut ((last ++ ahead) ++ behind) inside
  skipped_last : last = [] ∨ IsGap last (ahead ++ behind)
  skipped_ahead : IsGap ahead behind
  closed : ∃ l ∈ closers, Lead.ofText? behind = some l
  derives : Derives (.rule .expr)
    ⟨inside ++ ((last ++ ahead) ++ behind), Source.byteLength (before ++ gap)⟩ pairs
    ⟨ahead ++ behind, Source.byteLength (before ++ gap) + Source.byteLength (inside ++ last)⟩

namespace Place

variable (e : Place)

def source : Source :=
  e.before ++ (e.gap ++ (e.inside ++ ((e.last ++ e.ahead) ++ e.behind)))

def source' : Source :=
  e.before ++ (e.gap ++ ('(' :: (e.inside ++ (e.last ++ (')' :: (e.ahead ++ e.behind))))))

def start : Cursor :=
  ⟨e.inside ++ ((e.last ++ e.ahead) ++ e.behind), Source.byteLength (e.before ++ e.gap)⟩

def stop : Cursor :=
  ⟨e.ahead ++ e.behind,
    Source.byteLength (e.before ++ e.gap) + Source.byteLength (e.inside ++ e.last)⟩

def opening : Cursor :=
  ⟨'(' :: (e.inside ++ (e.last ++ (')' :: (e.ahead ++ e.behind)))),
    Source.byteLength (e.before ++ e.gap)⟩

def start' : Cursor :=
  ⟨e.inside ++ (e.last ++ (')' :: (e.ahead ++ e.behind))),
    Source.byteLength (e.before ++ e.gap) + Source.byteLength ['(']⟩

variable {e}

theorem firm_close (t : List Char) : IsFirm (')' :: t) :=
  .cons rfl (by decide)

theorem firm_open (t : List Char) : IsFirm ('(' :: t) :=
  .cons rfl (by decide)

theorem skipped_behind : IsGap (e.last ++ e.ahead) e.behind := by
  rcases e.skipped_last with hlast | hlast
  · rw [hlast]
    exact e.skipped_ahead
  · have hahead : e.ahead = [] := by
      by_contra hne
      exact e.skipped_ahead.not_firm hne hlast.firm
    rw [hahead, List.append_nil]
    rw [hahead] at hlast
    exact hlast

theorem behind_ne_nil : e.behind ≠ [] := by
  obtain ⟨l, -, hlead⟩ := e.closed
  intro hnil
  rw [hnil] at hlead
  exact nomatch hlead

theorem start_ne_nil : e.start.rest ≠ [] := by
  intro hnil
  exact e.behind_ne_nil (List.append_eq_nil_iff.mp (List.append_eq_nil_iff.mp hnil).2).2

theorem parted_behind (w : List Char) : Parted w ((e.last ++ e.ahead) ++ e.behind) := by
  refine .of_head fun z hz => ?_
  cases hgap : e.last ++ e.ahead with
  | cons y t =>
      rw [hgap] at hz
      cases Option.some.inj hz
      exact not_isWordChar_of_opensFiller (e.skipped_behind.opensFiller z (by rw [hgap]; rfl))
  | nil =>
      rw [hgap, List.nil_append] at hz
      obtain ⟨t, ht⟩ := List.head?_eq_some_iff.mp hz
      obtain ⟨l, hl, hlead⟩ := e.closed
      rw [ht] at hlead
      obtain ⟨y, rfl, hy⟩ := exists_sign_of_closer hl
      rw [Lead.sign_of_ofText? hlead, hy]

theorem skipped_close : IsGap e.last (')' :: (e.ahead ++ e.behind)) := by
  rcases e.skipped_last with hnil | hgap
  · rw [hnil]
    exact .stop (firm_close _)
  · refine hgap.of_firm (fun hnil => ?_) (firm_close _)
    exact e.behind_ne_nil (List.append_eq_nil_iff.mp hnil).2

theorem slashSafe_of_gap {a a' r r' : List Char} {z : Char} (ha : IsGap a' r')
    (hhead : ∀ y ∈ a'.head?, y ∈ a.head?) (hr' : r'.head? = some z) (hz : z ≠ '*' ∧ z ≠ '/') :
    SlashSafe (a ++ r) (a' ++ r') := by
  intro y hy
  cases a' with
  | nil =>
      rw [List.nil_append, hr'] at hy
      cases Option.some.inj hy
      exact ⟨hz.1, fun hslash => absurd hslash hz.2⟩
  | cons x t =>
      cases Option.some.inj hy
      have hopens := ha.opensFiller y rfl
      obtain ⟨v, rfl⟩ := List.head?_eq_some_iff.mp (hhead y rfl)
      refine ⟨?_, fun hslash => hslash ▸ rfl⟩
      rintro rfl
      exact nomatch hopens

theorem close_longer :
    Source.byteLength e.behind < Source.byteLength (')' :: (e.ahead ++ e.behind)) := by
  have hpos := (')' : Char).utf8Size_pos
  simp only [Source.byteLength_cons, Source.byteLength_append]
  omega

theorem opening_longer : Source.byteLength e.start.rest < Source.byteLength e.opening.rest := by
  have hpos := (')' : Char).utf8Size_pos
  simp only [start, opening, Source.byteLength_cons, Source.byteLength_append]
  omega

theorem nested_of_append {s w : List Char}
    (h : ∃ i, Pieces .brackets ((s ++ w) ++ ((e.last ++ e.ahead) ++ e.behind), i) (e.behind, 0))
    (htrail : Trail (w ++ ((e.last ++ e.ahead) ++ e.behind)) s) :
    ∃ i, Pieces .brackets (w ++ ((e.last ++ e.ahead) ++ e.behind), i) (e.behind, 0) := by
  obtain ⟨i, hpath⟩ := h
  rw [List.append_assoc] at hpath
  exact hpath.of_trail htrail (by simp only [List.length_append]; omega)

/-- The texts as they part at the closing parenthesis. -/
def inner (e : Place) : Fork where
  source := e.source
  source' := e.source'
  gap := e.last ++ e.ahead
  next := e.behind
  gap' := e.last
  next' := ')' :: (e.ahead ++ e.behind)
  pieces w := Cut ((e.last ++ e.ahead) ++ e.behind) w ∧
    ∃ i, Pieces .brackets (w ++ ((e.last ++ e.ahead) ++ e.behind), i) (e.behind, 0)
  skipped := e.skipped_behind
  skipped' := e.skipped_close
  slashSafe := slashSafe_of_gap e.skipped_close (fun y hy => List.mem_head?_append_of_mem_head? hy)
    rfl
    (by decide)
  next_ne := e.behind_ne_nil
  paren := ⟨')', rfl, .inr rfl⟩
  longer := e.close_longer
  cut := And.left
  parted _ := e.parted_behind _
  rest h htrail hcut := ⟨hcut, e.nested_of_append h.2 htrail⟩

/-- The texts as they part at the opening parenthesis. -/
def outer (e : Place) : Fork where
  source := e.source
  source' := e.source'
  gap := e.gap
  next := e.start.rest
  gap' := e.gap
  next' := e.opening.rest
  pieces w := Cut (e.gap ++ e.start.rest) w ∧ Parted w (e.gap ++ e.start.rest)
  skipped := e.skipped
  skipped' := e.skipped.of_firm e.start_ne_nil (firm_open _)
  slashSafe := slashSafe_of_gap (e.skipped.of_firm e.start_ne_nil (firm_open _))
    (fun _ hy => hy) rfl
    (by decide)
  next_ne := e.start_ne_nil
  paren := ⟨'(', rfl, .inl rfl⟩
  longer := e.opening_longer
  cut := And.left
  parted := And.right
  rest h _ hcut := ⟨hcut, h.2.of_append⟩

theorem start_in : e.start.In e.source :=
  ⟨e.before ++ e.gap, (List.append_assoc ..).symm, (Nat.zero_add _).symm⟩

theorem opening_in : e.opening.In e.source' :=
  ⟨e.before ++ e.gap, (List.append_assoc ..).symm, (Nat.zero_add _).symm⟩

theorem reads_open : e.opening.Reads ['('] e.start' :=
  ⟨rfl, rfl⟩

theorem start'_in : e.start'.In e.source' :=
  e.opening_in.reads e.reads_open

theorem reads_inside : e.start.Reads (e.inside ++ e.last) e.stop :=
  ⟨by simp [start, stop], rfl⟩

theorem inside_ne_nil : e.inside ≠ [] := by
  intro hnil
  obtain ⟨s, hs, hne⟩ := answer_reads_something (e := .rule .expr) rfl e.derives.answer
  have hlast : e.last ≠ [] := by
    intro hlast
    have hempty := e.reads_inside.unique hs
    rw [hnil, hlast] at hempty
    exact hne hempty.symm
  have hfirm := e.skipped.firm
  rw [hnil, List.nil_append, List.append_assoc] at hfirm
  exact (e.skipped_last.resolve_left hlast).not_firm hlast hfirm

theorem pieces_inside : Pieces .brackets (e.start.rest, 0) (e.behind, 0) := by
  have hpath : Pieces .brackets (e.start.rest, 0) (e.stop.rest, 0) :=
    .of_derives e.derives rfl (if_pos (by decide)) e.skipped.firm
  exact hpath.trans (.of_gap e.skipped_ahead 0)

theorem begins_inside : e.inner.Begins e.start e.start' :=
  ⟨e.start_in, e.start'_in, .inl ⟨e.inside, e.inside_ne_nil, e.skipped.firm,
    ⟨e.cut_inside, 0, e.pieces_inside⟩, rfl, rfl⟩⟩

theorem inner_shut {c c' d' : Cursor} (h : e.inner.Begins c c') (hat : ¬e.inner.At c c')
    (htuple : Matches (.rule .tupleType) c' d') : ')' :: d'.rest ≠ e.inner.next' := by
  intro hshut
  obtain ⟨a', k', hopen, hclose, hpath⟩ := pieces_of_tupleType htuple
  obtain ⟨-, -, ⟨w, hne, -, ⟨hcut, i, hw⟩, hc, hc'⟩ | hat' | ⟨hrest, -, hbeyond⟩⟩ := h
  -- One path cannot tell both that no bracket is open there and that the tuple's still is.
  · have hend : Pieces .brackets (w ++ e.inner.new, i) (e.inner.next', 0) :=
      e.inner.carry hw ⟨hcut, i, hw⟩
    have hcross : Pieces .brackets (w ++ e.inner.new, i) (e.inner.next', i + 1) := by
      have hsign : Pieces .brackets (c'.rest, i) (a'.rest, i + 1) := by
        rw [hopen.rest]
        exact .step (.sign rfl rfl)
      have hinside := hpath.add (i + 1)
      rw [hclose.rest, List.singleton_append, hshut, Nat.zero_add] at hinside
      exact hc' ▸ hsign.trans hinside
    exact nomatch hend.state_unique hcross
  · exact hat hat'
  · obtain ⟨s, hs⟩ := htuple.reads
    have hlength := congrArg Source.byteLength hs.rest
    rw [← hrest, (List.cons.inj hshut).2] at hlength
    simp only [Source.byteLength_append] at hlength
    have hshort : Source.byteLength c.rest < Source.byteLength e.behind := hbeyond
    omega

theorem inner_crossing : e.inner.Crossing False where
  enters {c c' d'} _ hat hty := by
    have hclose : c'.Reads [')'] ⟨e.ahead ++ e.behind, c'.offset + Source.byteLength [')']⟩ :=
      ⟨hat.2, rfl⟩
    exact absurd (fails_of_sign List.mem_cons_self hclose) hty.not_fails
  shut h hat htuple := inner_shut h hat htuple
  whole := False.elim

theorem fails_behind {n : Cursor} (hn : n.rest = e.behind) {s : Expr Rule}
    (hs : s ∈ Rule.assigned :: Rule.operandTrials Level.all) : FailsAt s n := by
  have hall : ∀ l ∈ closers, ∀ s ∈ Rule.assigned :: Rule.operandTrials Level.all,
      s.avoids 20 l = true := by
    decide +kernel
  obtain ⟨l, hl, hlead⟩ := e.closed
  exact Fails.of_avoids 20 (hall l hl s hs) e.skipped_ahead.firm hlead n hn

theorem skips_ahead {c : Cursor} (hc : c.rest = e.ahead ++ e.behind) :
    grammar.answer true filler c = .ok [] ⟨e.behind, c.offset + Source.byteLength e.ahead⟩ :=
  (takes_filler.mpr ⟨⟨hc, rfl⟩, e.skipped_ahead⟩).1

theorem exists_inside (e : Place) : ∃ ps' d' n', Derives (.rule .expr) e.start' ps' d' ∧
    grammar.answer true filler d' = .ok [] n' ∧ n'.rest = ')' :: (e.ahead ++ e.behind) ∧
      e.inner.SameNodes e.pairs ps' := by
  have hkept : e.inner.Kept False e.start e.pairs e.stop := by
    refine ⟨e.start_in, .inr (.inl ?_)⟩
    rw [Fork.Beyond, Nat.not_lt]
    change Source.byteLength e.behind ≤ Source.byteLength (e.ahead ++ e.behind)
    rw [Source.byteLength_append]
    exact Nat.le_add_left _ _
  have hclose {n n' : Cursor} (hn : grammar.answer true filler e.stop = .ok [] n)
      (hbegins : e.inner.Begins n n') : n'.rest = ')' :: (e.ahead ++ e.behind) := by
    obtain ⟨-, rfl⟩ := Reply.ok.inj ((skips_ahead rfl).symm.trans hn)
    exact (hbegins.at_of_length rfl).2
  have hcalm : (e.inner.passage e.inner_crossing).Calm (Expr.rule Rule.expr).trials e.stop := by
    intro n n' hn hbegins s hs _
    have hread : n'.Reads [')'] ⟨e.ahead ++ e.behind, n'.offset + Source.byteLength [')']⟩ :=
      ⟨hclose hn hbegins, rfl⟩
    exact fails_of_sign (List.mem_cons_of_mem _ (List.mem_cons_of_mem _ hs)) hread
  obtain ⟨ps', d', hderives, ⟨n, n', hn, hn', hbegins⟩, hsame⟩ :=
    Passage.carried (k := e.inner.passage e.inner_crossing) e.derives rfl e.begins_inside
      hkept hcalm
  exact ⟨ps', d', n', hderives, hn', hclose hn hbegins, hsame⟩

theorem commas_inside : Pieces .commas (e.start.rest, false) (e.behind, false) := by
  obtain ⟨j, hj, hend⟩ := Pieces.commas_of_derives e.derives rfl e.skipped.firm false
  have hlast : j = false := by
    cases j with
    | false => rfl
    | true => exact (hend rfl).elim (fun hopen => nomatch hopen) fun h => nomatch h.2
  subst hlast
  exact hj.trans (.of_gap e.skipped_ahead false)

theorem firm_inside : IsFirm e.start'.rest :=
  e.begins_inside.firm.2

theorem eq_of_closes {t : List Char} (h : Pieces .brackets (e.start'.rest, 0) (')' :: t, 0)) :
    t = e.ahead ++ e.behind := by
  have hend : Pieces .brackets (e.start'.rest, 0) (')' :: (e.ahead ++ e.behind), 0) :=
    e.inner.carry e.pieces_inside ⟨e.cut_inside, 0, e.pieces_inside⟩
  rcases h.total hend with hpath | hpath
  · have heq := Pieces.eq_of_closes hpath (by decide)
    exact (List.cons.inj (Prod.mk.inj heq).1).2.symm
  · have heq := Pieces.eq_of_closes hpath (by decide)
    exact (List.cons.inj (Prod.mk.inj heq).1).2

theorem not_comma_of_types {d n m k l : Cursor} (htypes : Types e.start' d)
    (hskip : grammar.answer true filler d = .ok [] n) (hcomma : n.Reads [','] m)
    (hnext : grammar.answer true filler m = .ok [] k) (hclose : k.Reads [')'] l) : False := by
  have hsign {σ : Type} {t : Tally σ} {i j : σ} (hj : t.sign ',' i = some j) :
      Pieces t (n.rest, i) (m.rest, j) := by
    rw [hcomma.rest]
    exact .step (.sign rfl hj)
  have hbrackets := (htypes.pieces e.firm_inside 0).trans ((Pieces.of_filler hskip 0).trans
    ((hsign (t := .brackets) rfl).trans (.of_filler hnext 0)))
  rw [hclose.rest, List.singleton_append] at hbrackets
  obtain ⟨j, hj⟩ := htypes.commas e.firm_inside false
  have hcommas := hj.trans ((Pieces.of_filler hskip j).trans
    ((hsign (t := .commas) rfl).trans (.of_filler hnext true)))
  rw [hclose.rest, List.singleton_append, eq_of_closes hbrackets] at hcommas
  have hinside : Pieces .commas (e.start'.rest, false) (')' :: (e.ahead ++ e.behind), false) :=
    e.inner.carry e.commas_inside ⟨e.cut_inside, 0, e.pieces_inside⟩
  exact nomatch hcommas.state_unique hinside

theorem types_inside {d n m : Cursor} (htypes : Types e.start' d)
    (hskip : grammar.answer true filler d = .ok [] n) (hclose : n.Reads [')'] m) :
    m.rest = e.ahead ++ e.behind ∧
      ∃ d₁ n₁, Types e.start d₁ ∧ grammar.answer true filler d₁ = .ok [] n₁ ∧
        n₁.rest = e.behind := by
  have hend : n.rest = ')' :: (e.ahead ++ e.behind) := by
    have hpath := (htypes.pieces e.firm_inside 0).trans (Pieces.of_filler hskip 0)
    rw [hclose.rest, List.singleton_append] at hpath ⊢
    rw [eq_of_closes hpath]
  have hat {n₁ n' : Cursor} (hn' : grammar.answer true filler d = .ok [] n')
      (h : e.inner.Begins n₁ n') : n₁.rest = e.behind := by
    obtain ⟨-, rfl⟩ := Reply.ok.inj (hskip.symm.trans hn')
    exact (h.at_of_rest hend).1
  obtain ⟨d₁, hd₁, n₁, n', hn₁, hn', hbegins⟩ :=
    inner_crossing.toDoorway.lists e.start'.rest.length e.begins_inside (Nat.le_refl _) htypes
      fun n₁ n' hn' hbegins s hs => fails_behind (hat hn' hbegins) (by
        simp only [Rule.operandTrials, List.mem_cons, List.mem_append]
        simp [hs])
  exact ⟨(List.cons.inj (hclose.rest.symm.trans hend)).2, d₁, n₁, hd₁, hn₁, hat hn' hbegins⟩

theorem behind_outer {d d' n n' : Cursor} (hn : grammar.answer true filler d = .ok [] n)
    (hn' : grammar.answer true filler d' = .ok [] n') (hin : d.In e.source) (hin' : d'.In e.source')
    (hrest : n.rest = e.behind) (hrest' : n'.rest = e.behind) : Behind e.outer.Begins d d' := by
  obtain ⟨s, hs⟩ := Grammar.answer_reads hn
  obtain ⟨s', hs'⟩ := Grammar.answer_reads hn'
  refine ⟨n, n', hn, hn', hin.reads hs, hin'.reads hs',
    .inr (.inr ⟨hrest.trans hrest'.symm, ?_, ?_⟩)⟩
  · rw [hrest]
    exact e.skipped_ahead.firm
  · have hpos : 0 < Source.byteLength e.inside :=
      Nat.pos_of_ne_zero fun hzero => e.inside_ne_nil (byteLength_eq_zero hzero)
    rw [Fork.Beyond, hrest]
    change _ < Source.byteLength (e.inside ++ ((e.last ++ e.ahead) ++ e.behind))
    simp only [Source.byteLength_append]
    omega

theorem outer_at {c c' : Cursor} (h : e.outer.Begins c c') (hat : e.outer.At c c') :
    c = e.start ∧ c' = e.opening :=
  ⟨h.1.eq_of_rest e.start_in hat.1, h.2.1.eq_of_rest e.opening_in hat.2⟩

/-- A type in parentheses is a tuple type, and no array of one. -/
theorem outer_enters {d' : Cursor} (hty : Matches (.rule .ty) e.opening d') :
    ∃ d, Types e.start d ∧ Behind e.outer.Begins d d' := by
  obtain ⟨m', k', hname, hskip', hsuffix⟩ := matches_ty_iff.mp hty
  obtain ⟨a', b', hopen, hskip, hrest⟩ :=
    matches_tupleType_iff.mp (tupleType_of_paren hname e.reads_open)
  obtain rfl := (Matches.text_iff.mpr e.reads_open).unique (Matches.text_iff.mpr hopen)
  obtain ⟨-, rfl⟩ := Reply.ok.inj ((answer_filler_firm e.firm_inside).symm.trans hskip)
  rcases hrest with hclose | ⟨d, n, htypes, hend, hclose | ⟨m, k, hcomma, hnext, hclose⟩⟩
  · exfalso
    have hpath : Pieces .brackets (e.start'.rest, 0) (')' :: m'.rest, 0) := hclose.rest ▸ .refl _
    have hlength := congrArg List.length (hclose.rest.trans (congrArg _ (eq_of_closes hpath)))
    have hpos := List.length_pos_iff.mpr e.inside_ne_nil
    simp only [start', List.length_append, List.length_cons, List.length_nil] at hlength
    omega
  · obtain ⟨hm', d₁, n₁, hd₁, hn₁, hrest⟩ := types_inside htypes hend hclose
    obtain ⟨-, rfl⟩ := Reply.ok.inj ((skips_ahead hm').symm.trans hskip')
    have hsuffix := (Matches.opt_iff.mp hsuffix).resolve_left fun hsuffix =>
      hsuffix.not_fails (fails_behind rfl (by decide))
    obtain ⟨-, rfl⟩ := hsuffix
    obtain ⟨s, hs⟩ := hd₁.reads
    obtain ⟨t, ht⟩ := hty.reads
    exact ⟨d₁, hd₁, behind_outer hn₁ (firm_of_filler hskip') (e.start_in.reads hs)
      (e.opening_in.reads ht) hrest rfl⟩
  · exact (not_comma_of_types htypes hend hcomma hnext hclose).elim

theorem wraps_expr {g n : Cursor} {q : Pair Rule} (h : Wraps (.rule .groupedExpr) e.opening [q] g)
    (hskip : grammar.answer true filler g = .ok [] n) (hn : n.rest = e.behind) :
    Wraps (.rule .expr) e.opening [q] n := by
  have hfails {s : Expr Rule} (hs : s ∈ Rule.avoiding '(') : FailsAt s e.opening :=
    fails_of_sign hs e.reads_open
  have hends {s : Expr Rule} (hs : s ∈ Rule.assigned :: Rule.operandTrials Level.all) :
      FailsAt s n :=
    fails_behind hn hs
  have hstays := firm_of_filler hskip
  have hprimary : Wraps (.rule .primaryExpr) e.opening [q] g :=
    .fold rfl rfl rfl (.second (hfails (by decide)) (.second (hfails (by decide))
      (.first h)))
  have hcall : Wraps (.rule .callExpr) e.opening [q] n :=
    .fold rfl rfl rfl (.star hprimary hskip (hends (by decide)))
  have hunary : Wraps (.rule .unaryExpr) e.opening [q] n :=
    .fold rfl rfl rfl (.after_star (hfails (by decide)) (answer_filler_firm (firm_open _))
      hcall)
  have hcast : Wraps (.rule .castExpr) e.opening [q] n :=
    .fold rfl rfl rfl (.star hunary hstays (hends (by decide)))
  have hchain (l : Level) (h : Wraps (Rule.operand l) e.opening [q] n) :
      Wraps (.rule (.chain l)) e.opening [q] n :=
    .fold rfl rfl rfl (.star h hstays (hends (by cases l <;> decide)))
  have hor : Wraps (.rule (.chain .logOr)) e.opening [q] n :=
    hchain _ (hchain _ (hchain _ (hchain _ (hchain _ (hchain .multiplicative hcast)))))
  have hassign : Wraps (.rule .assignExpr) e.opening [q] n :=
    .fold rfl rfl rfl (.opt hor hstays (hends List.mem_cons_self))
  exact .fold rfl rfl rfl (.first (.fold rfl rfl rfl (.second (hfails (by decide))
    (.second (hfails (by decide)) (.second (hfails (by decide)) hassign)))))

theorem outer_crossing : e.outer.Crossing True where
  enters h hat hty := by
    obtain ⟨rfl, rfl⟩ := outer_at h hat
    exact outer_enters hty
  shut _ _ _ hshut := nomatch (List.cons.inj hshut).1
  whole _ h hat hexpr := by
    obtain ⟨rfl, rfl⟩ := outer_at h hat
    obtain ⟨rfl, rfl⟩ := Reply.ok.inj (hexpr.answer.symm.trans e.derives.answer)
    -- The expression is carried over up to the closing parenthesis, and the group is wrapped in
    -- rules that only pass it on.
    obtain ⟨ps', d', n', hinside, hend, hn', hsame⟩ := e.exists_inside
    obtain ⟨q, hq⟩ := exists_of_fold hinside rfl rfl rfl
    obtain ⟨g, hclose, hg⟩ : ∃ g : Cursor, n'.Reads [')'] g ∧ g.rest = e.ahead ++ e.behind :=
      ⟨⟨_, _⟩, ⟨hn', rfl⟩, rfl⟩
    have hgroup : Wraps (.rule .groupedExpr) e.opening [q] g :=
      .fold rfl rfl rfl ⟨[] ++ (ps' ++ []), .seq (.text e.reads_open)
        (answer_filler_firm e.firm_inside) (.seq hinside hend (.text hclose)), by simpa using hq⟩
    have hskip := skips_ahead hg
    obtain ⟨ps'', hexpr', hq'⟩ := wraps_expr hgroup hskip rfl
    obtain ⟨s, hs⟩ := hexpr'.reads
    refine ⟨ps'', _, hexpr', behind_outer (skips_ahead rfl) (firm_of_filler hskip)
      (e.start_in.reads e.reads_inside) (e.opening_in.reads hs) rfl rfl, ?_⟩
    rw [Fork.SameNodes, hq', ← hq]
    exact hsame

end Place

end XiFront

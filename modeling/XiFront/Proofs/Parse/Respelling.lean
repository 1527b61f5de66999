import XiFront.Proofs.Grammar.Beside
import XiFront.Proofs.Grammar.Spacing
import XiFront.Proofs.Parse.Interchange
import XiFront.Proofs.Tree.Arena

/-!
One identifier is as good as another.  With another identifier in the place of one, the match takes
the same decisions: in front of the place no token looks into it, at the place only an identifier is
read, and behind it the text is the same.
-/

namespace XiFront

open Peg

/-- Behind whole pieces and a gap, one identifier stands for another. -/
structure Respelling (u a x y v : List Char) : Prop where
  cut : Cut (a ++ (x ++ v)) u
  gap : IsGap a (x ++ v)
  last : ∀ z ∈ (u ++ a).getLast?, isWordChar z = false
  old : IsIdentifier x
  new : IsIdentifier y
  stop : ∀ z ∈ v.head?, isWordChar z = false

/-- The texts are the same unless the rule is not that of a token, or the span is that of the
identifier at the offset `k`. -/
def Respelled (s s' y : Source) (k : Nat) (r : Rule) (a b a' b' : Nat) : Prop :=
  (Rule.production r).tight = true →
    s'.slice a' b' = if r = .ident ∧ a = k then y else s.slice a b

theorem Twin.respelled {s s' y : Source} {k : Nat} {c c' : Cursor} {p p' : Pair Rule}
    (h : Twin c c' p p') (hc : c.In s) (hc' : c'.In s') (hk : c.offset ≠ k) :
    p.Alike (Respelled s s' y k) p' := by
  obtain ⟨r, d, d', t, -, ht, ht', rfl, rfl⟩ := h
  apply Pair.Alike.node _ .nil
  intro _
  rw [if_neg fun h => hk h.2, hc.slice_eq ht, hc'.slice_eq ht']

theorem IsIdentifier.lettered {x y : List Char} (hx : IsIdentifier x) (hy : IsIdentifier y)
    (v : List Char) : Lettered (x ++ v) (y ++ v) := by
  obtain ⟨z, zs, rfl, hz⟩ := hx.start
  obtain ⟨z', zs', rfl, hz'⟩ := hy.start
  refine ⟨fun d hd => ?_, fun d hd => ?_⟩
  · cases Option.some.inj hd
    exact hz
  · cases Option.some.inj hd
    exact hz'

namespace Respelling

variable {u a x y v : List Char} {c c' : Cursor}

def source (u a x v : List Char) : Source :=
  u ++ (a ++ (x ++ v))

def offset (u a : List Char) : Nat :=
  Source.byteLength (u ++ a)

/-- Both cursors are behind the identifiers. -/
def Past (u a : List Char) (c c' : Cursor) : Prop :=
  c.rest = c'.rest ∧ offset u a < c.offset

theorem facing (h : Respelling u a x y v) (ha : a ≠ []) :
    Facing (a ++ (x ++ v)) (a ++ (y ++ v)) := by
  obtain ⟨z, a, rfl⟩ := List.exists_cons_of_ne_nil ha
  exact ⟨fun d hd => h.gap.opensFiller d hd, fun d hd => h.gap.opensFiller d hd, id⟩

theorem slashSafe (h : Respelling u a x y v) : SlashSafe (a ++ (x ++ v)) (a ++ (y ++ v)) := by
  by_cases ha : a = []
  · subst ha
    exact (h.old.lettered h.new v).slashSafe
  · exact (h.facing ha).slashSafe

/-- In front of the gap the text before a cursor ends as all of it does. -/
theorem clear (h : Respelling u [] x y v) (hin : c.In (source u [] x v)) :
    Clear (x ++ v) c := by
  obtain ⟨before, hbefore⟩ := hin
  intro w hw z hz
  have hne : w ≠ [] := by
    rintro rfl
    exact nomatch hz
  have hu : u = before ++ w := by
    have hrest : u ++ (x ++ v) = before ++ c.rest := hbefore.rest
    rw [hw, ← List.append_assoc before] at hrest
    exact List.append_cancel_right hrest
  apply h.last
  rw [List.append_nil, hu, List.getLast?_append_of_ne_nil before hne]
  exact hz

theorem offset_of_rest (hin : c.In (source u a x v)) (hrest : c.rest = x ++ v) :
    c.offset = offset u a := by
  have hadd := hin.offset_add
  rw [hrest] at hadd
  simp only [source, offset, Source.byteLength_append] at hadd ⊢
  omega

theorem offset_lt_of_inside (hin : c.In (source u a x v))
    (h : Inside (a ++ (x ++ v)) (a ++ (y ++ v)) c c') : c.offset < offset u a := by
  obtain ⟨w, hne, -, -, hrest, -⟩ := h
  have hadd := hin.offset_add
  obtain ⟨z, w, rfl⟩ := List.exists_cons_of_ne_nil hne
  have hpos := z.utf8Size_pos
  rw [hrest] at hadd
  simp only [source, offset, Source.byteLength_append, Source.byteLength_cons] at hadd ⊢
  omega

theorem skips (h : Respelling u a x y v)
    (hc : Abreast (a ++ (x ++ v)) (a ++ (y ++ v)) c c' ∨ (c.rest = x ++ v ∧ c'.rest = y ++ v) ∨
      Past u a c c') :
    (grammar.answer true filler c).Agrees (fun _ _ => True)
      (fun d d' => Inside (a ++ (x ++ v)) (a ++ (y ++ v)) d d' ∨
        (d.rest = x ++ v ∧ d'.rest = y ++ v) ∨ Past u a d d')
      (grammar.answer true filler c') := by
  have hfirm' := h.new.firm v
  rcases hc with ⟨w, hw, hrest, rfl⟩ | ⟨hrest, hrest'⟩ | ⟨hrest, hlt⟩
  · by_cases hne : w = []
    · subst hne
      obtain ⟨z, r, hstart⟩ : ∃ z r, x ++ v = z :: r := by
        obtain ⟨z, zs, rfl, -⟩ := h.old.start
        exact ⟨z, zs ++ v, rfl⟩
      have hgap' : IsGap a (y ++ v) := h.gap.of_firm (by rw [hstart]; exact nofun) hfirm'
      have hold : grammar.Takes filler c a ⟨x ++ v, c.offset + Source.byteLength a⟩ :=
        takes_filler.mpr ⟨⟨hrest, rfl⟩, h.gap⟩
      have hnew : grammar.Takes filler ⟨[] ++ (a ++ (y ++ v)), c.offset⟩ a
          ⟨y ++ v, c.offset + Source.byteLength a⟩ := takes_filler.mpr ⟨⟨rfl, rfl⟩, hgap'⟩
      rw [hold.1, hnew.1]
      exact .matches_ .nil (.inr (.inl ⟨rfl, rfl⟩))
    · obtain ⟨s, d, d', hd, hd', hinside⟩ := Abreast.skips h.slashSafe hw hne hrest
      rw [hd.1, hd'.1]
      exact .matches_ .nil (.inl hinside)
  · rw [answer_filler_firm (by rw [hrest]; exact h.old.firm v),
      answer_filler_firm (by rw [hrest']; exact hfirm')]
    exact .matches_ .nil (.inr (.inl ⟨hrest, hrest'⟩))
  · refine (filler_agrees_of_rest hrest).reads.mono (fun _ _ => id) ?_
    rintro d d' ⟨⟨s, hs⟩, -, hd⟩
    refine .inr (.inr ⟨hd, ?_⟩)
    rw [hs.offset]
    omega

theorem marks_agree (h : Respelling u a x y v) (hin : c.In (source u a x v))
    (hin' : c'.In (source u a y v))
    (hc : Inside (a ++ (x ++ v)) (a ++ (y ++ v)) c c' ∨ (c.rest = x ++ v ∧ c'.rest = y ++ v) ∨
      Past u a c c') {e : Expr Rule} (he : e.isMark = true) :
    (grammar.answer false e c).Agrees
      (Pair.Alike (Respelled (source u a x v) (source u a y v) y (offset u a)))
      (fun d d' => Abreast (a ++ (x ++ v)) (a ++ (y ++ v)) d d' ∨
        (d.rest = x ++ v ∧ d'.rest = y ++ v) ∨ Past u a d d')
      (grammar.answer false e c') := by
-- Before the identifier, at it, and behind it.
  rcases hc with hc | ⟨hrest, hrest'⟩ | ⟨hrest, hlt⟩
  · have hlt := offset_lt_of_inside hin hc
    have hagrees : (grammar.answer false e c).Agrees (Twin c c')
        (Abreast (a ++ (x ++ v)) (a ++ (y ++ v))) (grammar.answer false e c') := by
      by_cases ha : a = []
      · subst ha
        exact mark_agrees (h.old.lettered h.new v) hc (h.clear hin) he
      · exact atom_agrees (h.facing ha) hc (Expr.isAtom_of_isMark he)
    exact hagrees.mono (fun _ _ hp => hp.respelled hin hin' (Nat.ne_of_lt hlt)) fun _ _ => .inl
  · have hoffset := offset_of_rest hin hrest
    refine (mark_agrees_at h.old h.new h.stop hrest hrest' he).mono ?_ ?_
    · rintro _ _ ⟨d, d', hd, hd', rfl, rfl⟩
      apply Pair.Alike.node _ .nil
      intro _
      rw [if_pos ⟨rfl, hoffset⟩, hin'.slice_eq hd']
    · rintro d d' ⟨hread, hd, hd'⟩
      obtain ⟨z, zs, hx, -⟩ := h.old.start
      have hpos := z.utf8Size_pos
      refine .inr (.inr ⟨hd.trans hd'.symm, ?_⟩)
      rw [hread.offset, hx, Source.byteLength_cons]
      omega
  · refine (atom_agrees_of_rest hrest (Expr.isAtom_of_isMark he)).reads.mono ?_ ?_
    · exact fun _ _ hp => hp.respelled hin hin' (Nat.ne_of_gt hlt)
    · rintro d d' ⟨⟨s, hs⟩, -, hd⟩
      refine .inr (.inr ⟨hd, ?_⟩)
      rw [hs.offset]
      omega

def likeness (h : Respelling u a x y v) : Likeness grammar false where
  Begins := fun c c' => c.In (source u a x v) ∧ c'.In (source u a y v) ∧
    (Inside (a ++ (x ++ v)) (a ++ (y ++ v)) c c' ∨ (c.rest = x ++ v ∧ c'.rest = y ++ v) ∨
      Past u a c c')
  Ends := fun c c' => c.In (source u a x v) ∧ c'.In (source u a y v) ∧
    (Abreast (a ++ (x ++ v)) (a ++ (y ++ v)) c c' ∨ (c.rest = x ++ v ∧ c'.rest = y ++ v) ∨
      Past u a c c')
  Alike := Pair.Alike (Respelled (source u a x v) (source u a y v) y (offset u a))
  leaf := Expr.isMark
  part := fun r => !r.isLexical && decide (r ≠ .file)
  ends := fun ⟨hin, hin', hc⟩ => ⟨hin, hin', hc.imp_left Inside.abreast⟩
  skips := fun ⟨hin, hin', hc⟩ => (h.skips hc).within hin hin'
  leaves := fun he ⟨hin, hin', hc⟩ => (h.marks_agree hin hin' hc he).within hin hin'
  opens := by
    intro r hr
    refine ⟨(loose_opens hr).1, ?_⟩
    rw [Bool.and_eq_true, Bool.not_eq_true', decide_eq_true_eq] at hr
    exact mark_built r r.mem_all hr.1 hr.2
  closes := by
    intro r c c' d d' ps ps' _ hr _ _ hps
    rw [Bool.and_eq_true, Bool.not_eq_true'] at hr
    have hloose := Rule.loose_of_isLexical hr.1
    exact .node (fun htight => absurd (hloose.symm.trans htight) Bool.false_ne_true) hps

end Respelling

/-- The source with another text in the place of a node. -/
def Node.respell (n : Node) (text source : Source) : Source :=
  source.takeBytes n.start ++ (text ++ source.dropBytes n.stop)

/-- An identifier of a tree stands behind whole pieces and a gap, and any other can stand there. -/
theorem exists_respelling {source y : Source} {t : Tree} (h : Tree.parse source = .ok t) {n : Node}
    (hn : n ∈ t.nodes) (hr : n.rule = .ident) (hy : IsIdentifier y) :
    ∃ u a x v, source = Respelling.source u a x v ∧ n.start = Respelling.offset u a ∧
      n.respell y source = Respelling.source u a y v ∧ Respelling u a x y v := by
  obtain ⟨p, after, q, hfile, hq, rfl⟩ := Tree.isOf_of_parse h
  have hnames : q.Every (Names (.ofText source) after) :=
    (names_of_answer_file hfile).of_prune (fun hp => hp) hq
  obtain ⟨q', next, hname, rfl⟩ := Node.exists_pair_of_mem_preorder hnames (Tree.mem_nodes.mp hn)
  rw [Node.rule_ofPair] at hr
  obtain ⟨d, d', x, r, hstart, hstop, ⟨w, hread, htrail⟩, ⟨s, hread', hparted⟩, hident, -⟩ :=
    hname hr
  cases hread'.unique hread
  obtain ⟨hx, hv⟩ := takes_ident_stops hident
  rw [hident.2.rest] at htrail hparted
  obtain ⟨u, a, rfl, hcut, ha⟩ := htrail
  have hsource : source = (u ++ a) ++ (x ++ d'.rest) := by
    rw [← hident.2.rest]
    exact hread.rest
  have hlast : ∀ z ∈ (u ++ a).getLast?, isWordChar z = false := by
    obtain ⟨z, zs, rfl, hz⟩ := hx.start
    exact hparted.last ⟨z, rfl, isWordChar_of_start hz⟩
  have hbefore : d.offset = Source.byteLength (u ++ a) := hread.offset.trans (Nat.zero_add _)
  have hbehind : d'.offset = Source.byteLength ((u ++ a) ++ x) := by
    rw [hident.2.offset, hbefore, ← Source.byteLength_append]
  refine ⟨u, a, x, d'.rest, hsource.trans (List.append_assoc ..), ?_, ?_, hcut, ?_, hlast, hx, hy,
    hv⟩
  · rw [Node.start_ofPair, hstart, hbefore]
    rfl
  · have hdrop : source.dropBytes (Source.byteLength ((u ++ a) ++ x)) = d'.rest := by
      rw [hsource, ← List.append_assoc, Source.dropBytes_byteLength]
    rw [Node.respell, Node.start_ofPair, Node.stop_ofPair, hstart, hstop, hbefore, hbehind, hdrop,
      hsource, Source.takeBytes_byteLength, Respelling.source, List.append_assoc]
  · rcases ha with rfl | ha
    · exact .stop (hx.firm d'.rest)
    · exact ha

/-- The parser is uniform in identifiers: with another identifier in the place of one, the source is
accepted, and its tree has the same nodes with the same texts, but for that one. -/
theorem parse_respells {source y : Source} {t : Tree} (h : Tree.parse source = .ok t) {n : Node}
    (hn : n ∈ t.nodes) (hr : n.rule = .ident) (hy : IsIdentifier y) :
    ∃ t', Tree.parse (n.respell y source) = .ok t' ∧
      List.Forall₂ (fun m m' => m'.id = m.id ∧ m'.rule = m.rule ∧
        m'.children.map Node.id = m.children.map Node.id ∧
        ((Rule.production m.rule).tight = true →
          t'.text m' = if m.id = n.id then y else t.text m)) t.nodes t'.nodes := by
  obtain ⟨u, a, x, v, hsource, hstart, hrespell, hplace⟩ := exists_respelling h hn hr hy
  subst hsource
  rw [hrespell]
  have hends : hplace.likeness.Ends (.ofText (Respelling.source u a x v))
      (.ofText (Respelling.source u a y v)) :=
    ⟨.ofText _, .ofText _, .inl ⟨u, hplace.cut, rfl, rfl⟩⟩
  have hmatch {p : Pair Rule} {after : Cursor}
      (hfile : grammar.answer false (.rule .file) (.ofText (Respelling.source u a x v)) =
        .ok [p] after) :
      ∃ p' after', grammar.answer false (.rule .file) (.ofText (Respelling.source u a y v)) =
          .ok [p'] after' ∧
        p.Alike (Respelled (Respelling.source u a x v) (Respelling.source u a y v) y
          (Respelling.offset u a)) p' := by
    obtain ⟨cs, cs', after', rfl, hfile', hcs⟩ :=
      answer_file_agrees hplace.likeness rfl hends hfile
    exact ⟨_, after', hfile', .node nofun hcs⟩
  obtain ⟨t', ht', hsource', hnodes⟩ := Tree.parse_alike h hmatch
  refine ⟨t', ht', ?_⟩
  refine ((List.forall₂_and_left _ _).mpr ⟨fun m hm => hm, hnodes⟩).imp ?_
  rintro m m' ⟨hm, halike⟩
  refine ⟨halike.id, halike.rule, halike.children, fun htight => ?_⟩
  -- The identifier that is replaced is the only one at its offset.
  have hsame : (m.rule = .ident ∧ m.start = Respelling.offset u a) ↔ m.id = n.id := by
    constructor
    · rintro ⟨hmr, hmstart⟩
      have htoken {k : Node} (hk : k.rule = .ident) : k.rule.isToken = true := by rw [hk]; rfl
      rw [Tree.eq_of_start h hm hn (htoken hmr) (htoken hr) (hmstart.trans hstart.symm)]
    · intro hid
      rw [(Tree.wellFormed_of_parse h).1.eq_of_id hm hn hid]
      exact ⟨hr, hstart⟩
  have htext := halike.span htight
  rw [if_congr hsame rfl rfl] at htext
  rw [Tree.text, Node.text, hsource', htext, Tree.text, Node.text, (Tree.wellFormed_of_parse h).2]

/-- The name of a field that looks like the exponent of a number, and a shorter one. -/
theorem parse_respells_exponent :
    ∃ t n t', Tree.parse "const a:T=1.e5;".toList = .ok t ∧ n ∈ t.nodes ∧
      t.text n = "e5".toList ∧ Tree.parse "const a:T=1.e;".toList = .ok t' ∧
      t'.nodes.map Node.id = t.nodes.map Node.id := by
  have hfound : (Tree.parse "const a:T=1.e5;".toList).toOption.map (fun t =>
      decide (∃ n ∈ t.nodes, n.rule = .ident ∧ n.start = 12 ∧ n.stop = 14)) = some true := by
    decide +kernel
  obtain ⟨t, h, hfound⟩ := Tree.exists_parse_of_map hfound
  obtain ⟨n, hn, hr, hstart, hstop⟩ := of_decide_eq_true hfound
  have hy : IsIdentifier ['e'] := ⟨⟨'e', [], rfl, by decide⟩, by decide, by decide⟩
  obtain ⟨t', ht', hnodes⟩ := parse_respells h hn hr hy
  have hsource : t.source = "const a:T=1.e5;".toList := (Tree.wellFormed_of_parse h).2
  refine ⟨t, n, t', h, hn, ?_, ?_, ?_⟩
  · rw [Tree.text, Node.text, hsource, hstart, hstop]
    decide
  · rw [← ht', Node.respell, hstart, hstop]
    rfl
  · rw [← List.forall₂_eq_eq_eq, List.forall₂_map_left_iff, List.forall₂_map_right_iff]
    exact hnodes.flip.imp fun _ _ hm => hm.1

end XiFront

import XiFront.Proofs.Grammar.Trail
import XiFront.Proofs.Tree.Alike
import XiFront.Proofs.Tree.WellFormed

namespace XiFront

open Peg

namespace Peg.Grammar

/-- The match of an expression at a cursor skips the filler between two cursors.  What an attempt
that failed has skipped does not count. -/
inductive Skipped (g : Grammar ρ) : Expr ρ → Cursor → Cursor → Cursor → Prop
  | rule {r : ρ} {c d d' : Cursor} (hloose : (g.production r).tight = false)
      (h : Skipped g (g.production r).body c d d') : Skipped g (.rule r) c d d'
  | first {a b : Expr ρ} {c c' d d' : Cursor} {ps : List (Pair ρ)} (h : Skipped g a c d d')
      (hmatch : g.answer false (.seq a b) c = .ok ps c') : Skipped g (.seq a b) c d d'
  | between {a b : Expr ρ} {c c' d d' : Cursor} {ps qs rs : List (Pair ρ)}
      (hfirst : g.answer false a c = .ok ps d) (hskip : g.answer true g.filler d = .ok qs d')
      (hsecond : g.answer false b d' = .ok rs c') : Skipped g (.seq a b) c d d'
  | second {a b : Expr ρ} {c c₁ c₂ c' d d' : Cursor} {ps qs rs : List (Pair ρ)}
      (hfirst : g.answer false a c = .ok ps c₁) (hskip : g.answer true g.filler c₁ = .ok qs c₂)
      (hsecond : g.answer false b c₂ = .ok rs c') (h : Skipped g b c₂ d d') :
      Skipped g (.seq a b) c d d'
  | left {a b : Expr ρ} {c d d' : Cursor} (h : Skipped g a c d d') : Skipped g (.alt a b) c d d'
  | right {a b : Expr ρ} {c d d' : Cursor} (hfail : g.answer false a c = .fail)
      (h : Skipped g b c d d') : Skipped g (.alt a b) c d d'
  | opt {a : Expr ρ} {c d d' : Cursor} (h : Skipped g a c d d') : Skipped g (.opt a) c d d'
  | star {a : Expr ρ} {c d d' : Cursor} (h : Skipped g a c d d') : Skipped g (.star a) c d d'
  | starMore {a : Expr ρ} {c c₁ d d' : Cursor} {ps : List (Pair ρ)}
      (hfirst : g.answer false a c = .ok ps c₁) (h : Skipped g (.more a) c₁ d d') :
      Skipped g (.star a) c d d'
  | before {a : Expr ρ} {c' d d' : Cursor} {ps qs : List (Pair ρ)}
      (hskip : g.answer true g.filler d = .ok ps d') (hnext : g.answer false a d' = .ok qs c') :
      Skipped g (.more a) d d d'
  | more {a : Expr ρ} {c c₁ d d' : Cursor} {ps : List (Pair ρ)}
      (hskip : g.answer true g.filler c = .ok ps c₁) (h : Skipped g a c₁ d d') :
      Skipped g (.more a) c d d'
  | moreMore {a : Expr ρ} {c c₁ c₂ d d' : Cursor} {ps qs : List (Pair ρ)}
      (hskip : g.answer true g.filler c = .ok ps c₁) (hnext : g.answer false a c₁ = .ok qs c₂)
      (h : Skipped g (.more a) c₂ d d') : Skipped g (.more a) c d d'

theorem Skipped.skips {g : Grammar ρ} {e : Expr ρ} {c d d' : Cursor} (h : g.Skipped e c d d') :
    ∃ ps, g.answer true g.filler d = .ok ps d' := by
  induction h with
  | between _ hskip _ => exact ⟨_, hskip⟩
  | before hskip _ => exact ⟨_, hskip⟩
  | _ => assumption

end Peg.Grammar

theorem not_skipped_tightOperators {c d d' : Cursor} :
    ¬grammar.Skipped tightOperators c d d' := by
  have htoken {o : BinaryOp} : ¬grammar.Skipped (.rule (.binary o)) c d d' := by
    rintro (⟨hloose, -⟩ | _)
    exact nomatch hloose
  intro h
  cases h with
  | left h => exact htoken h
  | right _ h =>
      cases h with
      | left h => exact htoken h
      | right _ h => exact htoken h

theorem reaches_of_skipped {e : Expr Rule} {c d d' : Cursor} (h : grammar.Skipped e c d d')
    (he : e.isSteady = true) (hfirm : (∀ a, e ≠ .more a) → IsFirm c.rest) : Reaches c d := by
  induction h with
  | @rule r c d d' hloose _ ih =>
      have hlexical := not_isLexical_of_isSteady he hloose
      exact ih (steady_body r r.mem_all hlexical) (fun _ => hfirm nofun)
  | first h hmatch ih =>
      rcases Bool.or_eq_true_iff.mp (Bool.and_eq_true_iff.mp he).1 with ha | ha
      · exact ih ha (fun _ => hfirm nofun)
      · rw [Bool.and_eq_true, decide_eq_true_eq] at ha
        rw [ha.1] at h
        exact absurd h not_skipped_tightOperators
  | between hfirst hskip hsecond =>
      exact steady_seq_first he (hfirm nofun) hfirst hskip hsecond
  | second hfirst hskip hsecond _ ih =>
      have hreach := steady_seq_first he (hfirm nofun) hfirst hskip hsecond
      obtain ⟨hskips, hfirm₂⟩ := Reaches.of_filler hskip
      exact hreach.trans (hskips.trans (ih (Bool.and_eq_true_iff.mp he).2 (fun _ => hfirm₂)))
  | left _ ih => exact ih (Bool.and_eq_true_iff.mp he).1 (fun _ => hfirm nofun)
  | right _ _ ih => exact ih (Bool.and_eq_true_iff.mp he).2 (fun _ => hfirm nofun)
  | opt _ ih => exact ih he (fun _ => hfirm nofun)
  | star _ ih => exact ih he (fun _ => hfirm nofun)
  | @starMore a c c₁ d d' ps hfirst _ ih =>
      have hreach := reaches_of_answer (e := a) he (fun _ => hfirm nofun) hfirst
      exact hreach.trans (ih he (fun hne => absurd rfl (hne a)))
  | @before a c' d d' ps qs hskip hnext => exact .refl d
  | more hskip _ ih =>
      obtain ⟨hskips, hfirm₁⟩ := Reaches.of_filler hskip
      exact hskips.trans (ih he (fun _ => hfirm₁))
  | @moreMore a c c₁ c₂ d d' ps qs hskip hnext _ ih =>
      obtain ⟨hskips, hfirm₁⟩ := Reaches.of_filler hskip
      have hreach := reaches_of_answer (e := a) he (fun _ => hfirm₁) hnext
      exact hskips.trans (hreach.trans (ih he (fun hne => absurd rfl (hne a))))

theorem reaches_of_skipped_file {source : Source} {d d' : Cursor}
    (h : grammar.Skipped (.rule .file) (.ofText source) d d') : Reaches (.ofText source) d := by
  cases h with
  | rule hloose h =>
      cases h with
      | first h hmatch => exact nomatch h
      | between hfirst hskip hsecond =>
          rw [answer_start_ofText] at hfirst
          obtain ⟨-, rfl⟩ := Reply.ok.inj hfirst
          exact .refl _
      | second hfirst hskip hsecond h =>
          rw [answer_start_ofText] at hfirst
          obtain ⟨-, rfl⟩ := Reply.ok.inj hfirst
          obtain ⟨hskips, hfirm⟩ := Reaches.of_filler hskip
          exact hskips.trans (reaches_of_skipped h rfl (fun _ => hfirm))

/-- The spans have the same text if the rule is that of a token. -/
def SameText (s s' : Source) (r : Rule) (a b a' b' : Nat) : Prop :=
  (Rule.production r).tight = true → s.slice a b = s'.slice a' b'

theorem sameText_of_loose {s s' : Source} {r : Rule} {a b a' b' : Nat}
    (hloose : (Rule.production r).tight = false) : SameText s s' r a b a' b' :=
  fun htight => absurd (hloose.symm.trans htight) Bool.false_ne_true

theorem Twin.alike {s s' : Source} {c c' : Cursor} {p p' : Pair Rule} (h : Twin c c' p p')
    (hc : c.In s) (hc' : c'.In s') : p.Alike (SameText s s') p' := by
  obtain ⟨r, d, d', t, -, ht, ht', rfl, rfl⟩ := h
  apply Pair.Alike.node _ .nil
  intro _
  rw [hc.slice_eq ht, hc'.slice_eq ht']

theorem Tree.tokens_alike {source source' : Source} {t t' : Tree} (h : Tree.parse source = .ok t)
    (hsource : t'.source = source')
    (hnodes : List.Forall₂ (Node.Alike (SameText source source') 0) t.nodes t'.nodes) :
    List.Forall₂ (fun n n' => n'.id = n.id ∧ n'.rule = n.rule ∧
      n'.children.map Node.id = n.children.map Node.id ∧
      ((Rule.production n.rule).tight = true → t'.text n' = t.text n)) t.nodes t'.nodes := by
  refine hnodes.imp fun n n' hn => ⟨hn.id, hn.rule, hn.children, fun htight => ?_⟩
  rw [Tree.text, Tree.text, hsource, (Tree.wellFormed_of_parse h).2]
  exact (hn.span htight).symm

/-- Between two texts one gap stands for another. -/
structure Swap (u f g v : List Char) : Prop where
  cut : Cut (f ++ v) u
  old : IsGap f v
  new : IsGap g v
  facing : Facing (f ++ v) (g ++ v)

namespace Swap

variable {u f g v : List Char}

theorem skips (h : Swap u f g v) {c c' : Cursor}
    (hc : Abreast (f ++ v) (g ++ v) c c' ∨ c.rest = c'.rest) :
    (grammar.answer true filler c).Agrees (fun _ _ => True)
      (fun d d' => Inside (f ++ v) (g ++ v) d d' ∨ d.rest = d'.rest)
      (grammar.answer true filler c') := by
  rcases hc with ⟨w, hw, hrest, rfl⟩ | hrest
  · by_cases hne : w = []
    · subst hne
      have hold : grammar.Takes filler c f ⟨v, c.offset + Source.byteLength f⟩ :=
        takes_filler.mpr ⟨⟨hrest, rfl⟩, h.old⟩
      have hnew : grammar.Takes filler ⟨[] ++ (g ++ v), c.offset⟩ g
          ⟨v, c.offset + Source.byteLength g⟩ := takes_filler.mpr ⟨⟨rfl, rfl⟩, h.new⟩
      rw [hold.1, hnew.1]
      exact .matches_ .nil (.inr rfl)
    · obtain ⟨s, d, d', hd, hd', hinside⟩ := Abreast.skips h.facing.slashSafe hw hne hrest
      rw [hd.1, hd'.1]
      exact .matches_ .nil (.inl hinside)
  · exact (filler_agrees_of_rest hrest).mono (fun _ _ => id) fun _ _ => .inr

def likeness (h : Swap u f g v) : Likeness grammar false where
  Begins := fun c c' => c.In (u ++ (f ++ v)) ∧ c'.In (u ++ (g ++ v)) ∧
    (Inside (f ++ v) (g ++ v) c c' ∨ c.rest = c'.rest)
  Ends := fun c c' => c.In (u ++ (f ++ v)) ∧ c'.In (u ++ (g ++ v)) ∧
    (Abreast (f ++ v) (g ++ v) c c' ∨ c.rest = c'.rest)
  Alike := Pair.Alike (SameText (u ++ (f ++ v)) (u ++ (g ++ v)))
  leaf := Expr.isAtom
  part := fun r => !r.isLexical && decide (r ≠ .file)
  ends := fun ⟨hin, hin', hc⟩ => ⟨hin, hin', hc.imp_left Inside.abreast⟩
  skips := fun ⟨hin, hin', hc⟩ => (h.skips hc).within hin hin'
  leaves := by
    rintro e c c' he ⟨hin, hin', hc⟩
    refine Reply.Agrees.within ?_ hin hin'
    rcases hc with hc | hc
    · exact (atom_agrees h.facing hc he).mono (fun _ _ hp => hp.alike hin hin')
        fun _ _ => .inl
    · exact (atom_agrees_of_rest hc he).mono (fun _ _ hp => hp.alike hin hin') fun _ _ => .inr
  opens := @loose_opens
  closes := by
    intro r c c' d d' ps ps' _ hr _ _ hps
    rw [Bool.and_eq_true, Bool.not_eq_true'] at hr
    exact .node (sameText_of_loose (Rule.loose_of_isLexical hr.1)) hps

end Swap

theorem Swap.of_skipped {u f g v : Source} (hf : f ≠ [])
    (h : grammar.Skipped (.rule .file) (.ofText (u ++ (f ++ v)))
      ⟨f ++ v, Source.byteLength u⟩ ⟨v, Source.byteLength (u ++ f)⟩)
    (hg : IsFiller g) (hblank : ∃ b ∈ g.head?, isBlank b = true) : Swap u f g v := by
  obtain ⟨ps, hskip⟩ := h.skips
  obtain ⟨s, hs⟩ := Grammar.takes_of_answer hskip
  obtain ⟨hread, hgap⟩ := takes_filler.mp hs
  obtain rfl : f = s := List.append_cancel_right hread.rest
  obtain ⟨w, hw, htrail⟩ := reaches_of_skipped_file h
  obtain rfl : u = w := List.append_cancel_right hw.rest
  obtain ⟨b, hb, hblank⟩ := hblank
  obtain ⟨g, rfl⟩ := List.head?_eq_some_iff.mp hb
  refine ⟨htrail.cut (hgap.not_firm hf), hgap, hg.isGap hgap.firm, ?_, ?_, ?_⟩
  · intro d hd
    obtain ⟨z, f, rfl⟩ := List.exists_cons_of_ne_nil hf
    exact hgap.opensFiller d hd
  · intro d hd
    cases Option.some.inj hd
    exact opensFiller_of_isBlank hblank
  · intro hslash
    cases Option.some.inj hslash
    exact nomatch hblank

theorem Swap.answer_file {u f g v : List Char} (h : Swap u f g v) {p : Pair Rule}
    {after : Cursor}
    (hfile : grammar.answer false (.rule .file) (.ofText (u ++ (f ++ v))) = .ok [p] after) :
    ∃ p' after', grammar.answer false (.rule .file) (.ofText (u ++ (g ++ v))) = .ok [p'] after' ∧
      p.Alike (SameText (u ++ (f ++ v)) (u ++ (g ++ v))) p' := by
  have hends : h.likeness.Ends (.ofText (u ++ (f ++ v))) (.ofText (u ++ (g ++ v))) :=
    ⟨.ofText _, .ofText _, .inl ⟨u, h.cut, rfl, rfl⟩⟩
  obtain ⟨cs, cs', after', rfl, hfile', hcs⟩ := answer_file_agrees h.likeness rfl hends hfile
  exact ⟨_, after', hfile', .node nofun hcs⟩

/-- Filler is interchangeable: with other filler at a place where filler is skipped, the source is
accepted too, and its nodes have the same numbers, rules and children, and the tokens among them
the same text. -/
theorem parse_interchanges_filler {u f g v : Source} {t : Tree}
    (h : Tree.parse (u ++ (f ++ v)) = .ok t) (hf : f ≠ [])
    (hskip : grammar.Skipped (.rule .file) (.ofText (u ++ (f ++ v)))
      ⟨f ++ v, Source.byteLength u⟩ ⟨v, Source.byteLength (u ++ f)⟩)
    (hg : IsFiller g) (hblank : ∃ b ∈ g.head?, isBlank b = true) :
    ∃ t', Tree.parse (u ++ (g ++ v)) = .ok t' ∧
      List.Forall₂ (fun n n' => n'.id = n.id ∧ n'.rule = n.rule ∧
        n'.children.map Node.id = n.children.map Node.id ∧
        ((Rule.production n.rule).tight = true → t'.text n' = t.text n)) t.nodes t'.nodes := by
  obtain ⟨t', hparse, hsource, hnodes⟩ :=
    Tree.parse_alike h (Swap.of_skipped hf hskip hg hblank).answer_file
  exact ⟨t', hparse, Tree.tokens_alike h hsource hnodes⟩

/-- A comment right behind a keyword, and a line with a comment in its place. -/
theorem parse_interchanges_filler_use :
    ∃ t t', Tree.parse "use/*c*/a;".toList = .ok t ∧
      Tree.parse "use\t//c\na;".toList = .ok t' ∧
      t'.nodes.map Node.id = t.nodes.map Node.id := by
  let c : Cursor := .ofText "use/*c*/a;".toList
  have hitems : ∃ ps c', grammar.answer false
      (.seq (.star (.rule .item)) (.rule .endOfInput)) c = .ok ps c' :=
    Grammar.exists_ok_of_matched 200 (by decide +kernel)
  have hrest : ∃ ps c', grammar.answer false
      (.inOrder (.rule .path) [.opt (.seq (.rule (.kw .as_)) (.rule .ident)), Rule.symbol ';'])
      ⟨"a;".toList, 8⟩ = .ok ps c' :=
    Grammar.exists_ok_of_matched 200 (by decide +kernel)
  have hword : grammar.answer false (.rule (.kw .use)) c =
      .ok [.node (.kw .use) 0 3 []] ⟨"/*c*/a;".toList, 3⟩ := by
    have hstop : ∀ c ∈ "/*c*/a;".toList.head?, isWordChar c = false := by decide
    have hbody := Scans.answer_wordBody .use hstop 0
    rw [Grammar.answer_rule_loose]
    exact congrArg (Reply.close (Rule.kw .use) true 0) hbody
  have hgap : grammar.Takes filler ⟨"/*c*/a;".toList, 3⟩ "/*c*/".toList ⟨"a;".toList, 8⟩ :=
    takes_filler.mpr ⟨⟨rfl, rfl⟩, .block (by decide : ¬['*', '/'] <:+: ['c'])
      (.stop (.cons rfl (by decide)))⟩
  have hfirm : grammar.answer true filler c = .ok [] c :=
    answer_filler_firm (.cons rfl (by decide))
  obtain ⟨ps, c₁, hitems⟩ := hitems
  obtain ⟨qs, c₂, hrest⟩ := hrest
  have huse : grammar.Skipped (.rule .useStmt) c ⟨"/*c*/a;".toList, 3⟩ ⟨"a;".toList, 8⟩ :=
    .rule rfl (.between hword hgap.1 hrest)
  have hskip : grammar.Skipped (.rule .file) c ⟨"/*c*/a;".toList, 3⟩ ⟨"a;".toList, 8⟩ :=
    .rule rfl (.second (answer_start_ofText _) hfirm hitems
      (.first (.star (.rule rfl (.left huse))) hitems))
  have hfiller : IsFiller "\t//c\n".toList :=
    .blank rfl (.line (by decide : ∀ d ∈ ['c'], isNewline d = false) rfl .nil)
  have hok : (Tree.parse "use/*c*/a;".toList).toBool = true := by decide +kernel
  obtain ⟨t, h⟩ := exists_eq_ok hok
  obtain ⟨t', ht', hnodes⟩ := parse_interchanges_filler (u := "use".toList) (f := "/*c*/".toList)
    (v := "a;".toList) h nofun hskip hfiller ⟨'\t', rfl, rfl⟩
  have hids : List.Forall₂ (· = ·) (t.nodes.map Node.id) (t'.nodes.map Node.id) := by
    rw [List.forall₂_map_left_iff, List.forall₂_map_right_iff]
    exact hnodes.imp fun _ _ hn => hn.1.symm
  rw [List.forall₂_eq_eq_eq] at hids
  exact ⟨t, t', h, ht', hids.symm⟩

end XiFront

import XiFront.Proofs.Grammar.Place
import XiFront.Proofs.Tree.Arena

namespace XiFront

open Peg

theorem exists_place {source : Source} {p q : Pair Rule} {after : Cursor}
    (h : grammar.answer false (.rule .file) (.ofText source) = .ok [p] after)
    (hq : q ∈ Pair.preorderAll [p]) (hexpr : q.rule = .expr) :
    ∃ e : Place, e.source = source ∧ e.pairs = [q] ∧ q.start = e.start.offset ∧
      q.stop = e.stop.offset := by
  obtain ⟨c, cs, hskip, hitems, hp⟩ := answer_file_eq_ok.mp h
  cases hp
  rw [Pair.preorderAll_singleton] at hq
  rcases List.mem_cons.mp hq with rfl | hq
  · exact nomatch hexpr
  obtain ⟨hreach, hfirm⟩ := Reaches.of_filler hskip
  obtain ⟨b, d, hreach', hspace, hfirm', hmatch, hend⟩ :=
    sited_of_derives (.of_answer rfl hitems) rfl (by decide +kernel) hfirm hq hexpr
  obtain ⟨n, hn, l, hl, hlead⟩ := hend.resolve_right fun hlast => nomatch hlast.1
  obtain ⟨w, hw, before, gap, rfl, hcut, hgap⟩ := hreach.trans hreach'
  obtain ⟨w', hw', hparted⟩ := (Spaced.of_filler hskip).trans hspace
  cases hw'.unique hw
  obtain ⟨x, hx, inside, last, rfl, hcut', hlast⟩ :=
    reaches_of_answer (e := .rule .expr) rfl (fun _ => hfirm') hmatch
  obtain ⟨ahead, hahead⟩ := Grammar.takes_of_answer hn
  obtain ⟨hread, hskipped⟩ := takes_filler.mp hahead
  have hrest : b.rest = inside ++ ((last ++ ahead) ++ n.rest) := by
    rw [hx.rest, hread.rest]
    simp only [List.append_assoc]
  have hoffset : b.offset = Source.byteLength (before ++ gap) := hw.offset.trans (Nat.zero_add _)
  have hstart : b = ⟨inside ++ ((last ++ ahead) ++ n.rest), Source.byteLength (before ++ gap)⟩ := by
    rw [← hrest, ← hoffset]
  have hstop : d = ⟨ahead ++ n.rest,
      Source.byteLength (before ++ gap) + Source.byteLength (inside ++ last)⟩ := by
    rw [← hread.rest, ← hoffset, ← hx.offset]
  have hskips : IsGap gap b.rest := hgap.elim (fun hnil => hnil ▸ .stop hfirm') id
  have hpart : Parted before (gap ++ b.rest) := hparted.of_gap hgap
  subst hstart hstop
  have hsource : source = (before ++ gap) ++ (inside ++ ((last ++ ahead) ++ n.rest)) := hw.rest
  refine ⟨⟨before, gap, inside, last, ahead, n.rest, [q], hcut, hskips, hpart, ?_, hlast, hskipped,
    ⟨l, hl, hlead⟩, .of_rule hmatch⟩, (hsource.trans (List.append_assoc ..)).symm, rfl,
    span_of_answer_rule rfl rfl hmatch⟩
  rwa [List.append_assoc]

namespace Place

variable {e : Place}

theorem calm_after {c after : Cursor} {cs : List (Pair Rule)}
    (h : Derives (.seq (.star (.rule .item)) (.rule .endOfInput)) c cs after) :
    (e.outer.passage e.outer_crossing).Calm
      (Expr.seq (.star (.rule .item)) (.rule .endOfInput)).trials after := by
  have hafter : after.rest = [] := by
    cases h with
    | seq _ _ h =>
        cases h with
        | token htight _ => exact nomatch htight
        | rule _ h =>
            cases h with
            | finish h => exact h
  intro n n' hn hbegins s hs hfail
  obtain rfl : s = .rule .item := List.mem_singleton.mp hs
  have hrest : n.rest = [] := by
    obtain ⟨t, ht⟩ := Grammar.answer_reads hn
    have hempty := ht.rest
    rw [hafter] at hempty
    exact (List.append_eq_nil_iff.mp hempty.symm).2
  obtain ⟨-, -, ⟨w, hne, -, -, hc, -⟩ | hat | hpast⟩ := hbegins
  · rw [hrest] at hc
    exact absurd (List.append_eq_nil_iff.mp hc.symm).1 hne
  · exact absurd (hat.1.symm.trans hrest) e.outer.next_ne
  · exact fails_of_rest rfl hpast.1 hfail

theorem answer_file {p q : Pair Rule} {after : Cursor}
    (h : grammar.answer false (.rule .file) (.ofText e.source) = .ok [p] after)
    (hq : q ∈ Pair.preorderAll [p]) (hexpr : q.rule = .expr) (hstart : q.start = e.start.offset)
    (hstop : q.stop = e.stop.offset) :
    ∃ p' after', grammar.answer false (.rule .file) (.ofText e.source') = .ok [p'] after' ∧
      List.Forall₂ (Pair.Alike (SameText e.source e.source'))
        (prune p).toList (prune p').toList := by
  obtain ⟨c, cs, hskip, hitems, hp⟩ := answer_file_eq_ok.mp h
  cases hp
  rw [Pair.preorderAll_singleton] at hq
  rcases List.mem_cons.mp hq with rfl | hq
  · exact nomatch hexpr
  obtain ⟨n, n', hn, hn', hbegins⟩ := e.outer.behind_pieces (w := e.before)
    ⟨e.cut_before, e.parted⟩ (.ofText _) (.ofText _) rfl rfl
  obtain ⟨-, rfl⟩ := Reply.ok.inj (hskip.symm.trans hn)
  have hderives : Derives (.seq (.star (.rule .item)) (.rule .endOfInput)) c cs after :=
    .of_answer rfl hitems
  have hkept : e.outer.Kept True c cs after := by
    refine ⟨hbegins.1, .inr (.inr ⟨trivial, q, hq, hexpr, ?_, ?_⟩)⟩
    · have hpos : 0 < Source.byteLength e.inside :=
        Nat.pos_of_ne_zero fun hzero => e.inside_ne_nil (byteLength_eq_zero hzero)
      rw [hstart, hstop, e.reads_inside.offset, Source.byteLength_append]
      omega
    · rw [hstart]
      exact e.start_in.offset_add
  obtain ⟨cs', after', hderives', -, hsame⟩ :=
    Passage.carried (k := e.outer.passage e.outer_crossing) hderives Fork.passes_items hbegins hkept
      (calm_after hderives)
  refine ⟨_, after', answer_file_eq_ok.mpr ⟨n', cs', hn', hderives'.answer, rfl⟩, ?_⟩
  exact Selection.apply_alike (r := .file) nofun hsame .store

end Place

/-- The source with parentheses around a pair. -/
def Peg.Pair.parenthesize (q : Pair Rule) (source : Source) : Source :=
  source.takeBytes q.start ++
    '(' :: (source.slice q.start q.stop ++ ')' :: source.dropBytes q.stop)

theorem Place.parenthesize_eq {e : Place} {q : Pair Rule} (hstart : q.start = e.start.offset)
    (hstop : q.stop = e.stop.offset) : q.parenthesize e.source = e.source' := by
  have hbefore : e.source = (e.before ++ e.gap) ++ e.start.rest := (List.append_assoc ..).symm
  have hbehind : e.source = (e.before ++ e.gap ++ (e.inside ++ e.last)) ++ e.stop.rest := by
    rw [hbefore, e.reads_inside.rest, ← List.append_assoc]
  have hoffset : e.stop.offset = Source.byteLength (e.before ++ e.gap ++ (e.inside ++ e.last)) := by
    rw [Source.byteLength_append]
    rfl
  have htake : e.source.takeBytes e.start.offset = e.before ++ e.gap := by
    rw [hbefore]
    exact Source.takeBytes_byteLength ..
  have hdrop : e.source.dropBytes e.stop.offset = e.stop.rest := by
    rw [hbehind, hoffset, Source.dropBytes_byteLength]
  rw [Peg.Pair.parenthesize, hstart, hstop, htake, hdrop, e.start_in.slice_eq e.reads_inside]
  simp [source', stop]

/-- Parentheses are transparent: around any expression of an accepted source they leave the source
accepted, its nodes with the same numbers, rules and children, and the tokens among them with the
same text. -/
theorem parse_parenthesizes {source : Source} {t : Tree} {pairs : List (Pair Rule)} {q : Pair Rule}
    (h : Tree.parse source = .ok t) (hpairs : Rule.file.match? source = .ok pairs)
    (hq : q ∈ Pair.preorderAll pairs) (hexpr : q.rule = .expr) :
    ∃ t', Tree.parse (q.parenthesize source) = .ok t' ∧
      List.Forall₂ (fun n n' => n'.id = n.id ∧ n'.rule = n.rule ∧
        n'.children.map Node.id = n.children.map Node.id ∧
        ((Rule.production n.rule).tight = true → t'.text n' = t.text n)) t.nodes t'.nodes := by
  obtain ⟨raw, after, -, hfile, -, -⟩ := Tree.isOf_of_parse h
  obtain rfl : pairs = [raw] := by
    rw [Rule.match?, reply_eq_answer, hfile] at hpairs
    exact (Except.ok.inj hpairs).symm
  obtain ⟨e, rfl, -, hstart, hstop⟩ := exists_place hfile hq hexpr
  rw [Place.parenthesize_eq hstart hstop]
  have hmatch {p : Pair Rule} {after' : Cursor}
      (hfile' : grammar.answer false (.rule .file) (.ofText e.source) = .ok [p] after') :
      ∃ p' after', grammar.answer false (.rule .file) (.ofText e.source') = .ok [p'] after' ∧
        List.Forall₂ (Pair.Alike (SameText e.source e.source')) (prune p).toList
          (prune p').toList := by
    obtain ⟨hraw, -⟩ := Reply.ok.inj (hfile.symm.trans hfile')
    cases hraw
    exact e.answer_file hfile hq hexpr hstart hstop
  obtain ⟨t', hparse, hsource, hnodes⟩ := Tree.parse_pruned_alike h hmatch
  exact ⟨t', hparse, Tree.tokens_alike h hsource hnodes⟩

theorem parse_parenthesizes_condition :
    ∃ t pairs q t', Tree.parse "fn f(){if a<b {c();}}".toList = .ok t ∧
      Rule.file.match? "fn f(){if a<b {c();}}".toList = .ok pairs ∧
      q ∈ Pair.preorderAll pairs ∧ q.rule = .expr ∧
      Tree.parse "fn f(){if (a<b ){c();}}".toList = .ok t' ∧
      t'.nodes.map Node.id = t.nodes.map Node.id := by
  have hok : (Tree.parse "fn f(){if a<b {c();}}".toList).toBool = true := by decide +kernel
  have hfound : (Rule.file.match? "fn f(){if a<b {c();}}".toList).toOption.map (fun pairs =>
      decide (∃ q ∈ Pair.preorderAll pairs, q.rule = .expr ∧ q.start = 10 ∧ q.stop = 14)) =
        some true := by
    decide +kernel
  obtain ⟨t, h⟩ := exists_eq_ok hok
  cases hpairs : Rule.file.match? "fn f(){if a<b {c();}}".toList with
  | error e =>
      rw [hpairs] at hfound
      exact nomatch hfound
  | ok pairs =>
      rw [hpairs] at hfound
      obtain ⟨q, hq, hexpr, hstart, hstop⟩ := of_decide_eq_true (Option.some.inj hfound)
      obtain ⟨t', hparse, hnodes⟩ := parse_parenthesizes h hpairs hq hexpr
      refine ⟨t, pairs, q, t', h, rfl, hq, hexpr, ?_, ?_⟩
      · rw [← hparse, Peg.Pair.parenthesize, hstart, hstop]
        rfl
      · rw [← List.forall₂_eq_eq_eq, List.forall₂_map_left_iff, List.forall₂_map_right_iff]
        exact hnodes.flip.imp fun _ _ hn => hn.1

end XiFront

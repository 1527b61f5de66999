import XiFront.Proofs.Grammar.Termination
import XiFront.Proofs.Parse.Diagnostics
import XiFront.Proofs.Peg.Entry
import XiFront.Proofs.Tree.Position

namespace XiFront

open Peg

namespace Peg.Grammar

variable {g : Grammar ρ}

/-- The rule of the pair was entered where the pair begins. -/
def Entered (I : Call ρ → Prop) (p : Pair ρ) : Prop :=
  ∃ c, I ⟨false, .rule p.rule, c⟩ ∧ p.start = c.offset

/-- The induction is along the calls, which need not be structural: a rule calls its body. -/
theorem every_entered {I : Call ρ → Prop} (hI : g.Handed I) {q : Call ρ}
    (hacc : Acc (g.CalledBy g.answer) q) (hq : I q) {ps : List (Pair ρ)} {after : Cursor}
    (h : q.reply g.answer = .ok ps after) : ∀ p ∈ ps, p.Every (Entered I) := by
  induction hacc generalizing ps after with
  | intro q _ ih =>
      obtain ⟨tight, e, c⟩ := q
      have hcall {tight' : Bool} {e' : Expr ρ} {d d' : Cursor} {qs : List (Pair ρ)}
          (hd : g.CalledBy g.answer ⟨tight', e', d⟩ ⟨tight, e, c⟩)
          (hok : g.answer tight' e' d = .ok qs d') : ∀ p ∈ qs, p.Every (Entered I) :=
        ih _ hd (hI _ _ hd hq) hok
      have hround : g.round g.answer tight e c = .ok ps after := by
        rw [← answer_eq_round]
        exact h
      have hcases := round_eq_ok hround
      cases e with
      | text chars =>
          rw [hcases.1]
          exact nofun
      | char set =>
          rw [hcases.1]
          exact nofun
      | start =>
          rw [hcases.1]
          exact nofun
      | finish =>
          rw [hcases.1]
          exact nofun
      | rule r =>
          obtain ⟨cs, hbody, hps⟩ := hcases
          have hcs := hcall .body hbody
          split at hps
          · next hpair =>
              have hloose : tight = false := by
                rw [Bool.and_eq_true, Bool.not_eq_true'] at hpair
                exact hpair.1
              rw [hps, List.forall_mem_singleton]
              exact .node ⟨c, hloose ▸ hq, rfl⟩ hcs
          · rw [hps]
            exact hcs
      | seq a b =>
          obtain ⟨ps₁, c₁, ps₂, c₂, ps₃, h₁, h₂, h₃, rfl⟩ := hcases
          exact List.forall_mem_append.mpr ⟨hcall .first h₁, hcall (.second h₁ h₂) h₃⟩
      | alt a b =>
          obtain h₁ | ⟨hfail, h₁⟩ := hcases
          · exact hcall .preferred h₁
          · exact hcall (.otherwise hfail) h₁
      | opt a =>
          obtain h₁ | ⟨-, rfl, -⟩ := hcases
          · exact hcall .optional h₁
          · exact nofun
      | star a =>
          obtain ⟨ps₁, c₁, ps₂, h₁, h₂, rfl⟩ | ⟨-, rfl, -⟩ := hcases
          · exact List.forall_mem_append.mpr ⟨hcall .once h₁, hcall (.again h₁) h₂⟩
          · exact nofun
      | more a =>
          obtain ⟨ps₁, c₁, ps₂, c₂, ps₃, h₁, h₂, h₃, rfl⟩ | ⟨rfl, -⟩ := hcases
          · exact List.forall_mem_append.mpr ⟨hcall (.next h₁) h₂, hcall (.further h₁ h₂) h₃⟩
          · exact nofun
      | neg a =>
          obtain ⟨-, rfl, -⟩ := hcases
          exact nofun

end Peg.Grammar

theorem IsFirm.of_append {a b : List Char} (h : IsFirm (a ++ b)) : IsFirm a := by
  constructor
  · intro c hc
    obtain ⟨cs, rfl⟩ := List.head?_eq_some_iff.mp hc
    exact h.blank c rfl
  · rintro (⟨r, rfl⟩ | ⟨body, r, rfl⟩)
    · exact h.comment (.inl ⟨r ++ b, rfl⟩)
    · exact h.comment (.inr ⟨body, r ++ b, by simp⟩)

theorem isFirm_of_filler {c c' : Cursor} {ps : List (Pair Rule)}
    (h : grammar.answer true grammar.filler c = .ok ps c') : IsFirm c'.rest := by
  obtain ⟨s, hs⟩ := Grammar.takes_of_answer h
  exact (takes_filler.mp hs).2.firm

theorem answer_filler_of_isFirm {c : Cursor} (h : IsFirm c.rest) :
    grammar.answer true grammar.filler c = .ok [] c :=
  (takes_filler.mpr ⟨.refl c, .stop h⟩).1

theorem fails_of_not_takes {r : Rule} {c : Cursor}
    (h : ∀ s c', ¬grammar.Takes (.rule r) c s c') : grammar.answer true (.rule r) c = .fail := by
  cases hanswer : grammar.answer true (.rule r) c with
  | stuck => exact absurd hanswer (ranking.answer_ne_stuck (fits_rule true r) c)
  | fail => rfl
  | ok ps c' =>
      obtain ⟨s, hs⟩ := Grammar.takes_of_answer hanswer
      exact absurd hs (h s c')

theorem reply_eq_fail_iff {r : Rule} (htight : (grammar.production r).tight = true)
    {text : Source} :
    grammar.reply r text = .fail ↔ grammar.answer true (.rule r) (.ofText text) = .fail := by
  rw [reply_eq_answer, Grammar.answer_rule_loose, Reply.close_eq_fail_iff, htight,
    Grammar.answer_rule_tight]

/-- A text is firm where the grammar finds neither a blank nor a comment at its beginning. -/
theorem isFirm_iff_reply {text : Source} :
    IsFirm text ↔ grammar.reply .whitespace text = .fail ∧ grammar.reply .comment text = .fail := by
  rw [reply_eq_fail_iff rfl, reply_eq_fail_iff rfl]
  constructor
  · intro h
    refine ⟨fails_of_not_takes fun s c' hs => ?_, fails_of_not_takes fun s c' hs => ?_⟩
    · obtain ⟨hne, hblank⟩ := takes_whitespace hs
      obtain ⟨x, xs, rfl⟩ := List.exists_cons_of_ne_nil hne
      have htext : text = x :: (xs ++ c'.rest) := hs.2.rest
      rw [htext] at h
      exact nomatch (hblank x List.mem_cons_self).symm.trans h.not_blank
    · have htext : text = s ++ c'.rest := hs.2.rest
      rw [htext] at h
      obtain ⟨body, rfl, -⟩ | ⟨body, rfl, -⟩ := takes_comment hs
      · exact h.comment (.inl ⟨body ++ c'.rest, rfl⟩)
      · exact h.comment (.inr ⟨body, c'.rest, by simp⟩)
  · rintro ⟨hblank, hcomment⟩
    exact ⟨(stopsAt_of_whitespace hblank).head?, not_opensComment_of_fail hcomment⟩

/-- In the calls from the body of a file on, a rule is entered where no filler comes next. -/
def Rule.FileCall (source : Source) (q : Call Rule) : Prop :=
  q.cursor.In source ∧
    (q.expr = (grammar.production .file).body ∨ q.expr = .start ∨
      Grammar.Ready (fun c => IsFirm c.rest) q)

theorem handed_fileCall (source : Source) : grammar.Handed (Rule.FileCall source) := by
  intro p q hcall hp
  obtain ⟨hin, hplace⟩ := hp
  refine ⟨Grammar.handed_in grammar source p q hcall hin, ?_⟩
  have hfiller : ∀ c ps c', grammar.answer true grammar.filler c = .ok ps c' → IsFirm c'.rest :=
    fun _ _ _ h => isFirm_of_filler h
  have hbody : (grammar.production .file).body =
      .seq .start (.seq (.star (.rule .item)) (.rule .endOfInput)) := rfl
  obtain hfile | hstart | hready := hplace
  · rw [hbody] at hfile
    cases hcall with
    | first =>
        cases hfile
        exact .inr (.inl rfl)
    | between => exact .inr (.inr (.inl rfl))
    | second _ hskip => exact .inr (.inr (Grammar.ready_of_skip hfiller hskip))
    | _ => exact nomatch hfile
  · cases hcall <;> exact nomatch hstart
  · exact .inr (.inr (Grammar.handed_ready hfiller p q hcall hready))

theorem Rule.FileCall.firm {source : Source} {r : Rule} {c : Cursor}
    (h : Rule.FileCall source ⟨false, .rule r, c⟩) : IsFirm c.rest := by
  obtain ⟨-, hfile | hstart | hready⟩ := h
  · exact nomatch hfile
  · exact nomatch hstart
  · exact (hready.place nofun).resolve_left Bool.false_ne_true

/-- The first call of a file is not ready: the file begins where the source does. -/
theorem fileCall_body (source : Source) :
    Rule.FileCall source ⟨false, (grammar.production .file).body, .ofText source⟩ :=
  ⟨.ofText source, .inl rfl⟩

theorem Rule.FileCall.dropBytes {source : Source} {q : Call Rule} (h : Rule.FileCall source q) :
    source.dropBytes q.cursor.offset = q.cursor.rest :=
  (congrArg Cursor.rest h.1.eq_ofOffset).symm

theorem keeps_trace (source : Source) :
    Keeps grammar .trace (Rule.FileCall source)
      fun visits => ∀ v ∈ visits, IsFirm (source.dropBytes v.offset) where
  handed := handed_fileCall source
  visit hcall _ hafter := by
    refine List.forall_mem_cons.mpr ⟨?_, hafter⟩
    rw [hcall.dropBytes]
    exact hcall.firm

namespace Tree

variable {source : Source} {t : Tree} {n : Node}

theorem rule_ne_file (h : Tree.parse source = .ok t) (hn : n ∈ t.nodes) (hne : n ≠ t.root) :
    n.rule ≠ .file := by
  have hfull := (Tree.wellFormed_of_parse h).1.not_isEmpty hn hne
  intro hr
  rw [hr] at hfull
  exact nomatch hfull

theorem exists_fileCall (h : Tree.parse source = .ok t) (hn : n ∈ t.nodes) (hne : n ≠ t.root) :
    ∃ c, Rule.FileCall source ⟨false, .rule n.rule, c⟩ ∧ n.start = c.offset := by
  have hfile := rule_ne_file h hn hne
  obtain ⟨p, after, q, hanswer, hprune, rfl⟩ := Tree.isOf_of_parse h
  rw [Grammar.answer_rule_loose] at hanswer
  obtain ⟨cs, hbody, hp⟩ := Reply.close_eq_ok_iff.mp hanswer
  cases hp
  have hacc : Acc (grammar.CalledBy grammar.answer) (.begin .file source) :=
    ranking.acc_called (fits_rule false .file)
  have hcs :=
    Grammar.every_entered (handed_fileCall source) (hacc.inv .body) (fileCall_body source) hbody
  have hevery : Pair.Every
      (fun p => p.rule = .file ∨ Grammar.Entered (Rule.FileCall source) p)
      (.node .file 0 after.offset cs) :=
    .node (.inl rfl) fun c hc => (hcs c hc).mono fun _ => .inr
  obtain ⟨q', next, hq', rfl⟩ :=
    Node.exists_pair_of_mem_preorder (hevery.of_prune (fun hr => hr) hprune) (mem_nodes.mp hn)
  rw [Node.rule_ofPair] at hfile ⊢
  rw [Node.start_ofPair]
  exact hq'.resolve_left hfile

theorem isFirm_text (h : Tree.parse source = .ok t) (hn : n ∈ t.nodes) (hne : n ≠ t.root) :
    IsFirm (source.dropBytes n.start) ∧ IsFirm (n.text source) := by
  obtain ⟨c, hcall, hstart⟩ := exists_fileCall h hn hne
  have hfirm : IsFirm (source.dropBytes n.start) := by
    rw [hstart, hcall.dropBytes]
    exact hcall.firm
  refine ⟨hfirm, ?_⟩
  rw [Node.text, Source.slice]
  rw [← Source.takeBytes_append_dropBytes (n.stop - n.start) (source.dropBytes n.start)] at hfirm
  exact hfirm.of_append

theorem text_ne_nil (h : Tree.parse source = .ok t) (hn : n ∈ t.nodes) (hne : n ≠ t.root) :
    n.text source ≠ [] := by
  obtain ⟨-, rfl⟩ := Tree.wellFormed_of_parse h
  obtain ⟨before, text, after, hsource, htext, -, hstart, hstop⟩ := exists_text_of_parse h hn hne
  rwa [Node.text, Source.slice, hstart, hstop, Source.byteLength_append, Nat.add_sub_cancel_left,
    hsource, List.append_assoc, Source.dropBytes_byteLength, Source.takeBytes_byteLength]

/-- While a file is read, all rules but that of the file are entered where neither a blank nor a
comment comes next.  So of an accepted source every node but the root has a text that begins with
neither, and its position is that of its first token: no filler is skipped to get there. -/
theorem nodes_start_at_token (source : Source) :
    (∃ reply entry others,
      grammar.observed .trace .file source [] = (reply, entry :: others) ∧
        entry.rule = .file ∧ entry.offset = 0 ∧
        ∀ v ∈ others, grammar.reply .whitespace (source.dropBytes v.offset) = .fail ∧
          grammar.reply .comment (source.dropBytes v.offset) = .fail) ∧
    ∀ t, Tree.parse source = .ok t → ∀ n ∈ t.nodes, n ≠ t.root →
      n.text source ≠ [] ∧ grammar.reply .whitespace (n.text source) = .fail ∧
        grammar.reply .comment (n.text source) = .fail ∧
        ∃ c, grammar.answer true grammar.filler (.ofOffset source n.start) = .ok [] c ∧
          n.position = .ofOffset source c.offset := by
  constructor
  · obtain ⟨fuel, hfuel⟩ := fuel_eq source
    let body := grammar.run .trace (fuel + 2) ⟨false, false⟩ (grammar.production .file).body
      (.ofText source) []
    have hvisits : ∀ v ∈ body.2, IsFirm (source.dropBytes v.offset) :=
      (keeps_trace source).run (fuel + 2) (fileCall_body source) nofun
    have hobserved : grammar.observed .trace .file source [] =
        (body.1.close .file true 0, ⟨.file, true, 0, false, body.1.matched⟩ :: body.2) := by
      rw [Grammar.observed, hfuel]
      rfl
    exact ⟨_, _, _, hobserved, rfl, rfl, fun v hv => isFirm_iff_reply.mp (hvisits v hv)⟩
  · intro t h n hn hne
    obtain ⟨hrest, htext⟩ := isFirm_text h hn hne
    obtain ⟨hblank, hcomment⟩ := isFirm_iff_reply.mp htext
    refine ⟨text_ne_nil h hn hne, hblank, hcomment, .ofOffset source n.start, ?_, ?_⟩
    · exact answer_filler_of_isFirm hrest
    · exact position_of_parse h hn

/-- A comment in front of everything, and another one that the path keeps at its end. -/
theorem nodes_start_at_token_use :
    ∃ t n, Tree.parse "//c\n use a::b /**/;".toList = .ok t ∧
      n ∈ t.nodes ∧ n ≠ t.root ∧ n.start = 9 ∧
      grammar.reply .whitespace (n.text "//c\n use a::b /**/;".toList) = .fail ∧
      grammar.reply .comment (n.text "//c\n use a::b /**/;".toList) = .fail ∧
      n.position = .ofOffset "//c\n use a::b /**/;".toList 9 := by
  have hstarts : (Tree.parse "//c\n use a::b /**/;".toList).toOption.map
      (fun t => t.nodes.map Node.start) = some [0, 5, 9, 9, 9, 12, 12] := by
    decide +kernel
  obtain ⟨t, h, hmap⟩ := exists_parse_of_map hstarts
  have hnine : 9 ∈ t.nodes.map Node.start := by rw [hmap]; decide
  obtain ⟨n, hn, hstart⟩ := List.mem_map.mp hnine
  have hne : n ≠ t.root := by
    rintro rfl
    rw [(isOf_of_parse h).start_root] at hstart
    exact nomatch hstart
  obtain ⟨-, hblank, hcomment, c, hskip, hposition⟩ := (nodes_start_at_token _).2 t h n hn hne
  have hstay := hskip.symm.trans (answer_filler_of_isFirm (isFirm_text h hn hne).1)
  cases hstay
  rw [hstart] at hposition
  exact ⟨t, n, h, hn, hne, hstart, hblank, hcomment, hposition⟩

end Tree

end XiFront

import XiFront.Proofs.Grammar.Items

namespace XiFront

open Peg

/-- An expression as grammars are written: `more` does not occur in it, and what it repeats reads
something. -/
def Peg.Expr.isWritten : Expr Rule → Bool
  | .text _ | .char _ | .start | .finish | .rule _ => true
  | .seq a b | .alt a b => a.isWritten && b.isWritten
  | .opt a | .neg a => a.isWritten
  | .star a => !a.nullable Rule.isEmpty && a.isWritten
  | .more _ => false

theorem written_body : ∀ r ∈ Rule.all, (Rule.production r).body.isWritten = true := by
  decide +kernel

/-- The expression matches from the one cursor to the other and leaves the pairs. -/
inductive Derives : Expr Rule → Cursor → List (Pair Rule) → Cursor → Prop
  | text {chars : List Char} {c d : Cursor} (h : c.Reads chars d) : Derives (.text chars) c [] d
  | char {set : Charset} {y : Char} {c d : Cursor} (hy : set.contains y = true)
      (h : c.Reads [y] d) : Derives (.char set) c [] d
  | start {c : Cursor} (h : c.offset = 0) : Derives .start c [] c
  | finish {c : Cursor} (h : c.rest = []) : Derives .finish c [] c
  | token {r : Rule} {c d : Cursor} {ps : List (Pair Rule)}
      (htight : (Rule.production r).tight = true)
      (h : grammar.answer false (.rule r) c = .ok ps d) : Derives (.rule r) c ps d
  | rule {r : Rule} {c d : Cursor} {cs : List (Pair Rule)}
      (hloose : (Rule.production r).tight = false) (h : Derives (Rule.production r).body c cs d) :
      Derives (.rule r) c
        (if (Rule.production r).leavesPair then [.node r c.offset d.offset cs] else cs) d
  | seq {a b : Expr Rule} {c d n e : Cursor} {ps qs : List (Pair Rule)} (ha : Derives a c ps d)
      (hskip : grammar.answer true filler d = .ok [] n) (hb : Derives b n qs e) :
      Derives (.seq a b) c (ps ++ qs) e
  | first {a b : Expr Rule} {c d : Cursor} {ps : List (Pair Rule)} (ha : Derives a c ps d) :
      Derives (.alt a b) c ps d
  | second {a b : Expr Rule} {c d : Cursor} {ps : List (Pair Rule)}
      (hfail : grammar.answer false a c = .fail) (hb : Derives b c ps d) :
      Derives (.alt a b) c ps d
  | some {a : Expr Rule} {c d : Cursor} {ps : List (Pair Rule)} (ha : Derives a c ps d) :
      Derives (.opt a) c ps d
  | none {a : Expr Rule} {c : Cursor} (hfail : grammar.answer false a c = .fail) :
      Derives (.opt a) c [] c
  | done {a : Expr Rule} {c : Cursor} (hfail : grammar.answer false a c = .fail) :
      Derives (.star a) c [] c
  | last {a : Expr Rule} {c d n : Cursor} {ps : List (Pair Rule)} (ha : Derives a c ps d)
      (hskip : grammar.answer true filler d = .ok [] n)
      (hfail : grammar.answer false a n = .fail) : Derives (.star a) c ps d
  | turn {a : Expr Rule} {c d n e : Cursor} {ps qs : List (Pair Rule)} (ha : Derives a c ps d)
      (hskip : grammar.answer true filler d = .ok [] n)
      (hrest : Derives (.star a) n qs e) (hne : e ≠ n) : Derives (.star a) c (ps ++ qs) e
  | neg {a : Expr Rule} {c : Cursor} (hfail : grammar.answer false a c = .fail) :
      Derives (.neg a) c [] c

theorem exists_skip (c : Cursor) : ∃ n, grammar.answer true filler c = .ok [] n := by
  obtain ⟨_, n, hn⟩ := exists_takes_filler c
  exact ⟨n, hn.1⟩

theorem skip_eq_nil {c n : Cursor} {ps : List (Pair Rule)}
    (h : grammar.answer true grammar.filler c = .ok ps n) :
    grammar.answer true filler c = .ok [] n := by
  cases Grammar.answer_tight h
  exact h

theorem answer_more_eq_star {a : Expr Rule} {c n : Cursor}
    (hskip : grammar.answer true filler c = .ok [] n) (hnext : grammar.answer false a n ≠ .fail) :
    grammar.answer false (.more a) c = grammar.answer false (.star a) n := by
  have hskip' : grammar.answer true grammar.filler c = .ok [] n := hskip
  rw [Grammar.answer_more, Grammar.answer_star, Grammar.skip_loose, hskip', Reply.resume_ok]
  cases hreply : grammar.answer false a n with
  | stuck => rfl
  | fail => exact absurd hreply hnext
  | ok ps d => rfl

theorem ne_stuck_of_written {e : Expr Rule} (he : e.isWritten = true) (c : Cursor) :
    grammar.answer false e c ≠ .stuck := by
  induction e generalizing c with
  | text chars =>
      rw [Grammar.answer_text]
      exact Reply.ofOption_ne_stuck _
  | char set =>
      rw [Grammar.answer_char]
      exact Reply.ofOption_ne_stuck _
  | start =>
      rw [Grammar.answer_start]
      split <;> exact nofun
  | finish =>
      rw [Grammar.answer_finish]
      split <;> exact nofun
  | rule r => exact answer_rule_ne_stuck r c
  | seq a b iha ihb =>
      obtain ⟨ha, hb⟩ := Bool.and_eq_true_iff.mp he
      rw [Grammar.answer_seq]
      refine Reply.resume_ne_stuck (iha ha c) (fun ps d _ => ?_) fun _ => nofun
      obtain ⟨n, hskip⟩ := exists_skip d
      have hskip' : grammar.answer true grammar.filler d = _ := hskip
      rw [Grammar.skip_loose, hskip', Reply.resume_ok]
      exact Reply.prepend_ne_stuck (ihb hb n) ps
  | alt a b iha ihb =>
      obtain ⟨ha, hb⟩ := Bool.and_eq_true_iff.mp he
      rw [Grammar.answer_alt]
      exact Reply.resume_ne_stuck (iha ha c) (fun _ _ _ => nofun) fun _ => ihb hb c
  | opt a ih =>
      rw [Grammar.answer_opt]
      exact Reply.resume_ne_stuck (ih he c) (fun _ _ _ => nofun) fun _ => nofun
  | star a ih =>
      obtain ⟨hnull, ha⟩ := Bool.and_eq_true_iff.mp he
      -- What is repeated reads something, so that the next turn is in front of less text.
      induction hlength : c.rest.length using Nat.strongRecOn generalizing c with
      | ind length ihlength =>
          rw [Grammar.answer_star]
          refine Reply.resume_ne_stuck (ih ha c) (fun ps d hok => ?_) fun _ => nofun
          obtain ⟨n, hskip⟩ := exists_skip d
          refine Reply.prepend_ne_stuck ?_ ps
          by_cases hfail : grammar.answer false a n = .fail
          · have hskip' : grammar.answer true grammar.filler d = _ := hskip
            rw [Grammar.answer_more, Grammar.skip_loose, hskip', Reply.resume_ok, hfail,
              Reply.resume_fail]
            exact nofun
          · rw [answer_more_eq_star hskip hfail]
            obtain ⟨s, hs, hne⟩ := answer_reads_something ((Bool.not_eq_true' _).mp hnull) hok
            obtain ⟨t, ht⟩ := Grammar.answer_reads hskip
            have hpos := List.length_pos_iff.mpr hne
            have hshort := hs.length
            have hshort' := ht.length
            exact ihlength n.rest.length (by omega) n rfl
  | more a => exact nomatch he
  | neg a ih =>
      rw [Grammar.answer_neg]
      exact Reply.resume_ne_stuck (ih he c) (fun _ _ _ => nofun) fun _ => nofun

namespace Derives

variable {a b e : Expr Rule} {c d n : Cursor} {ps qs : List (Pair Rule)}

theorem answer (h : Derives e c ps d) : grammar.answer false e c = .ok ps d := by
  induction h with
  | text h => exact Grammar.answer_text_eq_ok_iff.mpr ⟨rfl, h⟩
  | char hy h => exact Grammar.answer_char_eq_ok_iff.mpr ⟨rfl, _, hy, h⟩
  | start h => rw [Grammar.answer_start, if_pos h]
  | finish h => rw [Grammar.answer_finish, if_pos (List.isEmpty_iff.mpr h)]
  | token _ h => exact h
  | rule hloose _ ih => exact (Grammar.answer_rule_eq_ok_iff hloose).mpr ⟨_, ih, rfl⟩
  | seq _ hskip _ iha ihb =>
      exact Grammar.answer_seq_eq_ok_iff.mpr ⟨_, _, _, _, _, iha, hskip, ihb, rfl⟩
  | first _ ih => exact Grammar.answer_alt_eq_ok_iff.mpr (.inl ih)
  | second hfail _ ih => exact Grammar.answer_alt_eq_ok_iff.mpr (.inr ⟨hfail, ih⟩)
  | some _ ih => rw [Grammar.answer_opt, ih, Reply.resume_ok]
  | none hfail => rw [Grammar.answer_opt, hfail, Reply.resume_fail]
  | done hfail => rw [Grammar.answer_star, hfail, Reply.resume_fail]
  | last _ hskip hfail ih =>
      have hskip' : grammar.answer true grammar.filler _ = _ := hskip
      rw [Grammar.answer_star, ih, Reply.resume_ok, Grammar.answer_more, Grammar.skip_loose, hskip',
        Reply.resume_ok, hfail, Reply.resume_fail, Reply.prepend_ok, List.append_nil]
  | turn _ hskip _ hne ih ihrest =>
      rw [Grammar.answer_star, ih, Reply.resume_ok, answer_more_eq_star hskip, ihrest,
        Reply.prepend_ok]
      intro hfail
      rw [Grammar.answer_star, hfail, Reply.resume_fail] at ihrest
      exact hne (Reply.ok.inj ihrest).2.symm
  | neg hfail => rw [Grammar.answer_neg, hfail, Reply.resume_fail]

theorem of_rounds (fuel : Nat) :
    (∀ {e c ps d}, e.isWritten = true → grammar.rounds fuel false e c = .ok ps d →
      Derives e c ps d) ∧
    ∀ {a c₀ ps c qs d}, (Expr.star a).isWritten = true → Derives a c₀ ps c →
      grammar.rounds fuel false (.more a) c = .ok qs d → Derives (.star a) c₀ (ps ++ qs) d := by
  -- A further turn is given the derivation of those before it, which it prolongs at the end.
  induction fuel with
  | zero => exact ⟨nofun, nofun⟩
  | succ fuel ih =>
      obtain ⟨ih, ihMore⟩ := ih
      constructor
      · intro e c ps d he h
        have hcases := Grammar.round_eq_ok h
        cases e with
        | text chars =>
            obtain ⟨rfl, hread⟩ := hcases
            exact .text hread
        | char set =>
            obtain ⟨rfl, y, hy, hread⟩ := hcases
            exact .char hy hread
        | start =>
            obtain ⟨rfl, rfl, hstart⟩ := hcases
            exact .start hstart
        | finish =>
            obtain ⟨rfl, rfl, hend⟩ := hcases
            exact .finish hend
        | rule r =>
            cases htight : (Rule.production r).tight with
            | true => exact .token htight (Grammar.answer_of_rounds h)
            | false =>
                obtain ⟨cs, hcs, rfl⟩ := hcases
                have hloose : (grammar.production r).tight = false := htight
                rw [hloose] at hcs
                exact .rule htight (ih (written_body r r.mem_all) hcs)
        | seq a b =>
            obtain ⟨ha, hb⟩ := Bool.and_eq_true_iff.mp he
            obtain ⟨ps₁, c₁, ps₂, c₂, ps₃, h₁, h₂, h₃, rfl⟩ := hcases
            exact .seq (ih ha h₁) (skip_eq_nil (Grammar.answer_of_rounds h₂)) (ih hb h₃)
        | alt a b =>
            obtain ⟨ha, hb⟩ := Bool.and_eq_true_iff.mp he
            rcases hcases with h₁ | ⟨h₁, h₂⟩
            · exact .first (ih ha h₁)
            · exact .second (Grammar.answer_eq_of_rounds (h₁ ▸ nofun) |>.trans h₁) (ih hb h₂)
        | opt a =>
            rcases hcases with h₁ | ⟨h₁, rfl, rfl⟩
            · exact .some (ih he h₁)
            · exact .none (Grammar.answer_eq_of_rounds (h₁ ▸ nofun) |>.trans h₁)
        | star a =>
            rcases hcases with ⟨ps₁, c₁, ps₂, h₁, h₂, rfl⟩ | ⟨h₁, rfl, rfl⟩
            · exact ihMore he (ih (Bool.and_eq_true_iff.mp he).2 h₁) h₂
            · exact .done (Grammar.answer_eq_of_rounds (h₁ ▸ nofun) |>.trans h₁)
        | more a => exact nomatch he
        | neg a =>
            obtain ⟨h₁, rfl, rfl⟩ := hcases
            exact .neg (Grammar.answer_eq_of_rounds (h₁ ▸ nofun) |>.trans h₁)
      · intro a c₀ ps c qs d ha hfirst h
        obtain ⟨n, hskip⟩ := exists_skip c
        rcases Reply.resume_eq_ok_iff.mp h with ⟨hnone, -⟩ | ⟨skipped, n', hskip', hnext⟩
        · have hfail : grammar.rounds fuel true filler c = .fail := hnone
          have hanswer := (Grammar.answer_eq_of_rounds (hfail ▸ nofun)).trans hfail
          exact nomatch hanswer.symm.trans hskip
        · have hskip' := skip_eq_nil (Grammar.answer_of_rounds hskip')
          rcases Reply.resume_eq_ok_iff.mp hnext with ⟨hfail, hend⟩ | ⟨ps', c', hbody, hmore⟩
          · obtain ⟨rfl, rfl⟩ := Reply.ok.inj hend
            rw [List.append_nil]
            exact .last hfirst hskip' (Grammar.answer_eq_of_rounds (hfail ▸ nofun) |>.trans hfail)
          · obtain ⟨rs, hrest, rfl⟩ := Reply.prepend_eq_ok_iff.mp hmore
            obtain ⟨hnull, hwritten⟩ := Bool.and_eq_true_iff.mp ha
            refine .turn hfirst hskip' (ihMore ha (ih hwritten hbody) hrest) ?_
            obtain ⟨s, hs, hne⟩ :=
              answer_reads_something ((Bool.not_eq_true' _).mp hnull)
                (Grammar.answer_of_rounds hbody)
            obtain ⟨r, hr⟩ := Grammar.rounds_reads hrest
            rintro rfl
            exact hne (List.append_eq_nil_iff.mp ((hs.trans hr).unique (.refl _))).1

theorem of_answer (he : e.isWritten = true) (h : grammar.answer false e c = .ok ps d) :
    Derives e c ps d := by
  obtain ⟨fuel, hfuel⟩ := grammar.settles_rounds false e c
  exact (of_rounds fuel).1 he ((hfuel fuel (Nat.le_refl fuel)).trans h)

theorem of_rule {r : Rule} (h : grammar.answer false (.rule r) c = .ok ps d) :
    Derives (.rule r) c ps d :=
  of_answer rfl h

theorem reads (h : Derives e c ps d) : ∃ s, c.Reads s d :=
  Grammar.answer_reads h.answer

end Derives

end XiFront

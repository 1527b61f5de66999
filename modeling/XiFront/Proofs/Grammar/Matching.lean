import XiFront.Proofs.Grammar.Derivation

namespace XiFront

open Peg

def FailsAt (e : Expr Rule) (c : Cursor) : Prop :=
  grammar.answer false e c = .fail

def Matches (e : Expr Rule) (c d : Cursor) : Prop :=
  ∃ ps, grammar.answer false e c = .ok ps d

namespace Matches

variable {a b e : Expr Rule} {c d n m : Cursor} {r : Rule}

theorem unique (h : Matches e c d) (h' : Matches e c n) : d = n := by
  obtain ⟨ps, h⟩ := h
  obtain ⟨qs, h'⟩ := h'
  exact (Reply.ok.inj (h.symm.trans h')).2

theorem not_fails (h : Matches e c d) : ¬FailsAt e c := by
  obtain ⟨ps, h⟩ := h
  exact fun hfail => nomatch h.symm.trans hfail

theorem reads (h : Matches e c d) : ∃ s, c.Reads s d := by
  obtain ⟨ps, h⟩ := h
  exact Grammar.answer_reads h

theorem seq_iff : Matches (.seq a b) c m ↔
    ∃ d n, Matches a c d ∧ grammar.answer true filler d = .ok [] n ∧ Matches b n m := by
  constructor
  · rintro ⟨ps, h⟩
    obtain ⟨_, d, _, n, _, ha, hskip, hb, -⟩ := Grammar.answer_seq_eq_ok_iff.mp h
    exact ⟨d, n, ⟨_, ha⟩, skip_eq_nil hskip, _, hb⟩
  · rintro ⟨d, n, ⟨_, ha⟩, hskip, _, hb⟩
    exact ⟨_, Grammar.answer_seq_eq_ok_iff.mpr ⟨_, d, _, n, _, ha, hskip, hb, rfl⟩⟩

theorem alt_iff : Matches (.alt a b) c d ↔ Matches a c d ∨ FailsAt a c ∧ Matches b c d := by
  unfold Matches
  simp only [Grammar.answer_alt_eq_ok_iff, exists_or, exists_and_left]
  rfl

theorem rule_iff (hloose : (Rule.production r).tight = false) :
    Matches (.rule r) c d ↔ Matches (Rule.production r).body c d := by
  constructor
  · rintro ⟨ps, h⟩
    obtain ⟨cs, hcs, -⟩ := (Grammar.answer_rule_eq_ok_iff hloose).mp h
    exact ⟨cs, hcs⟩
  · rintro ⟨cs, hcs⟩
    exact ⟨_, (Grammar.answer_rule_eq_ok_iff hloose).mpr ⟨cs, hcs, rfl⟩⟩

theorem text_iff {chars : List Char} : Matches (.text chars) c d ↔ c.Reads chars d := by
  unfold Matches
  simp only [Grammar.answer_text_eq_ok_iff, exists_and_right, exists_eq, true_and]

theorem opt_iff : Matches (.opt a) c d ↔ Matches a c d ∨ FailsAt a c ∧ d = c := by
  unfold Matches
  rw [Grammar.answer_opt, FailsAt]
  cases grammar.answer false a c <;> simp [eq_comm]

theorem star_of_fails (h : FailsAt a c) : Matches (.star a) c c := by
  refine ⟨[], ?_⟩
  rw [Grammar.answer_star, h, Reply.resume_fail]

theorem star_turn (ha : Matches a c d) (hskip : grammar.answer true filler d = .ok [] n)
    (h : Matches (.star a) n m) :
    ∃ m', Matches (.star a) c m' ∧
      ∀ {k}, grammar.answer true filler m = .ok [] k →
        grammar.answer true filler m' = .ok [] k := by
  obtain ⟨ps, ha⟩ := ha
  obtain ⟨qs, h⟩ := h
  by_cases hfail : FailsAt a n
  · refine ⟨d, ⟨ps ++ [], ?_⟩, fun hk => ?_⟩
    · have hskip' : grammar.answer true grammar.filler d = _ := hskip
      rw [Grammar.answer_star, ha, Reply.resume_ok, Grammar.answer_more, Grammar.skip_loose, hskip',
        Reply.resume_ok, hfail, Reply.resume_fail, Reply.prepend_ok]
    · rw [Grammar.answer_star, hfail, Reply.resume_fail] at h
      obtain ⟨-, rfl⟩ := Reply.ok.inj h
      obtain ⟨-, rfl⟩ := Reply.ok.inj (hk.symm.trans (firm_of_filler hskip))
      exact hskip
  · refine ⟨m, ⟨ps ++ qs, ?_⟩, id⟩
    rw [Grammar.answer_star, ha, Reply.resume_ok, answer_more_eq_star hskip hfail, h,
      Reply.prepend_ok]

end Matches

variable {a b e : Expr Rule} {c d n : Cursor} {r : Rule}

theorem fails_seq_first (ha : FailsAt a c) : FailsAt (.seq a b) c := by
  rw [FailsAt, Grammar.answer_seq, ha, Reply.resume_fail]

theorem fails_seq_second (ha : Matches a c d) (hskip : grammar.answer true filler d = .ok [] n)
    (hb : FailsAt b n) : FailsAt (.seq a b) c := by
  obtain ⟨ps, ha⟩ := ha
  have hskip' : grammar.answer true grammar.filler d = _ := hskip
  rw [FailsAt, Grammar.answer_seq, ha, Reply.resume_ok, Grammar.skip_loose, hskip', Reply.resume_ok,
    hb, Reply.prepend_fail]

/-- Where what follows always matches, the first part decides. -/
theorem fails_seq_iff (hb : ∀ n, ¬FailsAt b n) : FailsAt (.seq a b) c ↔ FailsAt a c := by
  refine ⟨fun h => ?_, fails_seq_first⟩
  unfold FailsAt at h hb ⊢
  rw [Grammar.answer_seq, Reply.resume_eq_fail_iff] at h
  rcases h with ⟨hfail, -⟩ | ⟨ps, d, ha, h⟩
  · exact hfail
  · obtain ⟨n, hskip⟩ := exists_skip d
    have hskip' : grammar.answer true grammar.filler d = _ := hskip
    rw [Grammar.skip_loose, hskip', Reply.resume_ok, Reply.prepend_eq_fail_iff] at h
    exact absurd h (hb n)

theorem fails_alt_iff : FailsAt (.alt a b) c ↔ FailsAt a c ∧ FailsAt b c := by
  unfold FailsAt
  rw [Grammar.answer_alt, Reply.resume_eq_fail_iff]
  simp

theorem not_fails_star (n : Cursor) : ¬FailsAt (.star a) n :=
  grammar.answer_star_ne_fail false a n

theorem not_fails_opt (n : Cursor) : ¬FailsAt (.opt a) n := by
  rw [FailsAt, Grammar.answer_opt]
  cases grammar.answer false a n <;> exact nofun

theorem fails_rule_iff (hloose : (Rule.production r).tight = false) :
    FailsAt (.rule r) c ↔ FailsAt (Rule.production r).body c := by
  have hloose' : (grammar.production r).tight = false := hloose
  rw [FailsAt, FailsAt, Grammar.answer_rule_loose, hloose', Reply.close_eq_fail_iff]
  rfl

theorem fails_tight_iff (htight : (Rule.production r).tight = true) :
    FailsAt (.rule r) c ↔ grammar.answer true (.rule r) c = .fail := by
  have htight' : (grammar.production r).tight = true := htight
  rw [FailsAt, Grammar.answer_rule_loose, htight', Reply.close_eq_fail_iff,
    Grammar.answer_rule_tight]

theorem fails_of_not_matches (he : e.isWritten = true) (h : ∀ d, ¬Matches e c d) : FailsAt e c :=
  Grammar.eq_fail_of_ne_ok (ne_stuck_of_written he c) fun ps d hok => h d ⟨ps, hok⟩

theorem fails_symbol {z y : Char} (hne : z ≠ y) (h : c.Reads [y] d) :
    FailsAt (Rule.symbol z) c := by
  refine fails_of_not_matches rfl fun e hmatch => hne ?_
  exact (List.cons.inj ((Matches.text_iff.mp hmatch).rest.symm.trans h.rest)).1

theorem Peg.Grammar.Apart.fails (h : grammar.Apart a b) (ha : a.isWritten = true)
    (hfirm : IsFirm c.rest) (hb : Matches b c d) : FailsAt a c := by
  refine fails_of_not_matches ha fun e ⟨ps, hok⟩ => ?_
  obtain ⟨qs, hb⟩ := hb
  exact h (answer_filler_firm hfirm) hok hb

end XiFront

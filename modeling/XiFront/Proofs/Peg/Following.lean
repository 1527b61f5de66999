import XiFront.Proofs.Peg.Likeness

/-!
Matches that go through on a second text.  Where an attempt on the first text fails for want of
text, the same attempt on the second may match, so the replies need not be alike.  What matches on
the first text still matches on the second, if the choices in it are between expressions that never
match at the same place.
-/

namespace XiFront.Peg

namespace Grammar

variable {g : Grammar ρ} {a b : Expr ρ} {c c' c₁ c₂ : Cursor} {ps qs rs : List (Pair ρ)}

theorem answer_seq_eq_ok_iff :
    g.answer false (.seq a b) c = .ok rs c' ↔
      ∃ ps c₁ skipped c₂ qs, g.answer false a c = .ok ps c₁ ∧
        g.answer true g.filler c₁ = .ok skipped c₂ ∧ g.answer false b c₂ = .ok qs c' ∧
        rs = ps ++ qs := by
  constructor
  · intro h
    rw [answer_eq_round] at h
    exact round_eq_ok h
  · rintro ⟨ps, c₁, skipped, c₂, qs, hfirst, hskip, hsecond, rfl⟩
    rw [answer_seq, hfirst, Reply.resume_ok, skip_loose, hskip, Reply.resume_ok, hsecond,
      Reply.prepend_ok]

theorem answer_alt_eq_ok_iff :
    g.answer false (.alt a b) c = .ok ps c' ↔
      g.answer false a c = .ok ps c' ∨
        g.answer false a c = .fail ∧ g.answer false b c = .ok ps c' := by
  constructor
  · intro h
    rw [answer_eq_round] at h
    exact round_eq_ok h
  · rintro (h | ⟨hfirst, hsecond⟩)
    · rw [answer_alt, h, Reply.resume_ok]
    · rw [answer_alt, hfirst, Reply.resume_fail, hsecond]

theorem answer_rule_eq_ok_iff {r : ρ} (hloose : (g.production r).tight = false) :
    g.answer false (.rule r) c = .ok ps c' ↔
      ∃ cs, g.answer false (g.production r).body c = .ok cs c' ∧
        ps = if (g.production r).leavesPair then [.node r c.offset c'.offset cs] else cs := by
  rw [answer_rule_loose, hloose]
  exact Reply.close_eq_ok_iff

theorem eq_fail_of_ne_ok {e : Expr ρ} (hstuck : g.answer false e c ≠ .stuck)
    (hok : ∀ ps d, g.answer false e c ≠ .ok ps d) : g.answer false e c = .fail := by
  cases h : g.answer false e c with
  | stuck => exact absurd h hstuck
  | fail => rfl
  | ok ps d => exact absurd h (hok ps d)

/-- The two expressions do not both match at a cursor without filler. -/
def Apart (g : Grammar ρ) (a b : Expr ρ) : Prop :=
  ∀ ⦃c ps d qs e⦄, g.answer true g.filler c = .ok [] c → g.answer false a c = .ok ps d →
    g.answer false b c ≠ .ok qs e

namespace Apart

variable {a' b' : Expr ρ}

theorem alt_right (h : g.Apart a b) (h' : g.Apart a b') : g.Apart a (.alt b b') := by
  intro c ps d qs e hfirm ha hb
  rcases answer_alt_eq_ok_iff.mp hb with hb | ⟨-, hb⟩
  · exact h hfirm ha hb
  · exact h' hfirm ha hb

theorem seq_first (h : g.Apart a b) : g.Apart (.seq a a') (.seq b b') := by
  intro c ps d qs e hfirm ha hb
  obtain ⟨_, _, _, _, _, ha, -⟩ := answer_seq_eq_ok_iff.mp ha
  obtain ⟨_, _, _, _, _, hb, -⟩ := answer_seq_eq_ok_iff.mp hb
  exact h hfirm ha hb

theorem seq_second
    (hfirm : ∀ {c ps d}, g.answer true g.filler c = .ok ps d → g.answer true g.filler d = .ok [] d)
    (h : g.Apart b b') : g.Apart (.seq a b) (.seq a b') := by
  intro c ps d qs e _ ha hb
  obtain ⟨_, c₁, _, c₂, _, hfirst, hskip, hb₁, -⟩ := answer_seq_eq_ok_iff.mp ha
  obtain ⟨_, c₃, _, c₄, _, hfirst', hskip', hb₂, -⟩ := answer_seq_eq_ok_iff.mp hb
  obtain ⟨-, rfl⟩ := Reply.ok.inj (hfirst.symm.trans hfirst')
  obtain ⟨-, rfl⟩ := Reply.ok.inj (hskip.symm.trans hskip')
  exact h (hfirm hskip) hb₁ hb₂

theorem rule {r r' : ρ} (hr : (g.production r).tight = false)
    (hr' : (g.production r').tight = false)
    (h : g.Apart (g.production r).body (g.production r').body) : g.Apart (.rule r) (.rule r') := by
  intro c ps d qs e hfirm ha hb
  obtain ⟨_, ha, -⟩ := (answer_rule_eq_ok_iff hr).mp ha
  obtain ⟨_, hb, -⟩ := (answer_rule_eq_ok_iff hr').mp hb
  exact h hfirm ha hb

end Apart

end Grammar

namespace Likeness

open Grammar

variable {g : Grammar ρ} (k : Likeness g false)

/-- A match on the first text goes through on the second, where it ends at cursors in `E`. -/
def Follows (E : Cursor → Cursor → Prop) (e : Expr ρ) : Prop :=
  ∀ ⦃c c' ps d⦄, k.Begins c c' → g.answer false e c = .ok ps d →
    ∃ ps' d', g.answer false e c' = .ok ps' d' ∧ List.Forall₂ k.Alike ps ps' ∧ E d d'

def Firm : Prop :=
  ∀ ⦃c c'⦄, k.Begins c c' →
    g.answer true g.filler c = .ok [] c ∧ g.answer true g.filler c' = .ok [] c'

variable {k} {E : Cursor → Cursor → Prop} {a b : Expr ρ}

namespace Follows

theorem of_built {e : Expr ρ} (he : e.built k.leaf k.part = true) : k.Follows k.Ends e := by
  intro c c' ps d hc h
  exact (k.agree he c c' hc).exists_ok h

theorem mono {F : Cursor → Cursor → Prop} {e : Expr ρ} (h : k.Follows E e)
    (hEF : ∀ {c c'}, E c c' → F c c') : k.Follows F e := by
  intro c c' ps d hc hok
  obtain ⟨ps', d', hok', hps, hd⟩ := h hc hok
  exact ⟨ps', d', hok', hps, hEF hd⟩

theorem seq (ha : k.Follows k.Ends a) (hb : k.Follows E b) : k.Follows E (.seq a b) := by
  intro c c' rs d hc h
  obtain ⟨ps, c₁, _, c₂, qs, hfirst, hskip, hsecond, rfl⟩ := answer_seq_eq_ok_iff.mp h
  obtain ⟨ps', c₁', hfirst', hps, hc₁⟩ := ha hc hfirst
  obtain ⟨_, c₂', hskip', -, hc₂⟩ := (k.skips hc₁).exists_ok hskip
  obtain ⟨qs', d', hsecond', hqs, hd⟩ := hb hc₂ hsecond
  exact ⟨ps' ++ qs', d',
    answer_seq_eq_ok_iff.mpr ⟨ps', c₁', _, c₂', qs', hfirst', hskip', hsecond', rfl⟩,
    List.rel_append hps hqs, hd⟩

theorem alt (hfirm : k.Firm) (ha : k.Follows E a) (hb : k.Follows E b) (hapart : g.Apart a b)
    (hstuck : ∀ c, g.answer false a c ≠ .stuck) : k.Follows E (.alt a b) := by
  intro c c' ps d hc h
  rcases answer_alt_eq_ok_iff.mp h with h | ⟨-, h⟩
  · obtain ⟨ps', d', h', hps, hd⟩ := ha hc h
    exact ⟨ps', d', answer_alt_eq_ok_iff.mpr (.inl h'), hps, hd⟩
  · obtain ⟨ps', d', h', hps, hd⟩ := hb hc h
    have hfail : g.answer false a c' = .fail :=
      eq_fail_of_ne_ok (hstuck c') fun qs e hok => hapart (hfirm hc).2 hok h'
    exact ⟨ps', d', answer_alt_eq_ok_iff.mpr (.inr ⟨hfail, h'⟩), hps, hd⟩

theorem rule {r : ρ} (hloose : (g.production r).tight = false)
    (hbody : k.Follows E (g.production r).body)
    (hclose : ∀ {c c' d d' ps ps'}, k.Begins c c' → E d d' → List.Forall₂ k.Alike ps ps' →
      k.Alike (.node r c.offset d.offset ps) (.node r c'.offset d'.offset ps')) :
    k.Follows E (.rule r) := by
  intro c c' ps d hc h
  obtain ⟨cs, hcs, rfl⟩ := (answer_rule_eq_ok_iff hloose).mp h
  obtain ⟨cs', d', hcs', hps, hd⟩ := hbody hc hcs
  refine ⟨_, d', (answer_rule_eq_ok_iff hloose).mpr ⟨cs', hcs', rfl⟩, ?_, hd⟩
  split
  · exact .cons (hclose hc hd hps) .nil
  · exact hps

/-- A repetition goes on just as long on the second text, because what comes after it does not
match where its body does. -/
theorem more_seq_rounds (ha : k.Follows k.Ends a) (hb : k.Follows E b) (hfirm : k.Firm)
    (hapart : g.Apart a b) (hstuck : ∀ c, g.answer false a c ≠ .stuck) (fuel : Nat)
    {c c' c₁ c₂ d : Cursor} {ps qs skipped : List (Pair ρ)} (hc : k.Ends c c')
    (hmore : g.rounds fuel false (.more a) c = .ok ps c₁)
    (hskip : g.answer true g.filler c₁ = .ok skipped c₂) (hnext : g.answer false b c₂ = .ok qs d) :
    ∃ rs' d', g.answer false (.seq (.more a) b) c' = .ok rs' d' ∧
      List.Forall₂ k.Alike (ps ++ qs) rs' ∧ E d d' := by
  induction fuel generalizing c c' ps with
  | zero => exact nomatch hmore
  | succ fuel ih =>
      rcases round_eq_ok hmore with ⟨_, e, ps₁, e₁, ps₂, hskip₁, hbody, hrest, rfl⟩ | ⟨rfl, rfl⟩
      · obtain ⟨_, e', hskip₁', -, he⟩ := (k.skips hc).exists_ok (answer_of_rounds hskip₁)
        obtain ⟨ps₁', e₁', hbody', hps₁, he₁⟩ := ha he (answer_of_rounds hbody)
        obtain ⟨rs', d', hrest', hrs, hd⟩ := ih he₁ hrest
        obtain ⟨ps₂', f, _, f', qs', hmore', hskip', hnext', rfl⟩ := answer_seq_eq_ok_iff.mp hrest'
        refine ⟨(ps₁' ++ ps₂') ++ qs', d', ?_, ?_, hd⟩
        · refine answer_seq_eq_ok_iff.mpr ⟨_, f, _, f', qs', ?_, hskip', hnext', rfl⟩
          have hskip₂ : g.answer true g.filler c' = _ := hskip₁'
          rw [answer_more, skip_loose, hskip₂, Reply.resume_ok, hbody', Reply.resume_ok, hmore',
            Reply.prepend_ok]
        · rw [List.append_assoc, List.append_assoc]
          exact List.rel_append hps₁ hrs
      · obtain ⟨_, e', hskip', -, he⟩ := (k.skips hc).exists_ok hskip
        obtain ⟨qs', d', hnext', hqs, hd⟩ := hb he hnext
        have hskip₂ : g.answer true g.filler c' = _ := hskip'
        have hfail : g.answer false a e' = .fail :=
          eq_fail_of_ne_ok (hstuck e') fun _ _ hok => hapart (hfirm he).2 hok hnext'
        refine ⟨[] ++ qs', d', ?_, List.rel_append .nil hqs, hd⟩
        refine answer_seq_eq_ok_iff.mpr ⟨[], c', _, e', qs', ?_, hskip₂, hnext', rfl⟩
        rw [answer_more, skip_loose, hskip₂, Reply.resume_ok, hfail, Reply.resume_fail]

theorem star_seq (hfirm : k.Firm) (ha : k.Follows k.Ends a) (hb : k.Follows E b)
    (hapart : g.Apart a b) (hstuck : ∀ c, g.answer false a c ≠ .stuck) :
    k.Follows E (.seq (.star a) b) := by
  intro c c' rs d hc h
  obtain ⟨ps, c₁, _, c₂, qs, hstar, hskip, hnext, rfl⟩ := answer_seq_eq_ok_iff.mp h
  rw [answer_eq_round] at hstar
  rcases round_eq_ok hstar with ⟨ps₁, e, ps₂, hbody, hmore, rfl⟩ | ⟨-, rfl, rfl⟩
  · obtain ⟨ps₁', e', hbody', hps₁, he⟩ := ha hc hbody
    obtain ⟨n, hn⟩ := g.settles_rounds false (.more a) e
    obtain ⟨rs', d', hrest', hrs, hd⟩ := more_seq_rounds ha hb hfirm hapart hstuck n he
      ((hn n (Nat.le_refl n)).trans hmore) hskip hnext
    obtain ⟨ps₂', f, _, f', qs', hmore', hskip', hnext', rfl⟩ := answer_seq_eq_ok_iff.mp hrest'
    refine ⟨(ps₁' ++ ps₂') ++ qs', d', ?_, ?_, hd⟩
    · refine answer_seq_eq_ok_iff.mpr ⟨_, f, _, f', qs', ?_, hskip', hnext', rfl⟩
      rw [answer_star, hbody', Reply.resume_ok, hmore', Reply.prepend_ok]
    · rw [List.append_assoc, List.append_assoc]
      exact List.rel_append hps₁ hrs
  · obtain ⟨-, rfl⟩ := Reply.ok.inj ((hfirm hc).1.symm.trans hskip)
    obtain ⟨qs', d', hnext', hqs, hd⟩ := hb hc hnext
    have hfail : g.answer false a c' = .fail :=
      eq_fail_of_ne_ok (hstuck c') fun _ _ hok => hapart (hfirm hc).2 hok hnext'
    refine ⟨[] ++ qs', d', ?_, List.rel_append .nil hqs, hd⟩
    refine answer_seq_eq_ok_iff.mpr ⟨[], c', _, c', qs', ?_, (hfirm hc).2, hnext', rfl⟩
    rw [answer_star, hfail, Reply.resume_fail]

end Follows

end Likeness

end XiFront.Peg

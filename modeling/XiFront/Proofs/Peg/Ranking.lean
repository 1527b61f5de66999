import XiFront.Proofs.Peg.Call

/-!
Enough fuel.  A ranking bounds, rule by rule, how deep a run can go before it reads a character;
since every character read renews the bound, a fuel in proportion to the text is never used up.
-/

namespace XiFront.Peg

namespace Expr

/-- How many expressions can be entered inside each other, this one counted, before a character is
read.  The same bound is given for each rule and for the filler between two parts. -/
def climb (empty : ρ → Bool) (rank : ρ → Nat) (filler : Nat) : Expr ρ → Nat
  | text _ | char _ | start | finish => 1
  | rule r => rank r + 1
  | seq a b =>
      max (a.climb empty rank filler)
        (if a.nullable empty then max filler (b.climb empty rank filler) else 0) + 1
  | alt a b => max (a.climb empty rank filler) (b.climb empty rank filler) + 1
  | opt a | star a | neg a => a.climb empty rank filler + 1
  | more a => max filler (a.climb empty rank filler) + 1

/-- No part climbs beyond the limit, and what is repeated reads something. -/
def within (empty : ρ → Bool) (rank : ρ → Nat) (filler limit : Nat) : Expr ρ → Bool
  | text _ | char _ | start | finish => decide (1 ≤ limit)
  | rule r => decide (rank r + 1 ≤ limit)
  | seq a b =>
      decide ((seq a b).climb empty rank filler ≤ limit) &&
        (a.within empty rank filler limit && b.within empty rank filler limit)
  | alt a b =>
      decide ((alt a b).climb empty rank filler ≤ limit) &&
        (a.within empty rank filler limit && b.within empty rank filler limit)
  | opt a | neg a =>
      decide (a.climb empty rank filler + 1 ≤ limit) && a.within empty rank filler limit
  | star a | more a =>
      decide (max filler (a.climb empty rank filler) + 1 ≤ limit) &&
        (!a.nullable empty && a.within empty rank filler limit)

theorem one_le_climb (empty : ρ → Bool) (rank : ρ → Nat) (filler : Nat) (e : Expr ρ) :
    1 ≤ e.climb empty rank filler := by
  cases e <;> simp [climb]

theorem climb_le_of_within {empty : ρ → Bool} {rank : ρ → Nat} {filler limit : Nat}
    {e : Expr ρ} (h : e.within empty rank filler limit = true) :
    e.climb empty rank filler ≤ limit := by
  cases e with
  | text chars => exact of_decide_eq_true h
  | char set => exact of_decide_eq_true h
  | start => exact of_decide_eq_true h
  | finish => exact of_decide_eq_true h
  | rule r => exact of_decide_eq_true h
  | seq a b => exact of_decide_eq_true (Bool.and_eq_true_iff.mp h).1
  | alt a b => exact of_decide_eq_true (Bool.and_eq_true_iff.mp h).1
  | opt a => exact of_decide_eq_true (Bool.and_eq_true_iff.mp h).1
  | star a =>
      have hmore := of_decide_eq_true (Bool.and_eq_true_iff.mp h).1
      simp only [climb]
      omega
  | more a => exact of_decide_eq_true (Bool.and_eq_true_iff.mp h).1
  | neg a => exact of_decide_eq_true (Bool.and_eq_true_iff.mp h).1

end Expr

/-- Bounds on how far the rules of a grammar climb. -/
structure Ranking (g : Grammar ρ) where
  empty : ρ → Bool
  rank : ρ → Nat
  filler : Nat
  nullable_body : ∀ r, empty r = false → (g.production r).body.nullable empty = false
  climb_body : ∀ r tight, ((g.production r).tight = true → tight = true) →
    (g.production r).body.climb empty rank (if tight then 0 else filler) ≤ rank r
  within_body : ∀ r tight, ((g.production r).tight = true → tight = true) →
    (g.production r).body.within empty rank (if tight then 0 else filler) g.depth = true
  climb_filler : g.filler.climb empty rank 0 ≤ filler
  within_filler : g.filler.within empty rank 0 g.depth = true

namespace Ranking

variable {g : Grammar ρ}

def reserve (k : Ranking g) (tight : Bool) : Nat :=
  if tight then 0 else k.filler

def need (k : Ranking g) (tight : Bool) (e : Expr ρ) (c : Cursor) : Nat :=
  c.rest.length * g.depth + e.climb k.empty k.rank (k.reserve tight)

/-- An expression whose parts all stay within the depth of the grammar. -/
def Fits (k : Ranking g) (tight : Bool) (e : Expr ρ) : Prop :=
  e.within k.empty k.rank (k.reserve tight) g.depth = true

theorem fits_filler (k : Ranking g) : k.Fits true g.filler :=
  k.within_filler

theorem progress (k : Ranking g) (fuel : Nat) :
    Grammar.Upholds (g.rounds fuel) (Grammar.Progress k.empty) :=
  Grammar.rounds_upholds (Grammar.round_progress k.nullable_body) fuel

theorem answer_progress (k : Ranking g) : Grammar.Upholds g.answer (Grammar.Progress k.empty) :=
  Grammar.answer_upholds (Grammar.round_progress k.nullable_body)

theorem need_lt_of_reads (k : Ranking g) {tight tight' : Bool} {e e' : Expr ρ}
    {c c' : Cursor} {s : Source} (hs : c.Reads s c') (hfits : k.Fits tight' e')
    (hclimb : s = [] → e'.climb k.empty k.rank (k.reserve tight') <
      e.climb k.empty k.rank (k.reserve tight)) :
    k.need tight' e' c' < k.need tight e c := by
  have hlen := hs.length
  unfold need
  by_cases hnil : s = []
  · have hless := hclimb hnil
    rw [hnil, List.length_nil, Nat.zero_add] at hlen
    rw [hlen]
    omega
  · have hlimit := Expr.climb_le_of_within hfits
    have hone := Expr.one_le_climb k.empty k.rank (k.reserve tight) e
    have hpos : 0 < s.length := List.length_pos_iff.mpr hnil
    have hmul : (c'.rest.length + 1) * g.depth ≤ c.rest.length * g.depth :=
      Nat.mul_le_mul_right g.depth (by omega)
    rw [Nat.add_mul] at hmul
    omega

theorem climb_filler_le (k : Ranking g) :
    g.filler.climb k.empty k.rank (k.reserve true) ≤ k.reserve false :=
  k.climb_filler

theorem Fits.seq {k : Ranking g} {tight : Bool} {a b : Expr ρ}
    (h : k.Fits tight (.seq a b)) : k.Fits tight a ∧ k.Fits tight b :=
  ⟨(Bool.and_eq_true_iff.mp (Bool.and_eq_true_iff.mp h).2).1, (Bool.and_eq_true_iff.mp (Bool.and_eq_true_iff.mp h).2).2⟩

theorem Fits.alt {k : Ranking g} {tight : Bool} {a b : Expr ρ}
    (h : k.Fits tight (.alt a b)) : k.Fits tight a ∧ k.Fits tight b :=
  ⟨(Bool.and_eq_true_iff.mp (Bool.and_eq_true_iff.mp h).2).1, (Bool.and_eq_true_iff.mp (Bool.and_eq_true_iff.mp h).2).2⟩

theorem Fits.more {k : Ranking g} {tight : Bool} {a : Expr ρ} (h : k.Fits tight (.more a)) :
    a.nullable k.empty = false ∧ k.Fits tight a := by
  obtain ⟨hnull, ha⟩ := Bool.and_eq_true_iff.mp (Bool.and_eq_true_iff.mp h).2
  exact ⟨by simpa using hnull, ha⟩

theorem need_lt_of_called (k : Ranking g) {parts : Replies ρ}
    (hparts : Grammar.Upholds parts (Grammar.Progress k.empty)) {q p : Call ρ}
    (h : g.CalledBy parts q p) (hfits : k.Fits p.tight p.expr) :
    k.Fits q.tight q.expr ∧ k.need q.tight q.expr q.cursor < k.need p.tight p.expr p.cursor := by
  have hnull {tight : Bool} {a : Expr ρ} {c c₁ : Cursor} {ps : List (Pair ρ)}
      (ha : parts tight a c = .ok ps c₁) :
      ∃ s, c.Reads s c₁ ∧ (s = [] → a.nullable k.empty = true) := by
    obtain ⟨s, hs, hne⟩ := hparts _ _ _ _ _ ha
    exact ⟨s, hs, fun hnil => Bool.of_not_eq_false fun hfalse => hne hfalse hnil⟩
  -- What follows a part either comes after a character or climbs less than the whole.
  cases h with
  | @body tight r c =>
      have htight : (g.production r).tight = true →
          (tight || (g.production r).tight) = true := by
        intro h
        rw [h, Bool.or_true]
      refine ⟨k.within_body r _ htight, ?_⟩
      apply k.need_lt_of_reads (.refl c) (k.within_body r _ htight)
      intro _
      exact Nat.lt_succ_of_le (k.climb_body r _ htight)
  | first =>
      refine ⟨hfits.seq.1, k.need_lt_of_reads (.refl _) hfits.seq.1 fun _ => ?_⟩
      simp only [Expr.climb]
      omega
  | between ha =>
      obtain ⟨s, hs, hempty⟩ := hnull ha
      refine ⟨k.fits_filler, k.need_lt_of_reads hs k.fits_filler fun hnil => ?_⟩
      have hfiller := k.climb_filler_le
      simp only [Expr.climb, hempty hnil, if_true]
      omega
  | second ha hskip =>
      obtain ⟨s₁, hs₁, hempty⟩ := hnull ha
      obtain ⟨s₂, hs₂⟩ := Grammar.skip_reads hparts hskip
      refine ⟨hfits.seq.2, k.need_lt_of_reads (hs₁.trans hs₂) hfits.seq.2 fun hnil => ?_⟩
      simp only [Expr.climb, hempty (List.append_eq_nil_iff.mp hnil).1, if_true]
      omega
  | preferred =>
      refine ⟨hfits.alt.1, k.need_lt_of_reads (.refl _) hfits.alt.1 fun _ => ?_⟩
      simp only [Expr.climb]
      omega
  | otherwise _ =>
      refine ⟨hfits.alt.2, k.need_lt_of_reads (.refl _) hfits.alt.2 fun _ => ?_⟩
      simp only [Expr.climb]
      omega
  | optional =>
      have ha := (Bool.and_eq_true_iff.mp hfits).2
      exact ⟨ha, k.need_lt_of_reads (.refl _) ha fun _ => Nat.lt_succ_self _⟩
  | once =>
      have ha := (Fits.more hfits).2
      exact ⟨ha, k.need_lt_of_reads (.refl _) ha fun _ => Nat.lt_succ_self _⟩
  | again ha =>
      obtain ⟨s, hs, hne⟩ := hparts _ _ _ _ _ ha
      refine ⟨hfits, k.need_lt_of_reads hs hfits fun hnil => ?_⟩
      exact absurd hnil (hne (Fits.more hfits).1)
  | gap =>
      refine ⟨k.fits_filler, k.need_lt_of_reads (.refl _) k.fits_filler fun _ => ?_⟩
      have hfiller := k.climb_filler_le
      simp only [Expr.climb]
      omega
  | next hskip =>
      obtain ⟨s, hs⟩ := Grammar.skip_reads hparts hskip
      refine ⟨hfits.more.2, k.need_lt_of_reads hs hfits.more.2 fun _ => ?_⟩
      simp only [Expr.climb]
      omega
  | further hskip ha =>
      obtain ⟨s₁, hs₁⟩ := Grammar.skip_reads hparts hskip
      obtain ⟨s₂, hs₂, hne⟩ := hparts _ _ _ _ _ ha
      refine ⟨hfits, k.need_lt_of_reads (hs₁.trans hs₂) hfits fun hnil => ?_⟩
      exact absurd (List.append_eq_nil_iff.mp hnil).2 (hne hfits.more.1)
  | negated =>
      have ha := (Bool.and_eq_true_iff.mp hfits).2
      exact ⟨ha, k.need_lt_of_reads (.refl _) ha fun _ => Nat.lt_succ_self _⟩

theorem rounds_ne_stuck (k : Ranking g) (fuel : Nat) {tight : Bool} {e : Expr ρ} {c : Cursor}
    (hfits : k.Fits tight e) (hfuel : k.need tight e c ≤ fuel) :
    g.rounds fuel tight e c ≠ .stuck := by
  induction fuel generalizing tight e c with
  | zero =>
      have hone := Expr.one_le_climb k.empty k.rank (k.reserve tight) e
      unfold need at hfuel
      omega
  | succ fuel ih =>
      rw [Grammar.rounds_succ]
      apply Grammar.round_ne_stuck (p := ⟨tight, e, c⟩)
      intro q hq
      obtain ⟨hqfits, hless⟩ := k.need_lt_of_called (k.progress fuel) hq hfits
      exact ih hqfits (Nat.le_of_lt_succ (Nat.lt_of_lt_of_le hless hfuel))

theorem answer_ne_stuck (k : Ranking g) {tight : Bool} {e : Expr ρ} (hfits : k.Fits tight e)
    (c : Cursor) : g.answer tight e c ≠ .stuck := by
  have hrounds := k.rounds_ne_stuck (c := c) _ hfits (Nat.le_refl _)
  rw [Grammar.answer_eq_of_rounds hrounds]
  exact hrounds

theorem need_rule_le (k : Ranking g) {r : ρ} (hr : k.rank r < g.depth) (tight : Bool)
    (c : Cursor) : k.need tight (.rule r) c ≤ g.fuel c.rest.length := by
  simp only [need, Grammar.fuel, Expr.climb, Nat.add_mul]
  omega

theorem run_eq_answer (k : Ranking g) {r : ρ} (hr : k.rank r < g.depth) {c : Cursor} {fuel : Nat}
    (hfuel : g.fuel c.rest.length ≤ fuel) (observe : Observer ρ σ) (m : Mode) (s : σ) :
    (g.run observe fuel m (.rule r) c s).1 = g.answer m.tight (.rule r) c := by
  apply Grammar.answer_eq_of_run
  rw [Grammar.run_fst]
  exact k.rounds_ne_stuck _ (decide_eq_true hr) (Nat.le_trans (k.need_rule_le hr _ c) hfuel)

theorem reply_eq_answer (k : Ranking g) (r : ρ) (hr : k.rank r < g.depth)
    (text : List Char) : g.reply r text = g.answer false (.rule r) (.ofText text) :=
  k.run_eq_answer (c := .ofText text) hr (Nat.le_refl _) .idle ⟨false, false⟩ ()

end Ranking

end XiFront.Peg

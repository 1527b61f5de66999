import XiFront.Proofs.Peg.Yield

namespace XiFront.Peg

namespace Watched

def resume (x : Reply ρ × σ) (onMatch : List (Pair ρ) → Cursor → σ → Reply ρ × σ)
    (onFail : σ → Reply ρ × σ) : Reply ρ × σ :=
  match x with
  | (.stuck, s) => (.stuck, s)
  | (.fail, s) => onFail s
  | (.ok ps c, s) => onMatch ps c s

def prepend (ps : List (Pair ρ)) (x : Reply ρ × σ) : Reply ρ × σ :=
  (x.1.prepend ps, x.2)

theorem resume_snd {x : Reply ρ × σ} {onMatch : List (Pair ρ) → Cursor → σ → Reply ρ × σ}
    {onFail : σ → Reply ρ × σ} {s : σ} (hx : x.2 = s)
    (hMatch : ∀ ps c, (onMatch ps c s).2 = s) (hFail : (onFail s).2 = s) :
    (resume x onMatch onFail).2 = s := by
  obtain ⟨_ | _ | ⟨ps, c⟩, s₁⟩ := x
  · exact hx
  · cases hx
    exact hFail
  · cases hx
    exact hMatch ps c

end Watched

abbrev Runs (ρ σ : Type) :=
  Mode → Expr ρ → Cursor → σ → Reply ρ × σ

namespace Grammar

open Watched

/-- The filler in front of a part, none where the run is tight. -/
def pass (g : Grammar ρ) (parts : Runs ρ σ) (m : Mode) (c : Cursor) (s : σ) : Reply ρ × σ :=
  if m.tight then (.ok [] c, s) else parts ⟨true, m.negated⟩ g.filler c s

def watch (g : Grammar ρ) (observe : Observer ρ σ) (parts : Runs ρ σ) : Runs ρ σ
  | _, .text chars, c, s => (.ofOption (c.text? chars), s)
  | _, .char set, c, s => (.ofOption (c.char? set), s)
  | _, .start, c, s => if c.offset = 0 then (.ok [] c, s) else (.fail, s)
  | _, .finish, c, s => if c.rest.isEmpty then (.ok [] c, s) else (.fail, s)
  | m, .rule r, c, s =>
      let p := g.production r
      let x := parts ⟨m.tight || p.tight, m.negated⟩ p.body c s
      if m.tight then x
      else
        (x.1.close r p.leavesPair c.offset,
          observe ⟨r, p.leavesPair, c.offset, m.negated, x.1.matched⟩ s x.2)
  | m, .seq a b, c, s =>
      resume (parts m a c s)
        (fun ps c₁ s₁ =>
          resume (g.pass parts m c₁ s₁) (fun _ c₂ s₂ => prepend ps (parts m b c₂ s₂))
            fun s₂ => (.fail, s₂))
        fun s₁ => (.fail, s₁)
  | m, .alt a b, c, s =>
      resume (parts m a c s) (fun ps c₁ s₁ => (.ok ps c₁, s₁)) fun s₁ => parts m b c s₁
  | m, .opt a, c, s =>
      resume (parts m a c s) (fun ps c₁ s₁ => (.ok ps c₁, s₁)) fun s₁ => (.ok [] c, s₁)
  | m, .star a, c, s =>
      resume (parts m a c s) (fun ps c₁ s₁ => prepend ps (parts m (.more a) c₁ s₁))
        fun s₁ => (.ok [] c, s₁)
  | m, .more a, c, s =>
      resume (g.pass parts m c s)
        (fun _ c₁ s₁ =>
          resume (parts m a c₁ s₁) (fun ps c₂ s₂ => prepend ps (parts m (.more a) c₂ s₂))
            fun s₂ => (.ok [] c, s₂))
        fun s₁ => (.ok [] c, s₁)
  | m, .neg a, c, s =>
      resume (parts ⟨m.tight, !m.negated⟩ a c s) (fun _ _ s₁ => (.fail, s₁))
        fun s₁ => (.ok [] c, s₁)

theorem run_succ (g : Grammar ρ) (observe : Observer ρ σ) (fuel : Nat) (m : Mode) (e : Expr ρ)
    (c : Cursor) (s : σ) :
    g.run observe (fuel + 1) m e c s = g.watch observe (g.run observe fuel) m e c s := by
  cases e with
  | text chars => rfl
  | char set => rfl
  | start => rfl
  | finish => rfl
  | rule r => rfl
  | seq a b =>
      simp only [run, watch]
      rcases g.run observe fuel m a c s with ⟨_ | _ | ⟨ps, c₁⟩, s₁⟩
      · rfl
      · rfl
      · simp only [resume, pass]
        rcases (if m.tight then (Reply.ok [] c₁, s₁)
          else g.run observe fuel ⟨true, m.negated⟩ g.filler c₁ s₁) with ⟨_ | _ | ⟨_, c₂⟩, s₂⟩
        · rfl
        · rfl
        · dsimp only
          rcases g.run observe fuel m b c₂ s₂ with ⟨_ | _ | ⟨others, c₃⟩, s₃⟩ <;> rfl
  | alt a b =>
      simp only [run, watch]
      rcases g.run observe fuel m a c s with ⟨_ | _ | ⟨ps, c₁⟩, s₁⟩ <;> rfl
  | opt a =>
      simp only [run, watch]
      rcases g.run observe fuel m a c s with ⟨_ | _ | ⟨ps, c₁⟩, s₁⟩ <;> rfl
  | star a =>
      simp only [run, watch]
      rcases g.run observe fuel m a c s with ⟨_ | _ | ⟨ps, c₁⟩, s₁⟩
      · rfl
      · rfl
      · simp only [resume]
        rcases g.run observe fuel m (.more a) c₁ s₁ with ⟨_ | _ | ⟨others, c₂⟩, s₂⟩ <;> rfl
  | more a =>
      simp only [run, watch, pass]
      rcases (if m.tight then (Reply.ok [] c, s)
        else g.run observe fuel ⟨true, m.negated⟩ g.filler c s) with ⟨_ | _ | ⟨_, c₁⟩, s₁⟩
      · rfl
      · rfl
      · simp only [resume]
        rcases g.run observe fuel m a c₁ s₁ with ⟨_ | _ | ⟨ps, c₂⟩, s₂⟩
        · rfl
        · rfl
        · dsimp only
          rcases g.run observe fuel m (.more a) c₂ s₂ with ⟨_ | _ | ⟨others, c₃⟩, s₃⟩ <;> rfl
  | neg a =>
      simp only [run, watch]
      rcases g.run observe fuel ⟨m.tight, !m.negated⟩ a c s with ⟨_ | _ | ⟨ps, c₁⟩, s₁⟩ <;> rfl

theorem run_tight (g : Grammar ρ) (observe : Observer ρ σ) (fuel : Nat) (negated : Bool)
    (e : Expr ρ) (c : Cursor) (s : σ) :
    (g.run observe fuel ⟨true, negated⟩ e c s).2 = s := by
  induction fuel generalizing negated e c s with
  | zero => rfl
  | succ fuel ih =>
      rw [run_succ]
      cases e with
      | text chars => rfl
      | char set => rfl
      | start =>
          rw [watch]
          split <;> rfl
      | finish =>
          rw [watch]
          split <;> rfl
      | rule r => exact ih _ _ c s
      | seq a b =>
          refine resume_snd (ih negated a c s) (fun ps c₁ => ?_) rfl
          exact resume_snd rfl (fun _ c₂ => ih negated b c₂ s) rfl
      | alt a b => exact resume_snd (ih negated a c s) (fun _ _ => rfl) (ih negated b c s)
      | opt a => exact resume_snd (ih negated a c s) (fun _ _ => rfl) rfl
      | star a => exact resume_snd (ih negated a c s) (fun _ c₁ => ih negated _ c₁ s) rfl
      | more a =>
          rw [watch]
          refine resume_snd rfl (fun _ c₁ => ?_) rfl
          exact resume_snd (ih negated a c₁ s) (fun _ c₂ => ih negated _ c₂ s) rfl
      | neg a => exact resume_snd (ih (!negated) a c s) (fun _ _ => rfl) rfl

end Grammar

namespace Expr

/-- Whether every part that is ruled out mentions no rule. -/
def forbidsPlainly : Expr ρ → Bool
  | text _ | char _ | start | finish | rule _ => true
  | seq a b | alt a b => a.forbidsPlainly && b.forbidsPlainly
  | opt a | star a | more a => a.forbidsPlainly
  | neg a => a.mentions.isEmpty

end Expr

/-- A run in which no rule is visited where it must not match. -/
def Mode.Plain (m : Mode) (e : Expr ρ) : Prop :=
  m.tight = true ∨ m.negated = false ∧ e.forbidsPlainly = true ∨ e.mentions = []

namespace Mode.Plain

variable {m : Mode} {a b : Expr ρ}

theorem seq (h : m.Plain (.seq a b)) : m.Plain a ∧ m.Plain b := by
  rcases h with htight | ⟨hneg, hplain⟩ | hnone
  · exact ⟨.inl htight, .inl htight⟩
  · obtain ⟨ha, hb⟩ := Bool.and_eq_true_iff.mp hplain
    exact ⟨.inr (.inl ⟨hneg, ha⟩), .inr (.inl ⟨hneg, hb⟩)⟩
  · obtain ⟨ha, hb⟩ := List.append_eq_nil_iff.mp hnone
    exact ⟨.inr (.inr ha), .inr (.inr hb)⟩

theorem alt (h : m.Plain (.alt a b)) : m.Plain a ∧ m.Plain b :=
  seq h

theorem neg (h : m.Plain (.neg a)) : Plain ⟨m.tight, !m.negated⟩ a := by
  rcases h with htight | ⟨-, hplain⟩ | hnone
  · exact .inl htight
  · exact .inr (.inr (List.isEmpty_iff.mp hplain))
  · exact .inr (.inr hnone)

end Mode.Plain

/-- What one visit to a rule adds to the state of the observer, and further visits add to that. -/
structure Growth (g : Grammar ρ) (observe : Observer ρ σ) (source : Source)
    (G : σ → σ → Prop) : Prop where
  refl : ∀ s, G s s
  trans : ∀ {s t u}, G s t → G t u → G s u
  visit : ∀ {r c s t}, c.In source → g.answer false (.rule r) c ≠ .stuck → G s t →
    G s (observe ⟨r, (g.production r).leavesPair, c.offset, false,
      (g.answer false (.rule r) c).matched⟩ s t)
  plain : ∀ r, (g.production r).tight = true ∨ (g.production r).body.forbidsPlainly = true

namespace Growth

variable {g : Grammar ρ} {observe : Observer ρ σ} {source : Source} {G : σ → σ → Prop}

def Grows (G : σ → σ → Prop) (s : σ) (x : Reply ρ × σ) : Prop :=
  x.1 ≠ .stuck → G s x.2

theorem resume (k : Growth g observe source G) {s : σ} {x : Reply ρ × σ}
    {onMatch : List (Pair ρ) → Cursor → σ → Reply ρ × σ} {onFail : σ → Reply ρ × σ}
    (hx : Grows G s x) (hMatch : ∀ ps c s₁, x = (.ok ps c, s₁) → Grows G s₁ (onMatch ps c s₁))
    (hFail : ∀ s₁, x = (.fail, s₁) → Grows G s₁ (onFail s₁)) :
    Grows G s (Watched.resume x onMatch onFail) := by
  obtain ⟨_ | _ | ⟨ps, c⟩, s₁⟩ := x
  · intro hstuck
    exact absurd rfl hstuck
  · intro hstuck
    exact k.trans (hx nofun) (hFail s₁ rfl hstuck)
  · intro hstuck
    exact k.trans (hx nofun) (hMatch ps c s₁ rfl hstuck)

theorem stay (k : Growth g observe source G) (s : σ) (reply : Reply ρ) : Grows G s (reply, s) :=
  fun _ => k.refl s

theorem prepend {s : σ} {x : Reply ρ × σ} (hx : Grows G s x) (ps : List (Pair ρ)) :
    Grows G s (Watched.prepend ps x) := by
  intro hstuck
  apply hx
  intro hx'
  apply hstuck
  rw [Watched.prepend, hx', Reply.prepend_stuck]

theorem rule (k : Growth g observe source G) {r : ρ} {c : Cursor} (hc : c.In source) {fuel : Nat}
    {s : σ} (hbody : Grows G s
      (g.run observe fuel ⟨(g.production r).tight, false⟩ (g.production r).body c s)) :
    Grows G s (g.run observe (fuel + 1) ⟨false, false⟩ (.rule r) c s) := by
  generalize hx : g.run observe fuel ⟨(g.production r).tight, false⟩ (g.production r).body c s = x
    at hbody
  have hrun : g.run observe (fuel + 1) ⟨false, false⟩ (.rule r) c s =
      (x.1.close r (g.production r).leavesPair c.offset,
        observe ⟨r, (g.production r).leavesPair, c.offset, false, x.1.matched⟩ s x.2) := by
    rw [← hx]
    rfl
  intro hstuck
  rw [hrun] at hstuck ⊢
  have hne : x.1 ≠ .stuck := by
    intro hx'
    apply hstuck
    rw [hx', Reply.close_stuck]
  have hanswer : g.answer false (.rule r) c = x.1.close r (g.production r).leavesPair c.offset := by
    rw [Grammar.answer_rule_loose, ← hx, Grammar.answer_eq_of_run (by rw [hx]; exact hne)]
  have hmatched : (g.answer false (.rule r) c).matched = x.1.matched := by
    rw [hanswer]
    cases x.1 with
    | stuck => rfl
    | fail => rfl
    | ok ps c' =>
        rw [Reply.close_ok]
        split <;> rfl
  have hvisit := k.visit hc (by rw [hanswer]; exact hstuck) (hbody hne)
  rwa [hmatched] at hvisit

theorem run (k : Growth g observe source G) (fuel : Nat) {m : Mode} {e : Expr ρ} {c : Cursor}
    (hc : c.In source) (hplain : m.Plain e) (s : σ) :
    Grows G s (g.run observe fuel m e c s) := by
  induction fuel generalizing m e c s with
  | zero => exact k.stay s .stuck
  | succ fuel ih =>
      have hreads {m : Mode} {e : Expr ρ} {c c₁ : Cursor} {s s₁ : σ} {ps : List (Pair ρ)}
          (hc : c.In source) (hrun : g.run observe fuel m e c s = (.ok ps c₁, s₁)) :
          c₁.In source := by
        have hreply := g.run_fst observe fuel m e c s
        rw [hrun] at hreply
        obtain ⟨text, htext⟩ := Grammar.rounds_reads hreply.symm
        exact hc.reads htext
      have hpass {c : Cursor} (hc : c.In source) (s : σ) :
          Grows G s (g.pass (g.run observe fuel) m c s) ∧
            ∀ ps c₁ s₁, g.pass (g.run observe fuel) m c s = (.ok ps c₁, s₁) → c₁.In source := by
        unfold Grammar.pass
        split
        · refine ⟨k.stay s _, fun ps c₁ s₁ h => ?_⟩
          cases h
          exact hc
        · exact ⟨ih hc (.inl rfl) s, fun ps c₁ s₁ h => hreads hc h⟩
      cases e with
      | text chars => exact k.stay s _
      | char set => exact k.stay s _
      | start =>
          rw [Grammar.run_succ, Grammar.watch]
          split <;> exact k.stay s _
      | finish =>
          rw [Grammar.run_succ, Grammar.watch]
          split <;> exact k.stay s _
      | rule r =>
          obtain ⟨tight, negated⟩ := m
          cases tight with
          | true => exact ih (m := ⟨true, negated⟩) hc (.inl rfl) s
          | false =>
              obtain ⟨rfl, -⟩ : negated = false ∧ _ := by
                rcases hplain with hfalse | hloose | hnone
                · exact nomatch hfalse
                · exact hloose
                · exact nomatch hnone
              apply k.rule hc
              apply ih hc
              exact (k.plain r).imp_right fun hbody => .inl ⟨rfl, hbody⟩
      | seq a b =>
          rw [Grammar.run_succ, Grammar.watch]
          obtain ⟨ha, hb⟩ := hplain.seq
          refine k.resume (ih hc ha s) (fun ps c₁ s₁ h₁ => ?_) fun s₁ _ => k.stay s₁ _
          obtain ⟨hgrows, hin⟩ := hpass (hreads hc h₁) s₁
          refine k.resume hgrows (fun qs c₂ s₂ h₂ => ?_) fun s₂ _ => k.stay s₂ _
          exact prepend (ih (hin qs c₂ s₂ h₂) hb s₂) ps
      | alt a b =>
          rw [Grammar.run_succ, Grammar.watch]
          obtain ⟨ha, hb⟩ := hplain.alt
          exact k.resume (ih hc ha s) (fun ps c₁ s₁ _ => k.stay s₁ _) fun s₁ _ => ih hc hb s₁
      | opt a =>
          rw [Grammar.run_succ, Grammar.watch]
          have ha : m.Plain a := hplain
          exact k.resume (ih hc ha s) (fun ps c₁ s₁ _ => k.stay s₁ _) fun s₁ _ => k.stay s₁ _
      | star a =>
          rw [Grammar.run_succ, Grammar.watch]
          have ha : m.Plain a := hplain
          have hmore : m.Plain (.more a) := hplain
          refine k.resume (ih hc ha s) (fun ps c₁ s₁ h₁ => ?_) fun s₁ _ => k.stay s₁ _
          exact prepend (ih (hreads hc h₁) hmore s₁) ps
      | more a =>
          rw [Grammar.run_succ, Grammar.watch]
          obtain ⟨hgrows, hin⟩ := hpass hc s
          refine k.resume hgrows (fun qs c₁ s₁ h₁ => ?_) fun s₁ _ => k.stay s₁ _
          have hc₁ := hin qs c₁ s₁ h₁
          have ha : m.Plain a := hplain
          refine k.resume (ih hc₁ ha s₁) (fun ps c₂ s₂ h₂ => ?_) fun s₂ _ => k.stay s₂ _
          exact prepend (ih (hreads hc₁ h₂) hplain s₂) ps
      | neg a =>
          rw [Grammar.run_succ, Grammar.watch]
          exact k.resume (ih hc hplain.neg s) (fun ps c₁ s₁ _ => k.stay s₁ _) fun s₁ _ => k.stay s₁ _

end Growth

end XiFront.Peg

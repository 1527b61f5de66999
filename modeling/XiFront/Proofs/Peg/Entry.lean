import XiFront.Proofs.Peg.Call
import XiFront.Proofs.Peg.Watched

/-!
Where rules are entered.  What holds of a call and goes over to the calls that it makes holds
wherever an observer hears of a rule, and wherever a pair begins.  In front of every part of an
expression the filler is skipped, so a part is run where no more filler follows.
-/

namespace XiFront.Peg

namespace Grammar

def Handed (g : Grammar ρ) (I : Call ρ → Prop) : Prop :=
  ∀ p q, g.CalledBy g.answer q p → I p → I q

variable {g : Grammar ρ}

theorem reads_of_skip {tight : Bool} {c c' : Cursor} {ps : List (Pair ρ)}
    (h : g.skip g.answer tight c = .ok ps c') : ∃ s, c.Reads s c' := by
  cases tight with
  | true =>
      obtain ⟨-, rfl⟩ := Reply.ok.inj h
      exact ⟨[], .refl c⟩
  | false => exact answer_reads h

theorem CalledBy.reads {p q : Call ρ} (h : g.CalledBy g.answer q p) :
    ∃ s, p.cursor.Reads s q.cursor := by
  cases h with
  | body | first | preferred | otherwise _ | optional | once | gap | negated =>
      exact ⟨[], .refl _⟩
  | between ha => exact answer_reads ha
  | second ha hskip =>
      obtain ⟨s, hs⟩ := answer_reads ha
      obtain ⟨s', hs'⟩ := reads_of_skip hskip
      exact ⟨s ++ s', hs.trans hs'⟩
  | again ha => exact answer_reads ha
  | next hskip => exact reads_of_skip hskip
  | further hskip ha =>
      obtain ⟨s, hs⟩ := reads_of_skip hskip
      obtain ⟨s', hs'⟩ := answer_reads ha
      exact ⟨s ++ s', hs.trans hs'⟩

theorem handed_in (g : Grammar ρ) (source : Source) :
    g.Handed fun q => q.cursor.In source := by
  intro p q hcall hp
  obtain ⟨s, hs⟩ := hcall.reads
  exact hp.reads hs

/-- The call is at a place with the property, unless the run is tight or the call is one that skips
filler before it does anything else. -/
def Ready (F : Cursor → Prop) (q : Call ρ) : Prop :=
  q.tight = true ∨ (∃ a, q.expr = .more a) ∨ F q.cursor

theorem Ready.place {F : Cursor → Prop} {tight : Bool} {e : Expr ρ} {c : Cursor}
    (h : Ready F ⟨tight, e, c⟩) (he : ∀ a, e ≠ .more a) : tight = true ∨ F c := by
  rcases h with htight | ⟨a, hmore⟩ | hc
  · exact .inl htight
  · exact absurd hmore (he a)
  · exact .inr hc

variable {F : Cursor → Prop} (hF : ∀ c ps c', g.answer true g.filler c = .ok ps c' → F c')
include hF

theorem ready_of_skip {tight : Bool} {e : Expr ρ} {c c' : Cursor} {ps : List (Pair ρ)}
    (h : g.skip g.answer tight c = .ok ps c') : Ready F ⟨tight, e, c'⟩ := by
  cases tight with
  | true => exact .inl rfl
  | false => exact .inr (.inr (hF _ _ _ h))

theorem handed_ready : g.Handed (Ready F) := by
  have hstay {tight : Bool} {e : Expr ρ} {c : Cursor} (h : tight = true ∨ F c) :
      Ready F ⟨tight, e, c⟩ :=
    h.imp_right .inr
  intro p q hcall hp
  cases hcall with
  | @body tight r c =>
      obtain rfl | hc := hp.place nofun
      · exact .inl rfl
      · exact hstay (.inr hc)
  | first | preferred | otherwise _ | optional | once | negated => exact hstay (hp.place nofun)
  | between _ | gap => exact .inl rfl
  | second _ h => exact ready_of_skip hF h
  | again _ | further _ _ => exact .inr (.inl ⟨_, rfl⟩)
  | next h => exact ready_of_skip hF h

end Grammar

def Observer.trace : Observer ρ (List (Visit ρ)) :=
  fun v _ after => v :: after

theorem Watched.resume_keeps {S : σ → Prop} {x : Reply ρ × σ}
    {onMatch : List (Pair ρ) → Cursor → σ → Reply ρ × σ} {onFail : σ → Reply ρ × σ} (hx : S x.2)
    (hMatch : ∀ ps c s, x = (.ok ps c, s) → S s → S (onMatch ps c s).2)
    (hFail : ∀ s, x = (.fail, s) → S s → S (onFail s).2) :
    S (Watched.resume x onMatch onFail).2 := by
  obtain ⟨_ | _ | ⟨ps, c⟩, s⟩ := x
  · exact hx
  · exact hFail s rfl hx
  · exact hMatch ps c s rfl hx

namespace Grammar

variable {g : Grammar ρ} {observe : Observer ρ σ} {fuel : Nat} {m : Mode} {e : Expr ρ}
  {c c' : Cursor} {s s' : σ} {ps : List (Pair ρ)}

theorem answer_of_run_ok (h : g.run observe fuel m e c s = (.ok ps c', s')) :
    g.answer m.tight e c = .ok ps c' := by
  rw [← answer_eq_of_run (by rw [h]; exact nofun), h]

theorem answer_of_run_fail (h : g.run observe fuel m e c s = (.fail, s')) :
    g.answer m.tight e c = .fail := by
  rw [← answer_eq_of_run (by rw [h]; exact nofun), h]

theorem pass_snd : (g.pass (g.run observe fuel) m c s).2 = s := by
  unfold pass
  split
  · rfl
  · exact g.run_tight observe fuel m.negated g.filler c s

theorem skip_of_pass (h : g.pass (g.run observe fuel) m c s = (.ok ps c', s')) :
    g.skip g.answer m.tight c = .ok ps c' := by
  unfold pass at h
  unfold skip
  split at h
  · next htight =>
      rw [if_pos htight]
      exact congrArg Prod.fst h
  · next hloose =>
      rw [if_neg hloose]
      exact answer_of_run_ok h

end Grammar

/-- What calls hand on lets no visit break what the state of the observer is like. -/
structure Keeps (g : Grammar ρ) (observe : Observer ρ σ) (I : Call ρ → Prop) (S : σ → Prop) :
    Prop where
  handed : g.Handed I
  visit : ∀ {r c negated matched s t}, I ⟨false, .rule r, c⟩ → S s → S t →
    S (observe ⟨r, (g.production r).leavesPair, c.offset, negated, matched⟩ s t)

namespace Keeps

open Grammar Watched

variable {g : Grammar ρ} {observe : Observer ρ σ} {I : Call ρ → Prop} {S : σ → Prop}

theorem run (k : Keeps g observe I S) (fuel : Nat) {m : Mode} {e : Expr ρ} {c : Cursor}
    (h : I ⟨m.tight, e, c⟩) {s : σ} (hs : S s) : S (g.run observe fuel m e c s).2 := by
  induction fuel generalizing m e c s with
  | zero => exact hs
  | succ fuel ih =>
      have hpass {c : Cursor} {s : σ} (hs : S s) : S (g.pass (g.run observe fuel) m c s).2 := by
        rw [pass_snd]
        exact hs
      have hcall {q : Call ρ} (hq : g.CalledBy g.answer q ⟨m.tight, e, c⟩) : I q :=
        k.handed _ q hq h
      rw [run_succ]
      cases e with
      | text chars => exact hs
      | char set => exact hs
      | start =>
          rw [watch]
          split <;> exact hs
      | finish =>
          rw [watch]
          split <;> exact hs
      | rule r =>
          have hbody := ih (m := ⟨m.tight || (g.production r).tight, m.negated⟩) (hcall .body) hs
          rw [watch]
          split
          · exact hbody
          · next hloose =>
              rw [Bool.not_eq_true] at hloose
              rw [hloose] at h
              exact k.visit h hs hbody
      | seq a b =>
          refine resume_keeps (ih (hcall .first) hs) (fun ps c₁ s₁ h₁ hs₁ => ?_) fun _ _ hs₁ => hs₁
          refine resume_keeps (hpass hs₁) (fun qs c₂ s₂ h₂ hs₂ => ?_) fun _ _ hs₂ => hs₂
          exact ih (hcall (.second (answer_of_run_ok h₁) (skip_of_pass h₂))) hs₂
      | alt a b =>
          refine resume_keeps (ih (hcall .preferred) hs) (fun _ _ _ _ hs₁ => hs₁)
            fun s₁ h₁ hs₁ => ?_
          exact ih (hcall (.otherwise (answer_of_run_fail h₁))) hs₁
      | opt a =>
          exact resume_keeps (ih (hcall .optional) hs) (fun _ _ _ _ hs₁ => hs₁) fun _ _ hs₁ => hs₁
      | star a =>
          refine resume_keeps (ih (hcall .once) hs) (fun ps c₁ s₁ h₁ hs₁ => ?_) fun _ _ hs₁ => hs₁
          exact ih (hcall (.again (answer_of_run_ok h₁))) hs₁
      | more a =>
          refine resume_keeps (hpass hs) (fun qs c₁ s₁ h₁ hs₁ => ?_) fun _ _ hs₁ => hs₁
          have hskip := skip_of_pass h₁
          refine resume_keeps (ih (hcall (.next hskip)) hs₁) (fun ps c₂ s₂ h₂ hs₂ => ?_)
            fun _ _ hs₂ => hs₂
          exact ih (hcall (.further hskip (answer_of_run_ok h₂))) hs₂
      | neg a =>
          have hbody := ih (m := ⟨m.tight, !m.negated⟩) (hcall .negated) hs
          exact resume_keeps hbody (fun _ _ _ _ hs₁ => hs₁) fun _ _ hs₁ => hs₁

end Keeps

end XiFront.Peg

import Mathlib.Data.List.Forall2
import XiFront.Proofs.Peg.Reading

/-!
Two runs that take the same decisions.  Where cursors of two texts are related so that the leaves of
an expression reply alike and filler leads back to related cursors, every expression that is built
from the leaves replies alike, however often it tries and gives up on the way.
-/

namespace XiFront.Peg

namespace Reply

/-- The second reply fails where the first does, and matches where the first does, with pairs and a
cursor that are related to those of the first. -/
def Agrees (P : Pair ρ → Pair ρ → Prop) (E : Cursor → Cursor → Prop) :
    Reply ρ → Reply ρ → Prop
  | stuck, _ => True
  | fail, second => second = fail
  | ok ps c, second => ∃ ps' c', second = ok ps' c' ∧ List.Forall₂ P ps ps' ∧ E c c'

namespace Agrees

variable {P Q : Pair ρ → Pair ρ → Prop} {E F : Cursor → Cursor → Prop}
variable {first second : Reply ρ}

theorem fails : Agrees P E (fail : Reply ρ) fail :=
  rfl

theorem matches_ {ps ps' : List (Pair ρ)} {c c' : Cursor} (hps : List.Forall₂ P ps ps')
    (hc : E c c') : Agrees P E (ok ps c) (ok ps' c') :=
  ⟨ps', c', rfl, hps, hc⟩

theorem mono (h : Agrees P E first second) (hP : ∀ p p', P p p' → Q p p')
    (hE : ∀ c c', E c c' → F c c') : Agrees Q F first second := by
  cases first with
  | stuck => trivial
  | fail => exact h
  | ok ps c =>
      obtain ⟨ps', c', rfl, hps, hc⟩ := h
      exact matches_ (hps.imp hP) (hE c c' hc)

theorem of_refines {less : Reply ρ} (h : Agrees P E first second) (hless : less.Refines first) :
    Agrees P E less second := by
  rcases hless with rfl | rfl
  · trivial
  · exact h

theorem eq_fail (h : Agrees P E first second) (hfirst : first = fail) : second = fail := by
  subst hfirst
  exact h

theorem exists_ok (h : Agrees P E first second) {ps : List (Pair ρ)} {c : Cursor}
    (hfirst : first = ok ps c) :
    ∃ ps' c', second = ok ps' c' ∧ List.Forall₂ P ps ps' ∧ E c c' := by
  subst hfirst
  exact h

theorem resume (h : Agrees P E first second)
    {onMatch onMatch' : List (Pair ρ) → Cursor → Reply ρ} {onFail onFail' : Reply ρ}
    (hMatch : ∀ ps ps' c c', List.Forall₂ P ps ps' → E c c' →
      Agrees Q F (onMatch ps c) (onMatch' ps' c'))
    (hFail : Agrees Q F onFail onFail') :
    Agrees Q F (first.resume onMatch onFail) (second.resume onMatch' onFail') := by
  cases first with
  | stuck => trivial
  | fail =>
      cases h
      exact hFail
  | ok ps c =>
      obtain ⟨ps', c', rfl, hps, hc⟩ := h
      exact hMatch ps ps' c c' hps hc

theorem prepend (h : Agrees P E first second) {front front' : List (Pair ρ)}
    (hfront : List.Forall₂ P front front') :
    Agrees P E (first.prepend front) (second.prepend front') := by
  apply h.resume
  · intro ps ps' c c' hps hc
    exact matches_ (List.rel_append hfront hps) hc
  · exact fails

theorem close (h : Agrees P E first second) {r : ρ} {leavesPair : Bool} {offset offset' : Nat}
    (hpair : leavesPair = true → ∀ ps ps' c c', List.Forall₂ P ps ps' → E c c' →
      P (.node r offset c.offset ps) (.node r offset' c'.offset ps')) :
    Agrees P E (first.close r leavesPair offset) (second.close r leavesPair offset') := by
  cases first with
  | stuck => trivial
  | fail =>
      cases h
      exact fails
  | ok ps c =>
      obtain ⟨ps', c', rfl, hps, hc⟩ := h
      rw [close_ok, close_ok]
      cases leavesPair with
      | true => exact matches_ (.cons (hpair rfl ps ps' c c' hps hc) .nil) hc
      | false => exact matches_ hps hc

end Agrees

end Reply

namespace Expr

/-- Whether an expression is put together from leaves and from rules that may be opened. -/
def built (leaf : Expr ρ → Bool) (part : ρ → Bool) : Expr ρ → Bool
  | seq a b | alt a b => a.built leaf part && b.built leaf part
  | opt a | star a | neg a => a.built leaf part
  | more _ => false
  | rule r => leaf (rule r) || part r
  | e => leaf e

end Expr

/-- Cursors of two texts from which a grammar takes the same decisions.  Parts begin and end at
related cursors; the leaves reply alike, and so does the filler. -/
structure Likeness (g : Grammar ρ) (tight : Bool) where
  Begins : Cursor → Cursor → Prop
  Ends : Cursor → Cursor → Prop
  Alike : Pair ρ → Pair ρ → Prop
  leaf : Expr ρ → Bool
  part : ρ → Bool
  ends : ∀ {c c'}, Begins c c' → Ends c c'
  skips : ∀ {c c'}, Ends c c' →
    (g.skip g.answer tight c).Agrees (fun _ _ => True) Begins (g.skip g.answer tight c')
  leaves : ∀ {e c c'}, leaf e = true → Begins c c' →
    (g.answer tight e c).Agrees Alike Ends (g.answer tight e c')
  opens : ∀ {r}, part r = true → ((g.production r).tight = true → tight = true) ∧
    (g.production r).body.built leaf part = true
  closes : ∀ {r c c' d d' ps ps'}, tight = false → part r = true → Begins c c' → Ends d d' →
    List.Forall₂ Alike ps ps' →
    Alike (.node r c.offset d.offset ps) (.node r c'.offset d'.offset ps')

namespace Likeness

variable {g : Grammar ρ} {tight : Bool} (k : Likeness g tight)

/-- Where nothing is skipped and no pair is left, it is enough that the pieces are read alike. -/
def ofLeaves (E : Cursor → Cursor → Prop) (leaf : Expr ρ → Bool) (part : ρ → Bool)
    (hleaves : ∀ {e c c'}, leaf e = true → E c c' →
      (g.answer true e c).Agrees (fun _ _ => False) E (g.answer true e c'))
    (hparts : ∀ {r}, part r = true → (g.production r).body.built leaf part = true) :
    Likeness g true where
  Begins := E
  Ends := E
  Alike := fun _ _ => False
  leaf := leaf
  part := part
  ends := id
  skips := fun hc => .matches_ .nil hc
  leaves := hleaves
  opens := fun hr => ⟨fun _ => rfl, hparts hr⟩
  closes := nofun

def Agree (e : Expr ρ) (parts parts' : Replies ρ) : Prop :=
  ∀ c c', k.Begins c c' →
    (parts tight e c).Agrees k.Alike k.Ends (parts' tight e c')

/-- The replies are alike where a repetition may go on. -/
def AgreeOn (e : Expr ρ) (parts parts' : Replies ρ) : Prop :=
  ∀ c c', k.Ends c c' →
    (parts tight (.more e) c).Agrees k.Alike k.Ends (parts' tight (.more e) c')

def SkipAgree (parts parts' : Replies ρ) : Prop :=
  ∀ c c', k.Ends c c' → (g.skip parts tight c).Agrees (fun _ _ => True) k.Begins
    (g.skip parts' tight c')

variable {k} {parts parts' : Replies ρ} {a b : Expr ρ} {c c' : Cursor}

theorem seq_agrees (hskip : k.SkipAgree parts parts')
    (ha : (parts tight a c).Agrees k.Alike k.Ends (parts' tight a c'))
    (hb : k.Agree b parts parts') :
    (g.round parts tight (.seq a b) c).Agrees k.Alike k.Ends
      (g.round parts' tight (.seq a b) c') := by
  apply ha.resume
  · intro ps ps' d d' hps hd
    apply (hskip d d' hd).resume
    · intro _ _ e e' _ he
      exact (hb e e' he).prepend hps
    · exact .fails
  · exact .fails

theorem alt_agrees (ha : (parts tight a c).Agrees k.Alike k.Ends (parts' tight a c'))
    (hb : (parts tight b c).Agrees k.Alike k.Ends (parts' tight b c')) :
    (g.round parts tight (.alt a b) c).Agrees k.Alike k.Ends
      (g.round parts' tight (.alt a b) c') := by
  apply ha.resume
  · intro ps ps' d d' hps hd
    exact .matches_ hps hd
  · exact hb

theorem opt_agrees (hc : k.Ends c c')
    (ha : (parts tight a c).Agrees k.Alike k.Ends (parts' tight a c')) :
    (g.round parts tight (.opt a) c).Agrees k.Alike k.Ends
      (g.round parts' tight (.opt a) c') := by
  apply ha.resume
  · intro ps ps' d d' hps hd
    exact .matches_ hps hd
  · exact .matches_ .nil hc

theorem star_agrees (hc : k.Ends c c')
    (ha : (parts tight a c).Agrees k.Alike k.Ends (parts' tight a c'))
    (hmore : k.AgreeOn a parts parts') :
    (g.round parts tight (.star a) c).Agrees k.Alike k.Ends
      (g.round parts' tight (.star a) c') := by
  apply ha.resume
  · intro ps ps' d d' hps hd
    exact (hmore d d' hd).prepend hps
  · exact .matches_ .nil hc

theorem more_agrees (hskip : k.SkipAgree parts parts') (ha : k.Agree a parts parts')
    (hmore : k.AgreeOn a parts parts') (hc : k.Ends c c') :
    (g.round parts tight (.more a) c).Agrees k.Alike k.Ends
      (g.round parts' tight (.more a) c') := by
  apply (hskip c c' hc).resume
  · intro _ _ d d' _ hd
    apply (ha d d' hd).resume
    · intro ps ps' e e' hps he
      exact (hmore e e' he).prepend hps
    · exact .matches_ .nil hc
  · exact .matches_ .nil hc

theorem neg_agrees (hc : k.Ends c c')
    (ha : (parts tight a c).Agrees k.Alike k.Ends (parts' tight a c')) :
    (g.round parts tight (.neg a) c).Agrees k.Alike k.Ends
      (g.round parts' tight (.neg a) c') := by
  apply ha.resume
  · intro ps ps' d d' hps hd
    exact .fails
  · exact .matches_ .nil hc

theorem rule_agrees {r : ρ} (hr : k.part r = true) (hc : k.Begins c c')
    (hbody : k.Agree (g.production r).body parts parts') :
    (g.round parts tight (.rule r) c).Agrees k.Alike k.Ends
      (g.round parts' tight (.rule r) c') := by
  have htight : (tight || (g.production r).tight) = tight := by
    cases hbody : (g.production r).tight with
    | true => rw [(k.opens hr).1 hbody, Bool.or_true]
    | false => exact Bool.or_false tight
  have hreply := hbody c c' hc
  simp only [Grammar.round, htight]
  cases tight with
  | true => exact hreply
  | false =>
      apply hreply.close
      intro _ ps ps' d d' hps hd
      exact k.closes rfl hr hc hd hps

theorem skipAgree_rounds (fuel : Nat) : k.SkipAgree (g.rounds fuel) g.answer := by
  intro c c' hc
  apply (k.skips hc).of_refines
  exact g.skip_refines (fun tight e c => g.rounds_refines_answer fuel tight e c) tight c

theorem agree_rounds (fuel : Nat) {e : Expr ρ} (he : e.built k.leaf k.part = true) :
    k.Agree e (g.rounds fuel) g.answer ∧ k.AgreeOn e (g.rounds fuel) g.answer := by
  induction fuel generalizing e with
  | zero => exact ⟨fun _ _ _ => trivial, fun _ _ _ => trivial⟩
  | succ fuel ih =>
      have hskip := k.skipAgree_rounds fuel
      have hleaf (hleaf : k.leaf e = true) : k.Agree e (g.rounds (fuel + 1)) g.answer := by
        intro c c' hc
        exact (k.leaves hleaf hc).of_refines (g.rounds_refines_answer _ tight e c)
      refine ⟨?_, ?_⟩
      · cases e with
        | text chars => exact hleaf he
        | char set => exact hleaf he
        | start => exact hleaf he
        | finish => exact hleaf he
        | more a => exact nomatch he
        | rule r =>
            rcases Bool.or_eq_true_iff.mp he with hr | hr
            · exact hleaf hr
            · intro c c' hc
              rw [g.answer_eq_round, Grammar.rounds_succ]
              exact k.rule_agrees hr hc (ih (k.opens hr).2).1
        | seq a b =>
            obtain ⟨ha, hb⟩ := Bool.and_eq_true_iff.mp he
            intro c c' hc
            rw [g.answer_eq_round, Grammar.rounds_succ]
            exact seq_agrees hskip ((ih ha).1 c c' hc) (ih hb).1
        | alt a b =>
            obtain ⟨ha, hb⟩ := Bool.and_eq_true_iff.mp he
            intro c c' hc
            rw [g.answer_eq_round, Grammar.rounds_succ]
            exact alt_agrees ((ih ha).1 c c' hc) ((ih hb).1 c c' hc)
        | opt a =>
            have ha : a.built k.leaf k.part = true := he
            intro c c' hc
            rw [g.answer_eq_round, Grammar.rounds_succ]
            exact opt_agrees (k.ends hc) ((ih ha).1 c c' hc)
        | star a =>
            have ha : a.built k.leaf k.part = true := he
            intro c c' hc
            rw [g.answer_eq_round, Grammar.rounds_succ]
            exact star_agrees (k.ends hc) ((ih ha).1 c c' hc) (ih ha).2
        | neg a =>
            have ha : a.built k.leaf k.part = true := he
            intro c c' hc
            rw [g.answer_eq_round, Grammar.rounds_succ]
            exact neg_agrees (k.ends hc) ((ih ha).1 c c' hc)
-- A repetition is tried again where its body has matched, so it may be in front of filler.
      · intro c c' hc
        rw [g.answer_eq_round, Grammar.rounds_succ]
        exact more_agrees hskip (ih he).1 (ih he).2 hc

theorem agree {e : Expr ρ} (he : e.built k.leaf k.part = true) : k.Agree e g.answer g.answer := by
  intro c c' hc
  obtain ⟨n, hn⟩ := g.settles_rounds tight e c
  rw [← hn n (Nat.le_refl n)]
  exact (k.agree_rounds n he).1 c c' hc

end Likeness

end XiFront.Peg

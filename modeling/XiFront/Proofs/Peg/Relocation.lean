import XiFront.Proofs.Peg.Attempts

namespace XiFront.Peg

namespace Cursor

def move (bytes : Nat) (c : Cursor) : Cursor :=
  ⟨c.rest, c.offset + bytes⟩

@[simp] theorem rest_move (bytes : Nat) (c : Cursor) : (c.move bytes).rest = c.rest := rfl

@[simp] theorem offset_move (bytes : Nat) (c : Cursor) :
    (c.move bytes).offset = c.offset + bytes := rfl

theorem text?_move (bytes : Nat) (c : Cursor) (chars : List Char) :
    (c.move bytes).text? chars = (c.text? chars).map (move bytes) := by
  induction chars generalizing c with
  | nil => rfl
  | cons x xs ih =>
      obtain ⟨_ | ⟨y, ys⟩, offset⟩ := c
      · rfl
      · rw [move, text?_cons_cons, text?_cons_cons]
        split
        · rw [← ih, move, Nat.add_right_comm]
        · rfl

theorem char?_move (bytes : Nat) (c : Cursor) (set : Charset) :
    (c.move bytes).char? set = (c.char? set).map (move bytes) := by
  obtain ⟨_ | ⟨y, ys⟩, offset⟩ := c
  · rfl
  · rw [move, char?_cons, char?_cons]
    split
    · rw [Option.map_some, move, Nat.add_right_comm]
    · rfl

end Cursor

namespace Expr

def floats (part : ρ → Bool) : Expr ρ → Bool
  | text _ | char _ | finish => true
  | start => false
  | rule r => part r
  | seq a b | alt a b => a.floats part && b.floats part
  | opt a | star a | more a | neg a => a.floats part

end Expr

/-- The second run does what the first does, further on; of a run that gets stuck nothing is said. -/
inductive Watched.Moved (bytes : Nat) (S : σ → σ → Prop) :
    Reply ρ × σ → Reply ρ × σ → Prop
  | stuck {s : σ} {x : Reply ρ × σ} : Moved bytes S (.stuck, s) x
  | fail {s s' : σ} (h : S s s') : Moved bytes S (.fail, s) (.fail, s')
  | ok {ps ps' : List (Pair ρ)} {c : Cursor} {s s' : σ} (h : S s s') :
      Moved bytes S (.ok ps c, s) (.ok ps' (c.move bytes), s')

namespace Watched.Moved

variable {bytes : Nat} {S : σ → σ → Prop} {x x' : Reply ρ × σ}

theorem resume (hx : Moved bytes S x x')
    {onMatch onMatch' : List (Pair ρ) → Cursor → σ → Reply ρ × σ} {onFail onFail' : σ → Reply ρ × σ}
    (hMatch : ∀ ps ps' c s s', S s s' →
      Moved bytes S (onMatch ps c s) (onMatch' ps' (c.move bytes) s'))
    (hFail : ∀ s s', S s s' → Moved bytes S (onFail s) (onFail' s')) :
    Moved bytes S (Watched.resume x onMatch onFail) (Watched.resume x' onMatch' onFail') := by
  cases hx with
  | stuck => exact .stuck
  | fail h => exact hFail _ _ h
  | ok h => exact hMatch _ _ _ _ _ h

theorem prepend (hx : Moved bytes S x x') (ps ps' : List (Pair ρ)) :
    Moved bytes S (Watched.prepend ps x) (Watched.prepend ps' x') := by
  cases hx with
  | stuck => exact .stuck
  | fail h => exact .fail h
  | ok h => exact .ok h

theorem ofOption {c? : Option Cursor} {s s' : σ} (h : S s s') :
    Moved bytes S ((.ofOption c?, s) : Reply ρ × σ)
      (.ofOption (c?.map (Cursor.move bytes)), s') := by
  cases c? with
  | none => exact .fail h
  | some c => exact .ok h

end Watched.Moved

/-- An observer that takes the same part in a run wherever the text stands. -/
structure Relocation (g : Grammar ρ) (observe : Observer ρ σ) (bytes : Nat)
    (S : σ → σ → Prop) where
  part : ρ → Bool
  body : ∀ r, part r = true → (g.production r).body.floats part = true
  filler : g.filler.floats part = true
  visit : ∀ {v : Visit ρ} {s t s' t' : σ}, S s s' → S t t' →
    S (observe v s t) (observe { v with offset := v.offset + bytes } s' t')

namespace Relocation

variable {g : Grammar ρ} {observe : Observer ρ σ} {bytes : Nat} {S : σ → σ → Prop}

theorem close (k : Relocation g observe bytes S) {x x' : Reply ρ × σ}
    (hx : Watched.Moved bytes S x x') {s s' : σ} (hs : S s s') (r : ρ) (leavesPair negated : Bool)
    (offset : Nat) :
    Watched.Moved bytes S
      (x.1.close r leavesPair offset,
        observe ⟨r, leavesPair, offset, negated, x.1.matched⟩ s x.2)
      (x'.1.close r leavesPair (offset + bytes),
        observe ⟨r, leavesPair, offset + bytes, negated, x'.1.matched⟩ s' x'.2) := by
  cases hx with
  | stuck => exact .stuck
  | fail h => exact .fail (k.visit hs h)
  | ok h =>
      cases leavesPair with
      | true => exact .ok (k.visit hs h)
      | false => exact .ok (k.visit hs h)

theorem run (k : Relocation g observe bytes S) {fuel fuel' : Nat} (hfuel : fuel ≤ fuel')
    (m : Mode) {e : Expr ρ} (he : e.floats k.part = true) (c : Cursor) {s s' : σ} (hs : S s s') :
    Watched.Moved bytes S (g.run observe fuel m e c s)
      (g.run observe fuel' m e (c.move bytes) s') := by
  induction fuel generalizing fuel' m e c s s' with
  | zero => exact .stuck
  | succ fuel ih =>
      obtain ⟨fuel', rfl⟩ : ∃ n, fuel' = n + 1 := ⟨fuel' - 1, by omega⟩
      have ih' {m : Mode} {e : Expr ρ} (he : e.floats k.part = true) (c : Cursor) {s s' : σ}
          (hs : S s s') : Watched.Moved bytes S (g.run observe fuel m e c s)
            (g.run observe fuel' m e (c.move bytes) s') :=
        ih (Nat.le_of_succ_le_succ hfuel) m he c hs
      have hpass (c : Cursor) {s s' : σ} (hs : S s s') :
          Watched.Moved bytes S (g.pass (g.run observe fuel) m c s)
            (g.pass (g.run observe fuel') m (c.move bytes) s') := by
        unfold Grammar.pass
        split
        · exact .ok hs
        · exact ih' k.filler c hs
      rw [Grammar.run_succ, Grammar.run_succ]
      cases e with
      | text chars =>
          rw [Grammar.watch, Grammar.watch, Cursor.text?_move]
          exact .ofOption hs
      | char set =>
          rw [Grammar.watch, Grammar.watch, Cursor.char?_move]
          exact .ofOption hs
      | start => cases he
      | finish =>
          rw [Grammar.watch, Grammar.watch, Cursor.rest_move]
          split
          · exact .ok hs
          · exact .fail hs
      | rule r =>
          have hbody := ih' (m := ⟨m.tight || (g.production r).tight, m.negated⟩) (k.body r he) c hs
          rw [Grammar.watch, Grammar.watch]
          split
          · exact hbody
          · exact k.close hbody hs r _ _ c.offset
      | seq a b =>
          obtain ⟨ha, hb⟩ := Bool.and_eq_true_iff.mp he
          refine (ih' ha c hs).resume (fun ps ps' c₁ s₁ s₁' hs₁ => ?_) fun _ _ => .fail
          refine (hpass c₁ hs₁).resume (fun _ _ c₂ s₂ s₂' hs₂ => ?_) fun _ _ => .fail
          exact (ih' hb c₂ hs₂).prepend ps ps'
      | alt a b =>
          obtain ⟨ha, hb⟩ := Bool.and_eq_true_iff.mp he
          exact (ih' ha c hs).resume (fun _ _ _ _ _ => .ok) fun _ _ => ih' hb c
      | opt a =>
          have ha : a.floats k.part = true := he
          exact (ih' ha c hs).resume (fun _ _ _ _ _ => .ok) fun _ _ => .ok
      | star a =>
          have ha : a.floats k.part = true := he
          have hmore : (Expr.more a).floats k.part = true := he
          refine (ih' ha c hs).resume (fun ps ps' c₁ s₁ s₁' hs₁ => ?_) fun _ _ => .ok
          exact (ih' hmore c₁ hs₁).prepend ps ps'
      | more a =>
          refine (hpass c hs).resume (fun _ _ c₁ s₁ s₁' hs₁ => ?_) fun _ _ => .ok
          have ha : a.floats k.part = true := he
          refine (ih' ha c₁ hs₁).resume (fun ps ps' c₂ s₂ s₂' hs₂ => ?_) fun _ _ => .ok
          exact (ih' he c₂ hs₂).prepend ps ps'
      | neg a =>
          have ha : a.floats k.part = true := he
          exact (ih' ha c hs).resume (fun _ _ _ _ _ => .fail) fun _ _ => .ok

end Relocation

namespace Attempts

def move (bytes : Nat) (a : Attempts ρ) : Attempts ρ :=
  { a with offset := a.offset + bytes }

/-- The same attempts further on, or none yet on either side. -/
def Moved (bytes : Nat) (a a' : Attempts ρ) : Prop :=
  a' = a.move bytes ∨ a = initial ∧ a' = initial

namespace Moved

variable {bytes : Nat} {a a' : Attempts ρ}

theorem count (h : Moved bytes a a') (offset : Nat) :
    a'.count (offset + bytes) = a.count offset := by
  rcases h with rfl | ⟨rfl, rfl⟩
  · simp only [Attempts.count, move, Nat.add_right_cancel_iff]
  · rw [count_initial, count_initial]

theorem lt_iff (h : Moved bytes a a') (offset : Nat) :
    offset + bytes < a'.offset ↔ offset < a.offset := by
  rcases h with rfl | ⟨rfl, rfl⟩
  · exact Nat.add_lt_add_iff_right
  · exact ⟨fun h => absurd h (Nat.not_lt_zero _), fun h => absurd h (Nat.not_lt_zero _)⟩

theorem since (h : Moved bytes a a') (offset : Nat) :
    a'.since (offset + bytes) = (a.since offset).move bytes := by
  have hnone (offset : Nat) : (initial : Attempts ρ).since offset = ⟨offset, [], []⟩ := by
    unfold Attempts.since
    split
    · next hzero =>
        rw [← hzero]
        rfl
    · rfl
  rcases h with rfl | ⟨rfl, rfl⟩
  · simp only [Attempts.since, move, Nat.add_right_cancel_iff]
    split <;> rfl
  · rw [hnone, hnone]
    rfl

theorem add (a : Attempts ρ) (negated : Bool) (r : ρ) :
    (a.move bytes).add negated r = (a.add negated r).move bytes := by
  cases negated <;> rfl

theorem note {b b' : Attempts ρ} {v : Visit ρ} (ha : Moved bytes a a') (hb : Moved bytes b b') :
    Moved bytes (note v a b) (note { v with offset := v.offset + bytes } a' b') := by
  unfold Attempts.note
  dsimp only
  rw [ha.count, hb.count, ha.since, add]
  simp only [hb.lt_iff]
  split
  · exact hb
  split
  · exact hb
  split
  · exact hb
  · exact .inl rfl

end Moved

end Attempts

end XiFront.Peg

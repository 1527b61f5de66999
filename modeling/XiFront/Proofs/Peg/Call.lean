import XiFront.Proofs.Peg.Reading

namespace XiFront.Peg

namespace Reply

theorem resume_congr {reply : Reply ρ} {onMatch onMatch' : List (Pair ρ) → Cursor → Reply ρ}
    {onFail onFail' : Reply ρ}
    (hMatch : ∀ ps c, reply = ok ps c → onMatch' ps c = onMatch ps c)
    (hFail : reply = fail → onFail' = onFail) :
    reply.resume onMatch' onFail' = reply.resume onMatch onFail := by
  cases reply with
  | stuck => rfl
  | fail => exact hFail rfl
  | ok ps c => exact hMatch ps c rfl

theorem ofOption_ne_stuck (c? : Option Cursor) : (ofOption c? : Reply ρ) ≠ stuck := by
  cases c? with
  | none => exact fail_ne_stuck
  | some c => exact ok_ne_stuck [] c

theorem resume_ne_stuck {reply : Reply ρ} {onMatch : List (Pair ρ) → Cursor → Reply ρ}
    {onFail : Reply ρ} (h : reply ≠ stuck)
    (hMatch : ∀ ps c, reply = ok ps c → onMatch ps c ≠ stuck)
    (hFail : reply = fail → onFail ≠ stuck) :
    reply.resume onMatch onFail ≠ stuck := by
  cases reply with
  | stuck => exact absurd rfl h
  | fail => exact hFail rfl
  | ok ps c => exact hMatch ps c rfl

theorem prepend_ne_stuck {reply : Reply ρ} (h : reply ≠ stuck) (pairs : List (Pair ρ)) :
    reply.prepend pairs ≠ stuck :=
  resume_ne_stuck h (fun _ _ _ => ok_ne_stuck _ _) fun _ => fail_ne_stuck

theorem close_ne_stuck {reply : Reply ρ} (h : reply ≠ stuck) (r : ρ) (leavesPair : Bool)
    (offset : Nat) : reply.close r leavesPair offset ≠ stuck := by
  cases reply with
  | stuck => exact absurd rfl h
  | fail => exact fail_ne_stuck
  | ok ps c =>
      rw [close_ok]
      split <;> exact ok_ne_stuck _ _

end Reply

/-- An expression run at a cursor. -/
structure Call (ρ : Type) where
  tight : Bool
  expr : Expr ρ
  cursor : Cursor

def Call.begin (r : ρ) (text : List Char) : Call ρ :=
  ⟨false, .rule r, .ofText text⟩

def Call.reply (parts : Replies ρ) (q : Call ρ) : Reply ρ :=
  parts q.tight q.expr q.cursor

namespace Grammar

/-- The first call is made by the second, if its earlier calls reply as `parts` says. -/
inductive CalledBy (g : Grammar ρ) (parts : Replies ρ) : Call ρ → Call ρ → Prop
  | body {tight : Bool} {r : ρ} {c : Cursor} :
      CalledBy g parts ⟨tight || (g.production r).tight, (g.production r).body, c⟩
        ⟨tight, .rule r, c⟩
  | first {tight : Bool} {a b : Expr ρ} {c : Cursor} :
      CalledBy g parts ⟨tight, a, c⟩ ⟨tight, .seq a b, c⟩
  | between {a b : Expr ρ} {c c₁ : Cursor} {ps : List (Pair ρ)}
      (ha : parts false a c = .ok ps c₁) :
      CalledBy g parts ⟨true, g.filler, c₁⟩ ⟨false, .seq a b, c⟩
  | second {tight : Bool} {a b : Expr ρ} {c c₁ c₂ : Cursor} {ps qs : List (Pair ρ)}
      (ha : parts tight a c = .ok ps c₁) (hskip : g.skip parts tight c₁ = .ok qs c₂) :
      CalledBy g parts ⟨tight, b, c₂⟩ ⟨tight, .seq a b, c⟩
  | preferred {tight : Bool} {a b : Expr ρ} {c : Cursor} :
      CalledBy g parts ⟨tight, a, c⟩ ⟨tight, .alt a b, c⟩
  | otherwise {tight : Bool} {a b : Expr ρ} {c : Cursor} (ha : parts tight a c = .fail) :
      CalledBy g parts ⟨tight, b, c⟩ ⟨tight, .alt a b, c⟩
  | optional {tight : Bool} {a : Expr ρ} {c : Cursor} :
      CalledBy g parts ⟨tight, a, c⟩ ⟨tight, .opt a, c⟩
  | once {tight : Bool} {a : Expr ρ} {c : Cursor} :
      CalledBy g parts ⟨tight, a, c⟩ ⟨tight, .star a, c⟩
  | again {tight : Bool} {a : Expr ρ} {c c₁ : Cursor} {ps : List (Pair ρ)}
      (ha : parts tight a c = .ok ps c₁) :
      CalledBy g parts ⟨tight, .more a, c₁⟩ ⟨tight, .star a, c⟩
  | gap {a : Expr ρ} {c : Cursor} :
      CalledBy g parts ⟨true, g.filler, c⟩ ⟨false, .more a, c⟩
  | next {tight : Bool} {a : Expr ρ} {c c₁ : Cursor} {qs : List (Pair ρ)}
      (hskip : g.skip parts tight c = .ok qs c₁) :
      CalledBy g parts ⟨tight, a, c₁⟩ ⟨tight, .more a, c⟩
  | further {tight : Bool} {a : Expr ρ} {c c₁ c₂ : Cursor} {ps qs : List (Pair ρ)}
      (hskip : g.skip parts tight c = .ok qs c₁) (ha : parts tight a c₁ = .ok ps c₂) :
      CalledBy g parts ⟨tight, .more a, c₂⟩ ⟨tight, .more a, c⟩
  | negated {tight : Bool} {a : Expr ρ} {c : Cursor} :
      CalledBy g parts ⟨tight, a, c⟩ ⟨tight, .neg a, c⟩

theorem round_congr {g : Grammar ρ} {parts parts' : Replies ρ} {p : Call ρ}
    (h : ∀ q, g.CalledBy parts q p → q.reply parts' = q.reply parts) :
    p.reply (g.round parts') = p.reply (g.round parts) := by
  obtain ⟨tight, e, c⟩ := p
  have hskip {c₁ : Cursor} (hcall : tight = false →
      g.CalledBy parts ⟨true, g.filler, c₁⟩ ⟨tight, e, c⟩) :
      g.skip parts' tight c₁ = g.skip parts tight c₁ := by
    cases tight with
    | true => rfl
    | false => exact h _ (hcall rfl)
  cases e with
  | text chars => rfl
  | char set => rfl
  | start => rfl
  | finish => rfl
  | rule r =>
      have hbody : parts' _ _ _ = parts _ _ _ := h _ .body
      simp only [Call.reply, round, hbody]
  | seq a b =>
      have ha : parts' tight a c = parts tight a c := h _ .first
      simp only [Call.reply, round, ha]
      refine Reply.resume_congr (fun ps c₁ h₁ => ?_) fun _ => rfl
      rw [hskip (by rintro rfl; exact .between h₁)]
      refine Reply.resume_congr (fun qs c₂ h₂ => ?_) fun _ => rfl
      have hb : parts' tight b c₂ = parts tight b c₂ := h _ (.second h₁ h₂)
      rw [hb]
  | alt a b =>
      have ha : parts' tight a c = parts tight a c := h _ .preferred
      simp only [Call.reply, round, ha]
      exact Reply.resume_congr (fun _ _ _ => rfl) fun h₁ => h _ (.otherwise h₁)
  | opt a =>
      have ha : parts' tight a c = parts tight a c := h _ .optional
      simp only [Call.reply, round, ha]
  | star a =>
      have ha : parts' tight a c = parts tight a c := h _ .once
      simp only [Call.reply, round, ha]
      refine Reply.resume_congr (fun ps c₁ h₁ => ?_) fun _ => rfl
      have hmore : parts' tight (.more a) c₁ = parts tight (.more a) c₁ := h _ (.again h₁)
      rw [hmore]
  | more a =>
      simp only [Call.reply, round]
      rw [hskip (by rintro rfl; exact .gap)]
      refine Reply.resume_congr (fun qs c₁ h₁ => ?_) fun _ => rfl
      have ha : parts' tight a c₁ = parts tight a c₁ := h _ (.next h₁)
      rw [ha]
      refine Reply.resume_congr (fun ps c₂ h₂ => ?_) fun _ => rfl
      have hmore : parts' tight (.more a) c₂ = parts tight (.more a) c₂ := h _ (.further h₁ h₂)
      rw [hmore]
  | neg a =>
      have ha : parts' tight a c = parts tight a c := h _ .negated
      simp only [Call.reply, round, ha]

theorem round_ne_stuck {g : Grammar ρ} {parts : Replies ρ} {p : Call ρ}
    (h : ∀ q, g.CalledBy parts q p → q.reply parts ≠ .stuck) :
    p.reply (g.round parts) ≠ .stuck := by
  obtain ⟨tight, e, c⟩ := p
  have hskip {c₁ : Cursor} (hcall : tight = false →
      g.CalledBy parts ⟨true, g.filler, c₁⟩ ⟨tight, e, c⟩) :
      g.skip parts tight c₁ ≠ .stuck := by
    cases tight with
    | true => exact Reply.ok_ne_stuck _ _
    | false => exact h _ (hcall rfl)
  cases e with
  | text chars => exact Reply.ofOption_ne_stuck _
  | char set => exact Reply.ofOption_ne_stuck _
  | start =>
      simp only [Call.reply, round]
      split
      · exact Reply.ok_ne_stuck _ _
      · exact Reply.fail_ne_stuck
  | finish =>
      simp only [Call.reply, round]
      split
      · exact Reply.ok_ne_stuck _ _
      · exact Reply.fail_ne_stuck
  | rule r =>
      have hbody := h _ .body
      simp only [Call.reply, round]
      split
      · exact hbody
      · exact Reply.close_ne_stuck hbody _ _ _
  | seq a b =>
      refine Reply.resume_ne_stuck (h _ .first) (fun ps c₁ h₁ => ?_) fun _ => Reply.fail_ne_stuck
      refine Reply.resume_ne_stuck (hskip (by rintro rfl; exact .between h₁))
        (fun qs c₂ h₂ => ?_) fun _ => Reply.fail_ne_stuck
      exact Reply.prepend_ne_stuck (h _ (.second h₁ h₂)) _
  | alt a b =>
      exact Reply.resume_ne_stuck (h _ .preferred) (fun _ _ _ => Reply.ok_ne_stuck _ _)
        fun h₁ => h _ (.otherwise h₁)
  | opt a =>
      exact Reply.resume_ne_stuck (h _ .optional) (fun _ _ _ => Reply.ok_ne_stuck _ _)
        fun _ => Reply.ok_ne_stuck _ _
  | star a =>
      refine Reply.resume_ne_stuck (h _ .once) (fun ps c₁ h₁ => ?_) fun _ =>
        Reply.ok_ne_stuck _ _
      exact Reply.prepend_ne_stuck (h _ (.again h₁)) _
  | more a =>
      refine Reply.resume_ne_stuck (hskip (by rintro rfl; exact .gap))
        (fun qs c₁ h₁ => ?_) fun _ => Reply.ok_ne_stuck _ _
      refine Reply.resume_ne_stuck (h _ (.next h₁)) (fun ps c₂ h₂ => ?_) fun _ =>
        Reply.ok_ne_stuck _ _
      exact Reply.prepend_ne_stuck (h _ (.further h₁ h₂)) _
  | neg a =>
      exact Reply.resume_ne_stuck (h _ .negated) (fun _ _ _ => Reply.fail_ne_stuck)
        fun _ => Reply.ok_ne_stuck _ _

end Grammar

end XiFront.Peg

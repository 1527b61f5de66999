import XiFront.Peg.Match

/-!
Runs without their fuel.  One round of a run asks for the replies of the parts; the answer of an
expression is what some fuel finds and any larger fuel confirms, and it satisfies the equations of
one round.
-/

namespace XiFront.Peg

namespace Reply

def resume (reply : Reply ρ) (onMatch : List (Pair ρ) → Cursor → Reply ρ)
    (onFail : Reply ρ) : Reply ρ :=
  match reply with
  | stuck => stuck
  | fail => onFail
  | ok pairs after => onMatch pairs after

/-- The reply with further pairs in front of its own. -/
def prepend (pairs : List (Pair ρ)) (reply : Reply ρ) : Reply ρ :=
  reply.resume (fun others after => ok (pairs ++ others) after) fail

@[simp] theorem resume_stuck (onMatch : List (Pair ρ) → Cursor → Reply ρ)
    (onFail : Reply ρ) : stuck.resume onMatch onFail = stuck := rfl

@[simp] theorem resume_fail (onMatch : List (Pair ρ) → Cursor → Reply ρ)
    (onFail : Reply ρ) : fail.resume onMatch onFail = onFail := rfl

@[simp] theorem resume_ok (pairs : List (Pair ρ)) (after : Cursor)
    (onMatch : List (Pair ρ) → Cursor → Reply ρ) (onFail : Reply ρ) :
    (ok pairs after).resume onMatch onFail = onMatch pairs after := rfl

@[simp] theorem prepend_fail (pairs : List (Pair ρ)) :
    (fail : Reply ρ).prepend pairs = fail := rfl

@[simp] theorem prepend_stuck (pairs : List (Pair ρ)) :
    (stuck : Reply ρ).prepend pairs = stuck := rfl

@[simp] theorem prepend_ok (pairs others : List (Pair ρ)) (after : Cursor) :
    (ok others after).prepend pairs = ok (pairs ++ others) after := rfl

@[simp] theorem close_fail (r : ρ) (leavesPair : Bool) (offset : Nat) :
    (fail : Reply ρ).close r leavesPair offset = fail := rfl

@[simp] theorem close_stuck (r : ρ) (leavesPair : Bool) (offset : Nat) :
    (stuck : Reply ρ).close r leavesPair offset = stuck := rfl

@[simp] theorem close_ok (r : ρ) (leavesPair : Bool) (offset : Nat)
    (pairs : List (Pair ρ)) (after : Cursor) :
    (ok pairs after).close r leavesPair offset =
      if leavesPair then ok [.node r offset after.offset pairs] after
      else ok pairs after := rfl

theorem resume_eq_ok_iff {reply : Reply ρ} {onMatch : List (Pair ρ) → Cursor → Reply ρ}
    {onFail : Reply ρ} {pairs : List (Pair ρ)} {after : Cursor} :
    reply.resume onMatch onFail = ok pairs after ↔
      (reply = fail ∧ onFail = ok pairs after) ∨
        ∃ ps c, reply = ok ps c ∧ onMatch ps c = ok pairs after := by
  cases reply with
  | stuck => simp
  | fail => simp
  | ok ps c => grind [resume_ok]

theorem prepend_eq_ok_iff {reply : Reply ρ} {front pairs : List (Pair ρ)}
    {after : Cursor} :
    reply.prepend front = ok pairs after ↔
      ∃ others, reply = ok others after ∧ front ++ others = pairs := by
  cases reply with
  | stuck => simp
  | fail => simp
  | ok others c => grind [prepend_ok]

theorem resume_eq_fail_iff {reply : Reply ρ} {onMatch : List (Pair ρ) → Cursor → Reply ρ}
    {onFail : Reply ρ} :
    reply.resume onMatch onFail = fail ↔
      (reply = fail ∧ onFail = fail) ∨ ∃ ps c, reply = ok ps c ∧ onMatch ps c = fail := by
  cases reply with
  | stuck => simp
  | fail => simp
  | ok ps c => grind [resume_ok]

theorem prepend_eq_fail_iff {reply : Reply ρ} {front : List (Pair ρ)} :
    reply.prepend front = fail ↔ reply = fail := by
  cases reply <;> simp

def Refines (first second : Reply ρ) : Prop :=
  first = stuck ∨ first = second

theorem Refines.refl (reply : Reply ρ) : reply.Refines reply :=
  .inr rfl

theorem Refines.eq {first second : Reply ρ} (h : first.Refines second)
    (hne : first ≠ stuck) : first = second :=
  h.resolve_left hne

theorem Refines.trans {first second third : Reply ρ} (h : first.Refines second)
    (h' : second.Refines third) : first.Refines third := by
  rcases h with rfl | rfl
  · exact .inl rfl
  · exact h'

theorem Refines.resume {first second : Reply ρ} (h : first.Refines second)
    {onMatch onMatch' : List (Pair ρ) → Cursor → Reply ρ} {onFail onFail' : Reply ρ}
    (hMatch : ∀ ps c, (onMatch ps c).Refines (onMatch' ps c))
    (hFail : onFail.Refines onFail') :
    (first.resume onMatch onFail).Refines (second.resume onMatch' onFail') := by
  rcases h with rfl | rfl
  · exact .inl rfl
  · cases first with
    | stuck => exact .inl rfl
    | fail => exact hFail
    | ok ps c => exact hMatch ps c

theorem Refines.prepend {first second : Reply ρ} (h : first.Refines second)
    (pairs : List (Pair ρ)) : (first.prepend pairs).Refines (second.prepend pairs) :=
  h.resume (fun _ _ => .refl _) (.refl _)

theorem Refines.close {first second : Reply ρ} (h : first.Refines second) (r : ρ)
    (leavesPair : Bool) (offset : Nat) :
    (first.close r leavesPair offset).Refines (second.close r leavesPair offset) := by
  rcases h with rfl | rfl
  · exact .inl rfl
  · exact .refl _

end Reply

abbrev Replies (ρ : Type) :=
  Bool → Expr ρ → Cursor → Reply ρ

namespace Grammar

/-- The filler in front of a part, none where the run is tight. -/
def skip (g : Grammar ρ) (parts : Replies ρ) (tight : Bool) (c : Cursor) : Reply ρ :=
  if tight then .ok [] c else parts true g.filler c

/-- One round: the reply of an expression from those of its parts. -/
def round (g : Grammar ρ) (parts : Replies ρ) : Replies ρ
  | _, .text chars, c => .ofOption (c.text? chars)
  | _, .char set, c => .ofOption (c.char? set)
  | _, .start, c => if c.offset = 0 then .ok [] c else .fail
  | _, .finish, c => if c.rest.isEmpty then .ok [] c else .fail
  | tight, .rule r, c =>
      let reply := parts (tight || (g.production r).tight) (g.production r).body c
      if tight then reply else reply.close r (g.production r).leavesPair c.offset
  | tight, .seq first second, c =>
      (parts tight first c).resume
        (fun pairs c₁ =>
          (g.skip parts tight c₁).resume
            (fun _ c₂ => (parts tight second c₂).prepend pairs) .fail)
        .fail
  | tight, .alt first second, c => (parts tight first c).resume .ok (parts tight second c)
  | tight, .opt body, c => (parts tight body c).resume .ok (.ok [] c)
  | tight, .star body, c =>
      (parts tight body c).resume
        (fun pairs c₁ => (parts tight (.more body) c₁).prepend pairs) (.ok [] c)
  | tight, .more body, c =>
      (g.skip parts tight c).resume
        (fun _ c₁ =>
          (parts tight body c₁).resume
            (fun pairs c₂ => (parts tight (.more body) c₂).prepend pairs) (.ok [] c))
        (.ok [] c)
  | tight, .neg body, c => (parts tight body c).resume (fun _ _ => .fail) (.ok [] c)

/-- As many rounds as the fuel allows, watched by nobody. -/
def rounds (g : Grammar ρ) : Nat → Replies ρ
  | 0 => fun _ _ _ => .stuck
  | fuel + 1 => g.round (g.rounds fuel)

@[simp] theorem rounds_zero (g : Grammar ρ) (tight : Bool) (e : Expr ρ) (c : Cursor) :
    g.rounds 0 tight e c = .stuck := rfl

theorem rounds_succ (g : Grammar ρ) (fuel : Nat) :
    g.rounds (fuel + 1) = g.round (g.rounds fuel) := rfl

theorem rounds_rule_loose (g : Grammar ρ) (fuel : Nat) (r : ρ) (c : Cursor) :
    g.rounds (fuel + 1) false (.rule r) c =
      (g.rounds fuel (g.production r).tight (g.production r).body c).close r
        (g.production r).leavesPair c.offset := rfl

/-- The observer sees the run and does not change it. -/
theorem run_fst (g : Grammar ρ) (observe : Observer ρ σ) (fuel : Nat) (m : Mode)
    (e : Expr ρ) (c : Cursor) (s : σ) :
    (g.run observe fuel m e c s).1 = g.rounds fuel m.tight e c := by
  induction fuel generalizing m e c s with
  | zero => rfl
  | succ fuel ih =>
      have hskip (c : Cursor) (s : σ) :
          (if m.tight then (Reply.ok [] c, s)
            else g.run observe fuel ⟨true, m.negated⟩ g.filler c s).1 =
          g.skip (g.rounds fuel) m.tight c := by
        unfold skip
        split
        · rfl
        · rw [ih]
      cases e with
      | text chars => rfl
      | char set => rfl
      | start =>
          simp only [run, rounds, round]
          split <;> rfl
      | finish =>
          simp only [run, rounds, round]
          split <;> rfl
      | rule r =>
          simp only [run, rounds, round, ← ih ⟨m.tight || (g.production r).tight, m.negated⟩
            (g.production r).body c s]
          split <;> rfl
      | seq first second =>
          simp only [run, rounds, round, ← ih m first c s]
          rcases g.run observe fuel m first c s with ⟨_ | _ | ⟨pairs, c₁⟩, s₁⟩
          · rfl
          · rfl
          · simp only [Reply.resume_ok, ← hskip c₁ s₁]
            rcases (if m.tight then (Reply.ok [] c₁, s₁)
              else g.run observe fuel ⟨true, m.negated⟩ g.filler c₁ s₁)
              with ⟨_ | _ | ⟨_, c₂⟩, s₂⟩
            · rfl
            · rfl
            · simp only [Reply.resume_ok, ← ih m second c₂ s₂]
              rcases g.run observe fuel m second c₂ s₂ with ⟨_ | _ | ⟨others, c₃⟩, s₃⟩ <;> rfl
      | alt first second =>
          simp only [run, rounds, round, ← ih m first c s]
          rcases g.run observe fuel m first c s with ⟨_ | _ | ⟨pairs, c₁⟩, s₁⟩
          · rfl
          · exact ih m second c s₁
          · rfl
      | opt body =>
          simp only [run, rounds, round, ← ih m body c s]
          rcases g.run observe fuel m body c s with ⟨_ | _ | ⟨pairs, c₁⟩, s₁⟩ <;> rfl
      | star body =>
          simp only [run, rounds, round, ← ih m body c s]
          rcases g.run observe fuel m body c s with ⟨_ | _ | ⟨pairs, c₁⟩, s₁⟩
          · rfl
          · rfl
          · simp only [Reply.resume_ok, ← ih m (.more body) c₁ s₁]
            rcases g.run observe fuel m (.more body) c₁ s₁ with
              ⟨_ | _ | ⟨others, c₂⟩, s₂⟩ <;> rfl
      | more body =>
          simp only [run, rounds, round, ← hskip c s]
          rcases (if m.tight then (Reply.ok [] c, s)
            else g.run observe fuel ⟨true, m.negated⟩ g.filler c s)
            with ⟨_ | _ | ⟨_, c₁⟩, s₁⟩
          · rfl
          · rfl
          · simp only [Reply.resume_ok, ← ih m body c₁ s₁]
            rcases g.run observe fuel m body c₁ s₁ with ⟨_ | _ | ⟨pairs, c₂⟩, s₂⟩
            · rfl
            · rfl
            · simp only [Reply.resume_ok, ← ih m (.more body) c₂ s₂]
              rcases g.run observe fuel m (.more body) c₂ s₂ with
                ⟨_ | _ | ⟨others, c₃⟩, s₃⟩ <;> rfl
      | neg body =>
          simp only [run, rounds, round, ← ih ⟨m.tight, !m.negated⟩ body c s]
          rcases g.run observe fuel ⟨m.tight, !m.negated⟩ body c s with
            ⟨_ | _ | ⟨pairs, c₁⟩, s₁⟩ <;> rfl

theorem skip_refines {parts parts' : Replies ρ} (g : Grammar ρ)
    (h : ∀ tight e c, (parts tight e c).Refines (parts' tight e c))
    (tight : Bool) (c : Cursor) :
    (g.skip parts tight c).Refines (g.skip parts' tight c) := by
  unfold skip
  split
  · exact .refl _
  · exact h _ _ _

theorem round_refines {parts parts' : Replies ρ} (g : Grammar ρ)
    (h : ∀ tight e c, (parts tight e c).Refines (parts' tight e c))
    (tight : Bool) (e : Expr ρ) (c : Cursor) :
    (g.round parts tight e c).Refines (g.round parts' tight e c) := by
  cases e with
  | text chars => exact .refl _
  | char set => exact .refl _
  | start => exact .refl _
  | finish => exact .refl _
  | rule r =>
      simp only [round]
      split
      · exact h _ _ _
      · exact (h _ _ _).close _ _ _
  | seq first second =>
      refine (h _ _ _).resume (fun pairs c₁ => ?_) (.refl _)
      refine (g.skip_refines h _ _).resume (fun _ c₂ => ?_) (.refl _)
      exact (h _ _ _).prepend pairs
  | alt first second => exact (h _ _ _).resume (fun _ _ => .refl _) (h _ _ _)
  | opt body => exact (h _ _ _).resume (fun _ _ => .refl _) (.refl _)
  | star body =>
      exact (h _ _ _).resume (fun pairs c₁ => (h _ _ _).prepend pairs) (.refl _)
  | more body =>
      refine (g.skip_refines h _ _).resume (fun _ c₁ => ?_) (.refl _)
      exact (h _ _ _).resume (fun pairs c₂ => (h _ _ _).prepend pairs) (.refl _)
  | neg body => exact (h _ _ _).resume (fun _ _ => .refl _) (.refl _)

theorem rounds_refines_succ (g : Grammar ρ) (fuel : Nat) (tight : Bool) (e : Expr ρ)
    (c : Cursor) : (g.rounds fuel tight e c).Refines (g.rounds (fuel + 1) tight e c) := by
  induction fuel generalizing tight e c with
  | zero => exact .inl rfl
  | succ fuel ih => exact g.round_refines ih tight e c

theorem rounds_refines (g : Grammar ρ) {fuel more : Nat} (h : fuel ≤ more) (tight : Bool)
    (e : Expr ρ) (c : Cursor) :
    (g.rounds fuel tight e c).Refines (g.rounds more tight e c) := by
  induction h with
  | refl => exact .refl _
  | step _ ih => exact ih.trans (g.rounds_refines_succ _ tight e c)

open Classical in
/-- What an expression replies once the fuel is large enough; stuck if no fuel is. -/
noncomputable def answer (g : Grammar ρ) : Replies ρ :=
  fun tight e c =>
    if h : ∃ fuel, g.rounds fuel tight e c ≠ .stuck then g.rounds h.choose tight e c
    else .stuck

theorem answer_eq_of_rounds {g : Grammar ρ} {fuel : Nat} {tight : Bool} {e : Expr ρ}
    {c : Cursor} (h : g.rounds fuel tight e c ≠ .stuck) :
    g.answer tight e c = g.rounds fuel tight e c := by
  have hex : ∃ fuel, g.rounds fuel tight e c ≠ .stuck := ⟨fuel, h⟩
  have hchoose := hex.choose_spec
  simp only [answer, dif_pos hex]
  rcases Nat.le_total fuel hex.choose with hle | hle
  · exact ((g.rounds_refines hle tight e c).eq h).symm
  · exact (g.rounds_refines hle tight e c).eq hchoose

/-- A sequence of replies that is constant from some fuel on. -/
def Settles (replies : Nat → Reply ρ) (last : Reply ρ) : Prop :=
  ∃ least, ∀ fuel ≥ least, replies fuel = last

theorem Settles.const (reply : Reply ρ) : Settles (fun _ => reply) reply :=
  ⟨0, fun _ _ => rfl⟩

theorem Settles.unique {replies : Nat → Reply ρ} {first second : Reply ρ}
    (h : Settles replies first) (h' : Settles replies second) : first = second := by
  obtain ⟨n, hn⟩ := h
  obtain ⟨m, hm⟩ := h'
  rw [← hn (max n m) (Nat.le_max_left n m), hm (max n m) (Nat.le_max_right n m)]

theorem Settles.resume {replies onFail : Nat → Reply ρ} {last lastFail : Reply ρ}
    {onMatch : Nat → List (Pair ρ) → Cursor → Reply ρ}
    {lastMatch : List (Pair ρ) → Cursor → Reply ρ}
    (h : Settles replies last)
    (hMatch : ∀ ps c, Settles (fun fuel => onMatch fuel ps c) (lastMatch ps c))
    (hFail : Settles onFail lastFail) :
    Settles (fun fuel => (replies fuel).resume (onMatch fuel) (onFail fuel))
      (last.resume lastMatch lastFail) := by
  obtain ⟨n, hn⟩ := h
  cases last with
  | stuck =>
      refine ⟨n, fun fuel hfuel => ?_⟩
      simp only [hn fuel hfuel, Reply.resume_stuck]
  | fail =>
      obtain ⟨m, hm⟩ := hFail
      refine ⟨max n m, fun fuel hfuel => ?_⟩
      simp only [hn fuel (by omega), Reply.resume_fail, hm fuel (by omega)]
  | ok ps c =>
      obtain ⟨m, hm⟩ := hMatch ps c
      refine ⟨max n m, fun fuel hfuel => ?_⟩
      simp only [hn fuel (by omega), Reply.resume_ok]
      exact hm fuel (by omega)

theorem Settles.prepend {replies : Nat → Reply ρ} {last : Reply ρ}
    (h : Settles replies last) (pairs : List (Pair ρ)) :
    Settles (fun fuel => (replies fuel).prepend pairs) (last.prepend pairs) :=
  h.resume (fun _ _ => .const _) (.const _)

theorem settles_rounds (g : Grammar ρ) (tight : Bool) (e : Expr ρ) (c : Cursor) :
    Settles (fun fuel => g.rounds fuel tight e c) (g.answer tight e c) := by
  by_cases h : ∃ fuel, g.rounds fuel tight e c ≠ .stuck
  · obtain ⟨n, hn⟩ := h
    refine ⟨n, fun fuel hfuel => ?_⟩
    rw [answer_eq_of_rounds hn]
    exact ((g.rounds_refines hfuel tight e c).eq hn).symm
  · refine ⟨0, fun fuel _ => ?_⟩
    rw [answer, dif_neg h]
    exact Classical.not_not.mp fun hne => h ⟨fuel, hne⟩

theorem rounds_refines_answer (g : Grammar ρ) (fuel : Nat) (tight : Bool) (e : Expr ρ)
    (c : Cursor) : (g.rounds fuel tight e c).Refines (g.answer tight e c) := by
  by_cases h : g.rounds fuel tight e c = .stuck
  · exact .inl h
  · exact .inr (answer_eq_of_rounds h).symm

theorem settles_skip (g : Grammar ρ) (tight : Bool) (c : Cursor) :
    Settles (fun fuel => g.skip (g.rounds fuel) tight c) (g.skip g.answer tight c) := by
  unfold skip
  split
  · exact .const _
  · exact g.settles_rounds true g.filler c

theorem settles_round (g : Grammar ρ) (tight : Bool) (e : Expr ρ) (c : Cursor) :
    Settles (fun fuel => g.round (g.rounds fuel) tight e c) (g.round g.answer tight e c) := by
  have hparts := g.settles_rounds
  cases e with
  | text chars => exact .const _
  | char set => exact .const _
  | start => exact .const _
  | finish => exact .const _
  | rule r =>
      obtain ⟨n, hn⟩ := hparts (tight || (g.production r).tight) (g.production r).body c
      refine ⟨n, fun fuel hfuel => ?_⟩
      simp only [round, hn fuel hfuel]
  | seq first second =>
      refine (hparts _ _ _).resume (fun pairs c₁ => ?_) (.const _)
      exact (g.settles_skip _ _).resume (fun _ c₂ => (hparts _ _ _).prepend pairs) (.const _)
  | alt first second => exact (hparts _ _ _).resume (fun _ _ => .const _) (hparts _ _ _)
  | opt body => exact (hparts _ _ _).resume (fun _ _ => .const _) (.const _)
  | star body =>
      exact (hparts _ _ _).resume (fun pairs c₁ => (hparts _ _ _).prepend pairs) (.const _)
  | more body =>
      refine (g.settles_skip _ _).resume (fun _ c₁ => ?_) (.const _)
      exact (hparts _ _ _).resume (fun pairs c₂ => (hparts _ _ _).prepend pairs) (.const _)
  | neg body => exact (hparts _ _ _).resume (fun _ _ => .const _) (.const _)

theorem answer_eq_round (g : Grammar ρ) (tight : Bool) (e : Expr ρ) (c : Cursor) :
    g.answer tight e c = g.round g.answer tight e c := by
  obtain ⟨n, hn⟩ := g.settles_rounds tight e c
  have hshift : Settles (fun fuel => g.round (g.rounds fuel) tight e c)
      (g.answer tight e c) :=
    ⟨n, fun fuel hfuel => hn (fuel + 1) (by omega)⟩
  exact hshift.unique (g.settles_round tight e c)

@[simp] theorem skip_tight (g : Grammar ρ) (parts : Replies ρ) (c : Cursor) :
    g.skip parts true c = .ok [] c := rfl

theorem skip_loose (g : Grammar ρ) (parts : Replies ρ) (c : Cursor) :
    g.skip parts false c = parts true g.filler c := rfl

theorem answer_text (g : Grammar ρ) (tight : Bool) (chars : List Char) (c : Cursor) :
    g.answer tight (.text chars) c = .ofOption (c.text? chars) :=
  g.answer_eq_round tight _ c

theorem answer_char (g : Grammar ρ) (tight : Bool) (set : Charset) (c : Cursor) :
    g.answer tight (.char set) c = .ofOption (c.char? set) :=
  g.answer_eq_round tight _ c

theorem answer_start (g : Grammar ρ) (tight : Bool) (c : Cursor) :
    g.answer tight .start c = if c.offset = 0 then .ok [] c else .fail :=
  g.answer_eq_round tight _ c

theorem answer_finish (g : Grammar ρ) (tight : Bool) (c : Cursor) :
    g.answer tight .finish c = if c.rest.isEmpty then .ok [] c else .fail :=
  g.answer_eq_round tight _ c

theorem answer_rule_tight (g : Grammar ρ) (r : ρ) (c : Cursor) :
    g.answer true (.rule r) c = g.answer true (g.production r).body c :=
  g.answer_eq_round true _ c

theorem answer_rule_loose (g : Grammar ρ) (r : ρ) (c : Cursor) :
    g.answer false (.rule r) c =
      (g.answer (g.production r).tight (g.production r).body c).close r
        (g.production r).leavesPair c.offset :=
  g.answer_eq_round false _ c

theorem answer_seq (g : Grammar ρ) (tight : Bool) (first second : Expr ρ) (c : Cursor) :
    g.answer tight (.seq first second) c =
      (g.answer tight first c).resume
        (fun pairs c₁ =>
          (g.skip g.answer tight c₁).resume
            (fun _ c₂ => (g.answer tight second c₂).prepend pairs) .fail)
        .fail :=
  g.answer_eq_round tight _ c

theorem answer_alt (g : Grammar ρ) (tight : Bool) (first second : Expr ρ) (c : Cursor) :
    g.answer tight (.alt first second) c =
      (g.answer tight first c).resume .ok (g.answer tight second c) :=
  g.answer_eq_round tight _ c

theorem answer_opt (g : Grammar ρ) (tight : Bool) (body : Expr ρ) (c : Cursor) :
    g.answer tight (.opt body) c = (g.answer tight body c).resume .ok (.ok [] c) :=
  g.answer_eq_round tight _ c

theorem answer_star (g : Grammar ρ) (tight : Bool) (body : Expr ρ) (c : Cursor) :
    g.answer tight (.star body) c =
      (g.answer tight body c).resume
        (fun pairs c₁ => (g.answer tight (.more body) c₁).prepend pairs) (.ok [] c) :=
  g.answer_eq_round tight _ c

theorem answer_more (g : Grammar ρ) (tight : Bool) (body : Expr ρ) (c : Cursor) :
    g.answer tight (.more body) c =
      (g.skip g.answer tight c).resume
        (fun _ c₁ =>
          (g.answer tight body c₁).resume
            (fun pairs c₂ => (g.answer tight (.more body) c₂).prepend pairs) (.ok [] c))
        (.ok [] c) :=
  g.answer_eq_round tight _ c

theorem answer_neg (g : Grammar ρ) (tight : Bool) (body : Expr ρ) (c : Cursor) :
    g.answer tight (.neg body) c =
      (g.answer tight body c).resume (fun _ _ => .fail) (.ok [] c) :=
  g.answer_eq_round tight _ c

theorem answer_eq_of_run {g : Grammar ρ} {observe : Observer ρ σ} {fuel : Nat} {m : Mode}
    {e : Expr ρ} {c : Cursor} {s : σ} (h : (g.run observe fuel m e c s).1 ≠ .stuck) :
    (g.run observe fuel m e c s).1 = g.answer m.tight e c := by
  rw [run_fst] at h ⊢
  exact (answer_eq_of_rounds h).symm

def Upholds (replies : Replies ρ)
    (P : Bool → Expr ρ → Cursor → List (Pair ρ) → Cursor → Prop) : Prop :=
  ∀ tight e c ps c', replies tight e c = .ok ps c' → P tight e c ps c'

theorem rounds_upholds {g : Grammar ρ}
    {P : Bool → Expr ρ → Cursor → List (Pair ρ) → Cursor → Prop}
    (hround : ∀ parts, Upholds parts P → Upholds (g.round parts) P) (fuel : Nat) :
    Upholds (g.rounds fuel) P := by
  induction fuel with
  | zero => exact fun tight e c ps c' h => nomatch h
  | succ fuel ih => exact hround _ ih

theorem answer_upholds {g : Grammar ρ}
    {P : Bool → Expr ρ → Cursor → List (Pair ρ) → Cursor → Prop}
    (hround : ∀ parts, Upholds parts P → Upholds (g.round parts) P) :
    Upholds g.answer P := by
  intro tight e c ps c' h
  obtain ⟨n, hn⟩ := g.settles_rounds tight e c
  exact rounds_upholds hround n tight e c ps c' ((hn n (Nat.le_refl n)).trans h)

end Grammar

end XiFront.Peg

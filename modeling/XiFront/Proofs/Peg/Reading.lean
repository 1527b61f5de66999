import XiFront.Proofs.Peg.Answer
import XiFront.Peg.Analysis
import XiFront.Source

namespace XiFront.Peg

namespace Cursor

/-- Moving from one cursor to another reads the text between them. -/
structure Reads (c : Cursor) (text : Source) (c' : Cursor) : Prop where
  rest : c.rest = text ++ c'.rest
  offset : c'.offset = c.offset + Source.byteLength text

namespace Reads

theorem refl (c : Cursor) : c.Reads [] c :=
  ⟨rfl, rfl⟩

theorem eq_of_nil {c c' : Cursor} (h : c.Reads [] c') : c' = c := by
  obtain ⟨hrest, hoffset⟩ := h
  cases c
  cases c'
  simp_all

theorem trans {c c₁ c₂ : Cursor} {s t : Source} (h : c.Reads s c₁) (h' : c₁.Reads t c₂) :
    c.Reads (s ++ t) c₂ := by
  refine ⟨?_, ?_⟩
  · rw [h.rest, h'.rest, List.append_assoc]
  · rw [h'.offset, h.offset, Source.byteLength_append, Nat.add_assoc]

theorem length {c c' : Cursor} {s : Source} (h : c.Reads s c') :
    c.rest.length = s.length + c'.rest.length := by
  rw [h.rest, List.length_append]

theorem unique {c c' : Cursor} {s t : Source} (h : c.Reads s c') (h' : c.Reads t c') :
    s = t :=
  List.append_cancel_right (h.rest.symm.trans h'.rest)

theorem antisymm {c c' : Cursor} {s t : Source} (h : c.Reads s c') (h' : c'.Reads t c) :
    c = c' := by
  have hnil := (h.trans h').unique (.refl c)
  rw [(List.append_eq_nil_iff.mp hnil).1] at h
  exact h.eq_of_nil.symm

end Reads

theorem text?_cons_cons (x y : Char) (xs ys : List Char) (offset : Nat) :
    (Cursor.mk (y :: ys) offset).text? (x :: xs) =
      if x = y then (Cursor.mk ys (offset + y.utf8Size)).text? xs else none := rfl

theorem text?_eq_some_iff {c c' : Cursor} {chars : List Char} :
    c.text? chars = some c' ↔ c.Reads chars c' := by
  induction chars generalizing c with
  | nil =>
      constructor
      · intro h
        cases Option.some.inj h
        exact .refl _
      · rintro ⟨hrest, hoffset⟩
        cases c
        cases c'
        simp_all
  | cons x xs ih =>
      obtain ⟨_ | ⟨y, ys⟩, offset⟩ := c
      · constructor
        · intro h
          exact nomatch h
        · rintro ⟨hrest, -⟩
          exact nomatch hrest
      · rw [text?_cons_cons]
        by_cases hxy : x = y
        · subst hxy
          rw [if_pos rfl, ih]
          constructor
          · rintro ⟨hrest, hoffset⟩
            refine ⟨congrArg (x :: ·) hrest, ?_⟩
            rw [hoffset, Source.byteLength_cons, Nat.add_assoc]
          · rintro ⟨hrest, hoffset⟩
            refine ⟨(List.cons.inj hrest).2, ?_⟩
            rw [hoffset, Source.byteLength_cons, Nat.add_assoc]
        · rw [if_neg hxy]
          constructor
          · intro h
            exact nomatch h
          · rintro ⟨hrest, -⟩
            exact absurd (List.cons.inj hrest).1.symm hxy

/-- The cursor after one character with the property, if one comes next. -/
def next? (c : Cursor) (p : Char → Bool) : Option Cursor :=
  match c.rest with
  | y :: ys => if p y then some ⟨ys, c.offset + y.utf8Size⟩ else none
  | [] => none

@[simp] theorem next?_nil (offset : Nat) (p : Char → Bool) :
    (Cursor.mk [] offset).next? p = none := rfl

theorem next?_cons (y : Char) (ys : List Char) (offset : Nat) (p : Char → Bool) :
    (Cursor.mk (y :: ys) offset).next? p =
      if p y then some ⟨ys, offset + y.utf8Size⟩ else none := rfl

theorem next?_eq_some_iff {c c' : Cursor} {p : Char → Bool} :
    c.next? p = some c' ↔ ∃ y, p y = true ∧ c.Reads [y] c' := by
  obtain ⟨_ | ⟨y, ys⟩, offset⟩ := c
  · constructor
    · intro h
      exact nomatch h
    · rintro ⟨y, -, ⟨hrest, -⟩⟩
      exact nomatch hrest
  · rw [next?_cons]
    constructor
    · intro h
      split at h
      · next hy =>
          cases Option.some.inj h
          exact ⟨y, hy, rfl, rfl⟩
      · exact nomatch h
    · rintro ⟨z, hz, ⟨hrest, hoffset⟩⟩
      obtain ⟨rfl, rfl⟩ := List.cons.inj hrest
      rw [if_pos hz]
      cases c'
      simp_all

theorem char?_eq_some_iff {c c' : Cursor} {set : Charset} :
    c.char? set = some c' ↔ ∃ y, set.contains y ∧ c.Reads [y] c' :=
  next?_eq_some_iff (p := set.contains)

end Cursor

namespace Reply

theorem fail_ne_stuck : (fail : Reply ρ) ≠ stuck := by
  rintro ⟨⟩

theorem ok_ne_stuck (ps : List (Pair ρ)) (c : Cursor) : ok ps c ≠ stuck := by
  rintro ⟨⟩

theorem ofOption_eq_ok_iff {c? : Option Cursor} {ps : List (Pair ρ)} {c' : Cursor} :
    ofOption c? = ok ps c' ↔ ps = [] ∧ c? = some c' := by
  cases c? with
  | none => simp
  | some c =>
      rw [ofOption_some]
      constructor
      · intro h
        obtain ⟨rfl, rfl⟩ := Reply.ok.inj h
        exact ⟨rfl, rfl⟩
      · rintro ⟨rfl, h⟩
        cases Option.some.inj h
        rfl

theorem close_eq_ok_iff {reply : Reply ρ} {r : ρ} {leavesPair : Bool} {offset : Nat}
    {ps : List (Pair ρ)} {c' : Cursor} :
    reply.close r leavesPair offset = ok ps c' ↔
      ∃ cs, reply = ok cs c' ∧
        ps = if leavesPair then [.node r offset c'.offset cs] else cs := by
  cases reply with
  | stuck => simp
  | fail => simp
  | ok cs c =>
      rw [close_ok]
      constructor
      · intro h
        split at h
        · obtain ⟨rfl, rfl⟩ := Reply.ok.inj h
          exact ⟨cs, rfl, by simp_all⟩
        · obtain ⟨rfl, rfl⟩ := Reply.ok.inj h
          exact ⟨cs, rfl, by simp_all⟩
      · rintro ⟨cs', h, rfl⟩
        obtain ⟨rfl, rfl⟩ := Reply.ok.inj h
        split <;> rfl

theorem close_eq_fail_iff {reply : Reply ρ} {r : ρ} {leavesPair : Bool} {offset : Nat} :
    reply.close r leavesPair offset = fail ↔ reply = fail := by
  cases reply with
  | stuck => simp
  | fail => simp
  | ok cs c =>
      rw [close_ok]
      split <;> simp

end Reply

namespace Grammar

theorem round_eq_ok {g : Grammar ρ} {parts : Replies ρ} {tight : Bool} {e : Expr ρ}
    {c c' : Cursor} {ps : List (Pair ρ)} (h : g.round parts tight e c = .ok ps c') :
    match e with
    | .text chars => ps = [] ∧ c.Reads chars c'
    | .char set => ps = [] ∧ ∃ y, set.contains y ∧ c.Reads [y] c'
    | .start => ps = [] ∧ c' = c ∧ c.offset = 0
    | .finish => ps = [] ∧ c' = c ∧ c.rest = []
    | .rule r =>
        ∃ cs, parts (tight || (g.production r).tight) (g.production r).body c = .ok cs c' ∧
          ps = if !tight && (g.production r).leavesPair then [.node r c.offset c'.offset cs]
            else cs
    | .seq a b =>
        ∃ ps₁ c₁ ps₂ c₂ ps₃, parts tight a c = .ok ps₁ c₁ ∧
          g.skip parts tight c₁ = .ok ps₂ c₂ ∧ parts tight b c₂ = .ok ps₃ c' ∧
          ps = ps₁ ++ ps₃
    | .alt a b =>
        parts tight a c = .ok ps c' ∨ parts tight a c = .fail ∧ parts tight b c = .ok ps c'
    | .opt a => parts tight a c = .ok ps c' ∨ parts tight a c = .fail ∧ ps = [] ∧ c' = c
    | .star a =>
        (∃ ps₁ c₁ ps₂, parts tight a c = .ok ps₁ c₁ ∧ parts tight (.more a) c₁ = .ok ps₂ c' ∧
          ps = ps₁ ++ ps₂) ∨
        parts tight a c = .fail ∧ ps = [] ∧ c' = c
    | .more a =>
        (∃ ps₁ c₁ ps₂ c₂ ps₃, g.skip parts tight c = .ok ps₁ c₁ ∧
          parts tight a c₁ = .ok ps₂ c₂ ∧ parts tight (.more a) c₂ = .ok ps₃ c' ∧
          ps = ps₂ ++ ps₃) ∨
        ps = [] ∧ c' = c
    | .neg a => parts tight a c = .fail ∧ ps = [] ∧ c' = c := by
  cases e with
  | text chars =>
      obtain ⟨hps, hc⟩ := Reply.ofOption_eq_ok_iff.mp h
      exact ⟨hps, Cursor.text?_eq_some_iff.mp hc⟩
  | char set =>
      obtain ⟨hps, hc⟩ := Reply.ofOption_eq_ok_iff.mp h
      exact ⟨hps, Cursor.char?_eq_some_iff.mp hc⟩
  | start =>
      simp only [round] at h
      split at h
      · obtain ⟨rfl, rfl⟩ := Reply.ok.inj h
        exact ⟨rfl, rfl, by assumption⟩
      · cases h
  | finish =>
      simp only [round] at h
      split at h
      · obtain ⟨rfl, rfl⟩ := Reply.ok.inj h
        exact ⟨rfl, rfl, List.isEmpty_iff.mp (by assumption)⟩
      · cases h
  | rule r =>
      cases tight with
      | true => exact ⟨ps, h, rfl⟩
      | false => exact Reply.close_eq_ok_iff.mp h
  | seq a b =>
      obtain ⟨-, h⟩ | ⟨ps₁, c₁, h₁, h⟩ := Reply.resume_eq_ok_iff.mp h
      · cases h
      obtain ⟨-, h⟩ | ⟨ps₂, c₂, h₂, h⟩ := Reply.resume_eq_ok_iff.mp h
      · cases h
      obtain ⟨ps₃, h₃, hps⟩ := Reply.prepend_eq_ok_iff.mp h
      exact ⟨ps₁, c₁, ps₂, c₂, ps₃, h₁, h₂, h₃, hps.symm⟩
  | alt a b =>
      obtain ⟨h₁, h₂⟩ | ⟨ps₁, c₁, h₁, h₂⟩ := Reply.resume_eq_ok_iff.mp h
      · exact .inr ⟨h₁, h₂⟩
      · exact .inl (h₁.trans h₂)
  | opt a =>
      obtain ⟨h₁, h₂⟩ | ⟨ps₁, c₁, h₁, h₂⟩ := Reply.resume_eq_ok_iff.mp h
      · obtain ⟨rfl, rfl⟩ := Reply.ok.inj h₂
        exact .inr ⟨h₁, rfl, rfl⟩
      · exact .inl (h₁.trans h₂)
  | star a =>
      obtain ⟨h₁, h₂⟩ | ⟨ps₁, c₁, h₁, h₂⟩ := Reply.resume_eq_ok_iff.mp h
      · obtain ⟨rfl, rfl⟩ := Reply.ok.inj h₂
        exact .inr ⟨h₁, rfl, rfl⟩
      · obtain ⟨ps₂, h₂, hps⟩ := Reply.prepend_eq_ok_iff.mp h₂
        exact .inl ⟨ps₁, c₁, ps₂, h₁, h₂, hps.symm⟩
  | more a =>
      obtain ⟨-, h⟩ | ⟨ps₁, c₁, h₁, h⟩ := Reply.resume_eq_ok_iff.mp h
      · obtain ⟨rfl, rfl⟩ := Reply.ok.inj h
        exact .inr ⟨rfl, rfl⟩
      obtain ⟨-, h⟩ | ⟨ps₂, c₂, h₂, h⟩ := Reply.resume_eq_ok_iff.mp h
      · obtain ⟨rfl, rfl⟩ := Reply.ok.inj h
        exact .inr ⟨rfl, rfl⟩
      obtain ⟨ps₃, h₃, hps⟩ := Reply.prepend_eq_ok_iff.mp h
      exact .inl ⟨ps₁, c₁, ps₂, c₂, ps₃, h₁, h₂, h₃, hps.symm⟩
  | neg a =>
      obtain ⟨h₁, h₂⟩ | ⟨ps₁, c₁, h₁, h₂⟩ := Reply.resume_eq_ok_iff.mp h
      · obtain ⟨rfl, rfl⟩ := Reply.ok.inj h₂
        exact ⟨h₁, rfl, rfl⟩
      · cases h₂

/-- What a match says about the text, given which rules can match nothing. -/
def Progress (empty : ρ → Bool) (_tight : Bool) (e : Expr ρ) (c : Cursor)
    (_ : List (Pair ρ)) (c' : Cursor) : Prop :=
  ∃ s, c.Reads s c' ∧ (e.nullable empty = false → s ≠ [])

theorem skip_reads {g : Grammar ρ} {parts : Replies ρ} {empty : ρ → Bool}
    (h : Upholds parts (Progress empty)) {tight : Bool} {c c' : Cursor}
    {ps : List (Pair ρ)} (hskip : g.skip parts tight c = .ok ps c') :
    ∃ s, c.Reads s c' := by
  unfold skip at hskip
  split at hskip
  · obtain ⟨rfl, rfl⟩ := Reply.ok.inj hskip
    exact ⟨[], .refl c⟩
  · obtain ⟨s, hs, -⟩ := h _ _ _ _ _ hskip
    exact ⟨s, hs⟩

theorem round_progress {g : Grammar ρ} {empty : ρ → Bool}
    (hempty : ∀ r, empty r = false → (g.production r).body.nullable empty = false)
    (parts : Replies ρ) (h : Upholds parts (Progress empty)) :
    Upholds (g.round parts) (Progress empty) := by
  intro tight e c ps c' hmatch
  have hcases := round_eq_ok hmatch
  cases e with
  | text chars =>
      refine ⟨chars, hcases.2, fun hnull => ?_⟩
      rintro rfl
      exact nomatch hnull
  | char set =>
      obtain ⟨-, y, -, hy⟩ := hcases
      exact ⟨[y], hy, fun _ => by simp⟩
  | start =>
      obtain ⟨-, rfl, -⟩ := hcases
      exact ⟨[], .refl c', fun hnull => nomatch hnull⟩
  | finish =>
      obtain ⟨-, rfl, -⟩ := hcases
      exact ⟨[], .refl c', fun hnull => nomatch hnull⟩
  | rule r =>
      obtain ⟨cs, hbody, -⟩ := hcases
      obtain ⟨s, hs, hne⟩ := h _ _ _ _ _ hbody
      exact ⟨s, hs, fun hnull => hne (hempty r hnull)⟩
  | seq a b =>
      obtain ⟨ps₁, c₁, ps₂, c₂, ps₃, h₁, h₂, h₃, -⟩ := hcases
      obtain ⟨s₁, hs₁, hne₁⟩ := h _ _ _ _ _ h₁
      obtain ⟨s₂, hs₂⟩ := skip_reads h h₂
      obtain ⟨s₃, hs₃, hne₃⟩ := h _ _ _ _ _ h₃
      refine ⟨s₁ ++ (s₂ ++ s₃), hs₁.trans (hs₂.trans hs₃), fun hnull hnil => ?_⟩
      simp only [List.append_eq_nil_iff] at hnil
      rcases Bool.and_eq_false_iff.mp hnull with hnull | hnull
      · exact hne₁ hnull hnil.1
      · exact hne₃ hnull hnil.2.2
  | alt a b =>
      rcases hcases with h₁ | ⟨-, h₁⟩
      · obtain ⟨s, hs, hne⟩ := h _ _ _ _ _ h₁
        exact ⟨s, hs, fun hnull => hne (Bool.or_eq_false_iff.mp hnull).1⟩
      · obtain ⟨s, hs, hne⟩ := h _ _ _ _ _ h₁
        exact ⟨s, hs, fun hnull => hne (Bool.or_eq_false_iff.mp hnull).2⟩
  | opt a =>
      rcases hcases with h₁ | ⟨-, -, rfl⟩
      · obtain ⟨s, hs, -⟩ := h _ _ _ _ _ h₁
        exact ⟨s, hs, fun hnull => nomatch hnull⟩
      · exact ⟨[], .refl c', fun hnull => nomatch hnull⟩
  | star a =>
      rcases hcases with ⟨ps₁, c₁, ps₂, h₁, h₂, -⟩ | ⟨-, -, rfl⟩
      · obtain ⟨s₁, hs₁, -⟩ := h _ _ _ _ _ h₁
        obtain ⟨s₂, hs₂, -⟩ := h _ _ _ _ _ h₂
        exact ⟨s₁ ++ s₂, hs₁.trans hs₂, fun hnull => nomatch hnull⟩
      · exact ⟨[], .refl c', fun hnull => nomatch hnull⟩
  | more a =>
      rcases hcases with ⟨ps₁, c₁, ps₂, c₂, ps₃, h₁, h₂, h₃, -⟩ | ⟨-, rfl⟩
      · obtain ⟨s₁, hs₁⟩ := skip_reads h h₁
        obtain ⟨s₂, hs₂, -⟩ := h _ _ _ _ _ h₂
        obtain ⟨s₃, hs₃, -⟩ := h _ _ _ _ _ h₃
        exact ⟨s₁ ++ (s₂ ++ s₃), hs₁.trans (hs₂.trans hs₃), fun hnull => nomatch hnull⟩
      · exact ⟨[], .refl c', fun hnull => nomatch hnull⟩
  | neg a =>
      obtain ⟨-, -, rfl⟩ := hcases
      exact ⟨[], .refl c', fun hnull => nomatch hnull⟩

theorem answer_reads {g : Grammar ρ} {tight : Bool} {e : Expr ρ} {c c' : Cursor}
    {ps : List (Pair ρ)} (h : g.answer tight e c = .ok ps c') : ∃ s, c.Reads s c' := by
  have hprogress : Upholds g.answer (Progress fun _ => true) :=
    answer_upholds (round_progress fun _ hfalse => nomatch hfalse)
  obtain ⟨s, hs, -⟩ := hprogress _ _ _ _ _ h
  exact ⟨s, hs⟩

theorem answer_of_rounds {g : Grammar ρ} {fuel : Nat} {tight : Bool} {e : Expr ρ}
    {c c' : Cursor} {ps : List (Pair ρ)} (h : g.rounds fuel tight e c = .ok ps c') :
    g.answer tight e c = .ok ps c' := by
  rw [answer_eq_of_rounds (by rw [h]; exact nofun), h]

theorem exists_ok_of_matched {g : Grammar ρ} {tight : Bool} {e : Expr ρ} {c : Cursor}
    (fuel : Nat) (h : (g.rounds fuel tight e c).matched = true) :
    ∃ ps c', g.answer tight e c = .ok ps c' := by
  cases hreply : g.rounds fuel tight e c with
  | stuck =>
      rw [hreply] at h
      exact nomatch h
  | fail =>
      rw [hreply] at h
      exact nomatch h
  | ok ps c' => exact ⟨ps, c', answer_of_rounds hreply⟩

theorem rounds_reads {g : Grammar ρ} {fuel : Nat} {tight : Bool} {e : Expr ρ}
    {c c' : Cursor} {ps : List (Pair ρ)} (h : g.rounds fuel tight e c = .ok ps c') :
    ∃ s, c.Reads s c' :=
  answer_reads (answer_of_rounds h)

end Grammar

end XiFront.Peg

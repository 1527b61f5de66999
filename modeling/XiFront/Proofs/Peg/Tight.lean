import XiFront.Proofs.Peg.Yield

namespace XiFront.Peg

namespace Cursor

/-- The next character, if there is one, does not have the property. -/
def StopsAt (c : Cursor) (p : Char → Bool) : Prop :=
  ∀ y ys, c.rest = y :: ys → p y = false

theorem next?_eq_none_iff {c : Cursor} {p : Char → Bool} :
    c.next? p = none ↔ c.StopsAt p := by
  obtain ⟨_ | ⟨y, ys⟩, offset⟩ := c
  · simp [StopsAt]
  · simp [StopsAt, next?_cons]

theorem Reads.eq_mk {c c' : Cursor} {s : Source} (h : c.Reads s c') :
    c = ⟨s ++ c'.rest, c.offset⟩ ∧ c' = ⟨c'.rest, c.offset + Source.byteLength s⟩ := by
  obtain ⟨hrest, hoffset⟩ := h
  cases c
  cases c'
  simp_all

theorem reads_append (s r : Source) (offset : Nat) :
    (Cursor.mk (s ++ r) offset).Reads s ⟨r, offset + Source.byteLength s⟩ :=
  ⟨rfl, rfl⟩

end Cursor

namespace Grammar

variable {g : Grammar ρ}

theorem answer_seq_tight (first second : Expr ρ) (c : Cursor) :
    g.answer true (.seq first second) c =
      (g.answer true first c).resume
        (fun pairs c₁ => (g.answer true second c₁).prepend pairs) .fail := by
  rw [answer_seq]
  rfl

theorem answer_more_tight (body : Expr ρ) (c : Cursor) :
    g.answer true (.more body) c = g.answer true (.star body) c := by
  rw [answer_more, answer_star]
  rfl

theorem rounds_star_ne_fail (g : Grammar ρ) (fuel : Nat) (tight : Bool) (e : Expr ρ) (c : Cursor) :
    g.rounds fuel tight (.star e) c ≠ .fail ∧ g.rounds fuel tight (.more e) c ≠ .fail := by
  induction fuel generalizing c with
  | zero => exact ⟨nofun, nofun⟩
  | succ fuel ih =>
      constructor
      · intro hfail
        obtain ⟨-, hnil⟩ | ⟨ps, c₁, -, hmore⟩ := Reply.resume_eq_fail_iff.mp hfail
        · exact nomatch hnil
        · exact (ih c₁).2 (Reply.prepend_eq_fail_iff.mp hmore)
      · intro hfail
        obtain ⟨-, hnil⟩ | ⟨_, c₁, -, hbody⟩ := Reply.resume_eq_fail_iff.mp hfail
        · exact nomatch hnil
        obtain ⟨-, hnil⟩ | ⟨ps, c₂, -, hmore⟩ := Reply.resume_eq_fail_iff.mp hbody
        · exact nomatch hnil
        · exact (ih c₂).2 (Reply.prepend_eq_fail_iff.mp hmore)

theorem answer_star_ne_fail (g : Grammar ρ) (tight : Bool) (e : Expr ρ) (c : Cursor) :
    g.answer tight (.star e) c ≠ .fail := by
  obtain ⟨n, hn⟩ := g.settles_rounds tight (.star e) c
  rw [← hn n (Nat.le_refl n)]
  exact (g.rounds_star_ne_fail n tight e c).1

theorem answer_text_eq_fail_iff (g : Grammar ρ) {tight : Bool} {chars : List Char} {c : Cursor} :
    g.answer tight (.text chars) c = .fail ↔ ¬chars <+: c.rest := by
  rw [answer_text]
  constructor
  · rintro h ⟨r, hr⟩
    have hreads : c.Reads chars ⟨r, c.offset + Source.byteLength chars⟩ := ⟨hr.symm, rfl⟩
    rw [Cursor.text?_eq_some_iff.mpr hreads] at h
    exact nomatch h
  · intro h
    cases htext : c.text? chars with
    | none => rfl
    | some c' => exact absurd ⟨c'.rest, (Cursor.text?_eq_some_iff.mp htext).rest.symm⟩ h

theorem answer_text_eq_ok_iff {tight : Bool} {chars : List Char} {c d : Cursor}
    {ps : List (Pair ρ)} :
    g.answer tight (.text chars) c = .ok ps d ↔ ps = [] ∧ c.Reads chars d := by
  rw [answer_text, Reply.ofOption_eq_ok_iff, Cursor.text?_eq_some_iff]

theorem answer_char_eq_ok_iff {tight : Bool} {set : Charset} {c d : Cursor}
    {ps : List (Pair ρ)} : g.answer tight (.char set) c = .ok ps d ↔
      ps = [] ∧ ∃ z, set.contains z = true ∧ c.Reads [z] d := by
  rw [answer_char, Reply.ofOption_eq_ok_iff, Cursor.char?_eq_some_iff]

def Takes (g : Grammar ρ) (e : Expr ρ) (c : Cursor) (s : Source) (c' : Cursor) : Prop :=
  g.answer true e c = .ok [] c' ∧ c.Reads s c'

theorem takes_of_answer {e : Expr ρ} {c c' : Cursor} {ps : List (Pair ρ)}
    (h : g.answer true e c = .ok ps c') : ∃ s, g.Takes e c s c' := by
  obtain ⟨s, hs⟩ := answer_reads h
  cases answer_tight h
  exact ⟨s, h, hs⟩

theorem takes_text {chars : List Char} {c c' : Cursor} {s : Source} :
    g.Takes (.text chars) c s c' ↔ s = chars ∧ c.Reads chars c' := by
  unfold Takes
  rw [answer_text_eq_ok_iff]
  constructor
  · rintro ⟨⟨-, hchars⟩, hs⟩
    exact ⟨hs.unique hchars, hchars⟩
  · rintro ⟨rfl, hchars⟩
    exact ⟨⟨rfl, hchars⟩, hchars⟩

theorem takes_rule {r : ρ} {c c' : Cursor} {s : Source} :
    g.Takes (.rule r) c s c' ↔ g.Takes (g.production r).body c s c' := by
  unfold Takes
  rw [answer_rule_tight]

theorem takes_seq {a b : Expr ρ} {c c' : Cursor} {s : Source} :
    g.Takes (.seq a b) c s c' ↔
      ∃ s₁ c₁ s₂, s = s₁ ++ s₂ ∧ g.Takes a c s₁ c₁ ∧ g.Takes b c₁ s₂ c' := by
  constructor
  · rintro ⟨h, hs⟩
    rw [answer_seq_tight] at h
    obtain ⟨-, h⟩ | ⟨ps₁, c₁, h₁, h⟩ := Reply.resume_eq_ok_iff.mp h
    · exact nomatch h
    · obtain ⟨ps₂, h₂, -⟩ := Reply.prepend_eq_ok_iff.mp h
      obtain ⟨s₁, hs₁⟩ := takes_of_answer h₁
      obtain ⟨s₂, hs₂⟩ := takes_of_answer h₂
      exact ⟨s₁, c₁, s₂, hs.unique (hs₁.2.trans hs₂.2), hs₁, hs₂⟩
  · rintro ⟨s₁, c₁, s₂, rfl, ⟨h₁, hs₁⟩, ⟨h₂, hs₂⟩⟩
    refine ⟨?_, hs₁.trans hs₂⟩
    rw [answer_seq_tight, h₁, Reply.resume_ok, h₂]
    rfl

theorem takes_between {left right : List Char} {e : Expr ρ} {c c' : Cursor} {s : Source}
    (h : g.Takes (.seq (.text left) (.seq e (.text right))) c s c') :
    ∃ c₁ t c₂, s = left ++ (t ++ right) ∧ g.Takes e c₁ t c₂ ∧ c₂.rest = right ++ c'.rest := by
  obtain ⟨_, c₁, _, rfl, hleft, h⟩ := takes_seq.mp h
  obtain ⟨t, c₂, _, rfl, ht, hright⟩ := takes_seq.mp h
  obtain ⟨rfl, -⟩ := takes_text.mp hleft
  obtain ⟨rfl, hread⟩ := takes_text.mp hright
  exact ⟨c₁, t, c₂, rfl, ht, hread.rest⟩

theorem fails_seq_iff {a b : Expr ρ} {c : Cursor} :
    g.answer true (.seq a b) c = .fail ↔
      g.answer true a c = .fail ∨ ∃ s c₁, g.Takes a c s c₁ ∧ g.answer true b c₁ = .fail := by
  rw [answer_seq_tight, Reply.resume_eq_fail_iff]
  simp only [and_true, Reply.prepend_eq_fail_iff]
  constructor
  · rintro (h | ⟨ps, c₁, h₁, h₂⟩)
    · exact .inl h
    · obtain ⟨s, hs⟩ := takes_of_answer h₁
      exact .inr ⟨s, c₁, hs, h₂⟩
  · rintro (h | ⟨s, c₁, h₁, h₂⟩)
    · exact .inl h
    · exact .inr ⟨[], c₁, h₁.1, h₂⟩

theorem takes_alt {a b : Expr ρ} {c c' : Cursor} {s : Source} :
    g.Takes (.alt a b) c s c' ↔
      g.Takes a c s c' ∨ g.answer true a c = .fail ∧ g.Takes b c s c' := by
  unfold Takes
  rw [answer_alt, Reply.resume_eq_ok_iff]
  constructor
  · rintro ⟨⟨hfail, hb⟩ | ⟨ps, c₁, ha, hok⟩, hs⟩
    · exact .inr ⟨hfail, hb, hs⟩
    · exact .inl ⟨ha.trans hok, hs⟩
  · rintro (⟨ha, hs⟩ | ⟨hfail, hb, hs⟩)
    · exact ⟨.inr ⟨[], c', ha, rfl⟩, hs⟩
    · exact ⟨.inl ⟨hfail, hb⟩, hs⟩

theorem takes_opt {a : Expr ρ} {c c' : Cursor} {s : Source} :
    g.Takes (.opt a) c s c' ↔
      g.Takes a c s c' ∨ g.answer true a c = .fail ∧ s = [] ∧ c' = c := by
  unfold Takes
  rw [answer_opt, Reply.resume_eq_ok_iff]
  constructor
  · rintro ⟨⟨hfail, hok⟩ | ⟨ps, c₁, ha, hok⟩, hs⟩
    · obtain ⟨-, rfl⟩ := Reply.ok.inj hok
      exact .inr ⟨hfail, hs.unique (.refl _), rfl⟩
    · exact .inl ⟨ha.trans hok, hs⟩
  · rintro (⟨ha, hs⟩ | ⟨hfail, rfl, rfl⟩)
    · exact ⟨.inr ⟨[], c', ha, rfl⟩, hs⟩
    · exact ⟨.inl ⟨hfail, rfl⟩, .refl _⟩

theorem takes_star {a : Expr ρ} {c c' : Cursor} {s : Source} :
    g.Takes (.star a) c s c' ↔
      (∃ s₁ c₁ s₂, s = s₁ ++ s₂ ∧ g.Takes a c s₁ c₁ ∧ g.Takes (.star a) c₁ s₂ c') ∨
        g.answer true a c = .fail ∧ s = [] ∧ c' = c := by
  constructor
  · rintro ⟨h, hs⟩
    rw [answer_star] at h
    obtain ⟨hfail, h⟩ | ⟨ps₁, c₁, h₁, h⟩ := Reply.resume_eq_ok_iff.mp h
    · obtain ⟨-, rfl⟩ := Reply.ok.inj h
      exact .inr ⟨hfail, hs.unique (.refl _), rfl⟩
    · obtain ⟨ps₂, h₂, -⟩ := Reply.prepend_eq_ok_iff.mp h
      rw [answer_more_tight] at h₂
      obtain ⟨s₁, hs₁⟩ := takes_of_answer h₁
      obtain ⟨s₂, hs₂⟩ := takes_of_answer h₂
      exact .inl ⟨s₁, c₁, s₂, hs.unique (hs₁.2.trans hs₂.2), hs₁, hs₂⟩
  · rintro (⟨s₁, c₁, s₂, rfl, ⟨h₁, hs₁⟩, ⟨h₂, hs₂⟩⟩ | ⟨hfail, rfl, rfl⟩)
    · refine ⟨?_, hs₁.trans hs₂⟩
      rw [answer_star, h₁, Reply.resume_ok, answer_more_tight, h₂]
      rfl
    · refine ⟨?_, .refl _⟩
      rw [answer_star, hfail]
      rfl

theorem takes_neg {a : Expr ρ} {c c' : Cursor} {s : Source} :
    g.Takes (.neg a) c s c' ↔ g.answer true a c = .fail ∧ s = [] ∧ c' = c := by
  unfold Takes
  rw [answer_neg, Reply.resume_eq_ok_iff]
  constructor
  · rintro ⟨⟨hfail, hok⟩ | ⟨ps, c₁, -, hok⟩, hs⟩
    · obtain ⟨-, rfl⟩ := Reply.ok.inj hok
      exact ⟨hfail, hs.unique (.refl _), rfl⟩
    · exact nomatch hok
  · rintro ⟨hfail, rfl, rfl⟩
    exact ⟨.inl ⟨hfail, rfl⟩, .refl _⟩

def IsClass (g : Grammar ρ) (e : Expr ρ) (p : Char → Bool) : Prop :=
  ∀ c, g.answer true e c = .ofOption (c.next? p)

namespace IsClass

theorem char (set : Charset) : g.IsClass (.char set) set.contains :=
  fun c => g.answer_char true set c

theorem text (x : Char) : g.IsClass (.text [x]) fun y => decide (x = y) := by
  intro c
  rw [answer_text]
  obtain ⟨_ | ⟨y, ys⟩, offset⟩ := c
  · rfl
  · rw [Cursor.text?_cons_cons, Cursor.next?_cons]
    by_cases hxy : x = y <;> simp [hxy]

theorem rule {r : ρ} {p : Char → Bool} (h : g.IsClass (g.production r).body p) :
    g.IsClass (.rule r) p := by
  intro c
  rw [answer_rule_tight]
  exact h c

theorem alt {a b : Expr ρ} {p q : Char → Bool} (ha : g.IsClass a p) (hb : g.IsClass b q) :
    g.IsClass (.alt a b) fun y => p y || q y := by
  intro c
  rw [answer_alt, ha, hb]
  obtain ⟨_ | ⟨y, ys⟩, offset⟩ := c
  · rfl
  · simp only [Cursor.next?_cons]
    cases p y <;> cases q y <;> rfl

theorem butNot {a b : Expr ρ} {p q : Char → Bool} (ha : g.IsClass a p) (hb : g.IsClass b q) :
    g.IsClass (.seq (.neg a) b) fun y => !p y && q y := by
  intro c
  rw [answer_seq_tight, answer_neg, ha]
  obtain ⟨_ | ⟨y, ys⟩, offset⟩ := c
  · rw [Cursor.next?_nil, Reply.ofOption_none, Reply.resume_fail, Reply.resume_ok, hb]
    rfl
  · rw [Cursor.next?_cons, Cursor.next?_cons]
    cases hy : p y with
    | true => rfl
    | false =>
        simp only [Bool.false_eq_true, if_false, Reply.ofOption_none, Reply.resume_fail,
          Reply.resume_ok, hb ⟨y :: ys, offset⟩, Cursor.next?_cons, Bool.not_false, Bool.true_and]
        cases q y <;> rfl

theorem fails_iff {e : Expr ρ} {p : Char → Bool} (h : g.IsClass e p) {c : Cursor} :
    g.answer true e c = .fail ↔ c.StopsAt p := by
  rw [h, ← Cursor.next?_eq_none_iff]
  cases c.next? p <;> simp

theorem takes {e : Expr ρ} {p : Char → Bool} (h : g.IsClass e p) {c c' : Cursor}
    {s : Source} : g.Takes e c s c' ↔ ∃ y, p y = true ∧ s = [y] ∧ c.Reads [y] c' := by
  unfold Takes
  rw [h, Reply.ofOption_eq_ok_iff, Cursor.next?_eq_some_iff]
  constructor
  · rintro ⟨⟨-, y, hy, hread⟩, hs⟩
    exact ⟨y, hy, hs.unique hread, hread⟩
  · rintro ⟨y, hy, rfl, hread⟩
    exact ⟨⟨rfl, y, hy, hread⟩, hread⟩

theorem star {e : Expr ρ} {p : Char → Bool} (h : g.IsClass e p) (s : Source) (offset : Nat) :
    g.answer true (.star e) ⟨s, offset⟩ =
      .ok [] ⟨s.dropWhile p, offset + Source.byteLength (s.takeWhile p)⟩ := by
  induction s generalizing offset with
  | nil =>
      rw [answer_star, h]
      rfl
  | cons y ys ih =>
      rw [answer_star, h, Cursor.next?_cons, List.dropWhile_cons, List.takeWhile_cons]
      cases hy : p y with
      | true =>
          simp only [if_true, Reply.ofOption_some, Reply.resume_ok, answer_more_tight, ih,
            Reply.prepend_ok, Source.byteLength_cons, Nat.add_assoc, List.append_nil]
      | false => rfl

theorem takes_star {e : Expr ρ} {p : Char → Bool} (h : g.IsClass e p) {c c' : Cursor}
    {s : Source} :
    g.Takes (.star e) c s c' ↔ (∀ y ∈ s, p y = true) ∧ c.Reads s c' ∧ c'.StopsAt p := by
  constructor
  · rintro ⟨hmatch, hs⟩
    obtain ⟨rest, offset⟩ := c
    rw [h.star] at hmatch
    obtain ⟨-, rfl⟩ := Reply.ok.inj hmatch
    have hrun : s = rest.takeWhile p := by
      refine hs.unique ⟨?_, rfl⟩
      exact (List.takeWhile_append_dropWhile).symm
    subst hrun
    refine ⟨fun y hy => List.all_eq_true.mp List.all_takeWhile y hy, hs, fun y ys hrest => ?_⟩
    have hhead := List.head?_dropWhile_not p rest
    rw [show rest.dropWhile p = y :: ys from hrest] at hhead
    simpa using hhead
  · rintro ⟨hall, hs, hstop⟩
    refine ⟨?_, hs⟩
    obtain ⟨hc, hc'⟩ := hs.eq_mk
    have hnone : c'.rest.takeWhile p = [] ∧ c'.rest.dropWhile p = c'.rest := by
      cases hrest : c'.rest with
      | nil => exact ⟨rfl, rfl⟩
      | cons y ys => simp [hstop y ys hrest]
    rw [hc, h.star, List.dropWhile_append_of_pos hall, List.takeWhile_append_of_pos hall,
      hnone.1, hnone.2, List.append_nil, ← hc']

end IsClass

end Grammar

end XiFront.Peg

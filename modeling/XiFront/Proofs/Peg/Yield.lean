import XiFront.Proofs.Peg.Reading

namespace XiFront.Peg

/-- Any number of words of a language, one after the other. -/
inductive Repeated (L : List α → Prop) : List α → Prop
  | nil : Repeated L []
  | append {l l' : List α} (h : L l) (h' : Repeated L l') : Repeated L (l ++ l')

namespace Repeated

theorem mono {L L' : List α → Prop} (h : ∀ l, L l → L' l) {l : List α}
    (hl : Repeated L l) : Repeated L' l := by
  induction hl with
  | nil => exact .nil
  | append hfirst _ ih => exact .append (h _ hfirst) ih

theorem forall_mem {L : List α → Prop} {P : α → Prop} (h : ∀ l, L l → ∀ x ∈ l, P x)
    {l : List α} (hl : Repeated L l) : ∀ x ∈ l, P x := by
  induction hl with
  | nil => exact nofun
  | append hfirst _ ih =>
      intro x hx
      rcases List.mem_append.mp hx with hx | hx
      · exact h _ hfirst x hx
      · exact ih x hx

end Repeated

namespace Expr

/-- The words of an expression, where `R` gives those of each rule. -/
def Yields (R : ρ → List α → Prop) : Expr ρ → List α → Prop
  | text _, l | char _, l | start, l | finish, l | neg _, l => l = []
  | rule r, l => R r l
  | seq a b, l => ∃ l₁ l₂, l = l₁ ++ l₂ ∧ a.Yields R l₁ ∧ b.Yields R l₂
  | alt a b, l => a.Yields R l ∨ b.Yields R l
  | opt a, l => l = [] ∨ a.Yields R l
  | star a, l | more a, l => Repeated (a.Yields R) l

theorem Yields.mono {R R' : ρ → List α → Prop} (h : ∀ r l, R r l → R' r l) {e : Expr ρ}
    {l : List α} (hl : e.Yields R l) : e.Yields R' l := by
  induction e generalizing l with
  | text chars => exact hl
  | char set => exact hl
  | start => exact hl
  | finish => exact hl
  | rule r => exact h r l hl
  | seq a b iha ihb =>
      obtain ⟨l₁, l₂, rfl, h₁, h₂⟩ := hl
      exact ⟨l₁, l₂, rfl, iha h₁, ihb h₂⟩
  | alt a b iha ihb => exact hl.imp iha ihb
  | opt a ih => exact hl.imp_right ih
  | star a ih => exact Repeated.mono (fun _ => ih) hl
  | more a ih => exact Repeated.mono (fun _ => ih) hl
  | neg a => exact hl

theorem Yields.map {R : ρ → List α → Prop} {R' : ρ → List β → Prop} {f : List α → List β}
    (hnil : f [] = []) (happend : ∀ l l', f (l ++ l') = f l ++ f l')
    (h : ∀ r l, R r l → R' r (f l)) {e : Expr ρ} {l : List α} (hl : e.Yields R l) :
    e.Yields R' (f l) := by
  have hrepeated {L : List α → Prop} {L' : List β → Prop} (hL : ∀ l, L l → L' (f l))
      {l : List α} (hl : Repeated L l) : Repeated L' (f l) := by
    induction hl with
    | nil =>
        rw [hnil]
        exact .nil
    | append hfirst _ ih =>
        rw [happend]
        exact .append (hL _ hfirst) ih
  have hempty {l : List α} (hl : l = []) : f l = [] := by rw [hl, hnil]
  induction e generalizing l with
  | text chars => exact hempty hl
  | char set => exact hempty hl
  | start => exact hempty hl
  | finish => exact hempty hl
  | rule r => exact h r l hl
  | seq a b iha ihb =>
      obtain ⟨l₁, l₂, rfl, h₁, h₂⟩ := hl
      exact ⟨f l₁, f l₂, happend l₁ l₂, iha h₁, ihb h₂⟩
  | alt a b iha ihb => exact hl.imp iha ihb
  | opt a ih => exact hl.imp hempty ih
  | star a ih => exact hrepeated (fun _ => ih) hl
  | more a ih => exact hrepeated (fun _ => ih) hl
  | neg a => exact hempty hl

theorem yields_oneOf {R : ρ → List α → Prop} {first : Expr ρ} {others : List (Expr ρ)}
    {l : List α} : (oneOf first others).Yields R l ↔ ∃ e ∈ first :: others, e.Yields R l := by
  induction others generalizing first with
  | nil => simp
  | cons next others ih =>
      have hothers : (oneOf next others).Yields R l ↔ ∃ e ∈ next :: others, e.Yields R l := ih
      simp only [List.mem_cons, exists_eq_or_imp] at hothers ⊢
      rw [← hothers]
      rfl

theorem Yields.mem_mentions {R : ρ → List α → Prop} {e : Expr ρ} {l : List α}
    (hl : e.Yields R l) {x : α} (hx : x ∈ l) : ∃ r ∈ e.mentions, ∃ l', R r l' ∧ x ∈ l' := by
  induction e generalizing l x with
  | text chars =>
      cases hl
      exact nomatch hx
  | char set =>
      cases hl
      exact nomatch hx
  | start =>
      cases hl
      exact nomatch hx
  | finish =>
      cases hl
      exact nomatch hx
  | rule r => exact ⟨r, List.mem_singleton.mpr rfl, l, hl, hx⟩
  | seq a b iha ihb =>
      obtain ⟨l₁, l₂, rfl, h₁, h₂⟩ := hl
      rcases List.mem_append.mp hx with hx | hx
      · obtain ⟨r, hr, h⟩ := iha h₁ hx
        exact ⟨r, List.mem_append_left _ hr, h⟩
      · obtain ⟨r, hr, h⟩ := ihb h₂ hx
        exact ⟨r, List.mem_append_right _ hr, h⟩
  | alt a b iha ihb =>
      rcases hl with hl | hl
      · obtain ⟨r, hr, h⟩ := iha hl hx
        exact ⟨r, List.mem_append_left _ hr, h⟩
      · obtain ⟨r, hr, h⟩ := ihb hl hx
        exact ⟨r, List.mem_append_right _ hr, h⟩
  | opt a ih =>
      rcases hl with rfl | hl
      · exact absurd hx List.not_mem_nil
      · exact ih hl hx
  | star a ih => exact Repeated.forall_mem (fun l hl x hx => ih hl hx) hl x hx
  | more a ih => exact Repeated.forall_mem (fun l hl x hx => ih hl hx) hl x hx
  | neg a =>
      cases hl
      exact nomatch hx

end Expr

namespace Cursor

def In (source : Source) (c : Cursor) : Prop :=
  ∃ before, (ofText source).Reads before c

theorem In.ofText (source : Source) : (ofText source).In source :=
  ⟨[], .refl _⟩

theorem In.reads {source s : Source} {c c' : Cursor} (h : c.In source) (hs : c.Reads s c') :
    c'.In source := by
  obtain ⟨before, hbefore⟩ := h
  exact ⟨before ++ s, hbefore.trans hs⟩

theorem In.offset_add {source : Source} {c : Cursor} (h : c.In source) :
    c.offset + Source.byteLength c.rest = Source.byteLength source := by
  obtain ⟨before, hbefore⟩ := h
  have hoffset := hbefore.offset
  have hlength := congrArg Source.byteLength hbefore.rest
  simp only [Cursor.ofText, Source.byteLength_append] at hoffset hlength
  omega

theorem In.offset_le {source : Source} {c : Cursor} (h : c.In source) :
    c.offset ≤ Source.byteLength source :=
  h.offset_add ▸ Nat.le_add_right _ _

theorem In.slice_eq {source s : Source} {c c' : Cursor} (h : c.In source) (hs : c.Reads s c') :
    source.slice c.offset c'.offset = s := by
  obtain ⟨before, hbefore⟩ := h
  have hsource : source = before ++ (s ++ c'.rest) := hbefore.rest.trans (by rw [hs.rest])
  have hstart : c.offset = Source.byteLength before := by
    rw [hbefore.offset, Cursor.ofText, Nat.zero_add]
  rw [Source.slice, hs.offset, Nat.add_sub_cancel_left, hstart, hsource,
    Source.dropBytes_byteLength, Source.takeBytes_byteLength]

end Cursor

namespace Grammar

/-- The body of a rule matches between two offsets of the source and leaves `cs`. -/
def Matched (g : Grammar ρ) (source : Source) (r : ρ) (start stop : Nat)
    (cs : List (Pair ρ)) : Prop :=
  ∃ c c', c.In source ∧ c.offset = start ∧ c'.offset = stop ∧
    g.answer (g.production r).tight (g.production r).body c = .ok cs c'

theorem Matched.reads {g : Grammar ρ} {source : Source} {r : ρ} {start stop : Nat}
    {cs : List (Pair ρ)} (h : g.Matched source r start stop cs) :
    ∃ before c c', g.answer (g.production r).tight (g.production r).body c = .ok cs c' ∧
      c.Reads (source.slice start stop) c' ∧
      source = before ++ (source.slice start stop ++ c'.rest) ∧
      start = Source.byteLength before ∧
      stop = Source.byteLength (before ++ source.slice start stop) := by
  obtain ⟨c, c', hin, rfl, rfl, hmatch⟩ := h
  obtain ⟨s, hs⟩ := answer_reads hmatch
  rw [hin.slice_eq hs]
  obtain ⟨before, hbefore⟩ := hin
  have hsource : source = before ++ (s ++ c'.rest) := hbefore.rest.trans (by rw [hs.rest])
  have hstart : c.offset = Source.byteLength before := by
    rw [hbefore.offset, Cursor.ofText, Nat.zero_add]
  refine ⟨before, c, c', hmatch, hs, hsource, hstart, ?_⟩
  rw [Source.byteLength_append, hs.offset, hstart]

/-- What a rule leaves when pairs are nested at most `depth` deep. -/
def Leaves (g : Grammar ρ) (source : Source) : Nat → ρ → List (Pair ρ) → Prop
  | 0, _, _ => False
  | depth + 1, r, ps =>
      ∃ cs start stop, g.Matched source r start stop cs ∧
        (if (g.production r).tight then cs = []
          else (g.production r).body.Yields (g.Leaves source depth) cs) ∧
        ps = if (g.production r).leavesPair then [.node r start stop cs] else cs

theorem Leaves.succ {g : Grammar ρ} {source : Source} {depth : Nat} {r : ρ}
    {ps : List (Pair ρ)} (h : g.Leaves source depth r ps) :
    g.Leaves source (depth + 1) r ps := by
  induction depth generalizing r ps with
  | zero => exact h.elim
  | succ depth ih =>
      obtain ⟨cs, start, stop, hmatched, hcs, rfl⟩ := h
      refine ⟨cs, start, stop, hmatched, ?_, rfl⟩
      split at hcs
      · next htight => rw [if_pos htight]; exact hcs
      · next hloose =>
          rw [if_neg hloose]
          exact hcs.mono fun r l => ih

theorem answer_tight {g : Grammar ρ} {e : Expr ρ} {c c' : Cursor} {ps : List (Pair ρ)}
    (h : g.answer true e c = .ok ps c') : ps = [] := by
  refine answer_upholds (P := fun tight _ _ ps _ => tight = true → ps = []) ?_
    true e c ps c' h rfl
  intro parts ih tight e c ps c' hmatch htight
  subst htight
  have hcases := round_eq_ok hmatch
  cases e with
  | text chars => exact hcases.1
  | char set => exact hcases.1
  | start => exact hcases.1
  | finish => exact hcases.1
  | rule r =>
      obtain ⟨cs, hcs, rfl⟩ := hcases
      exact ih _ _ _ _ _ hcs rfl
  | seq a b =>
      obtain ⟨ps₁, c₁, ps₂, c₂, ps₃, h₁, -, h₃, rfl⟩ := hcases
      rw [ih _ _ _ _ _ h₁ rfl, ih _ _ _ _ _ h₃ rfl, List.nil_append]
  | alt a b => exact hcases.elim (ih _ _ _ _ _ · rfl) fun h => ih _ _ _ _ _ h.2 rfl
  | opt a => exact hcases.elim (ih _ _ _ _ _ · rfl) fun h => h.2.1
  | star a =>
      rcases hcases with ⟨ps₁, c₁, ps₂, h₁, h₂, rfl⟩ | ⟨-, rfl, -⟩
      · rw [ih _ _ _ _ _ h₁ rfl, ih _ _ _ _ _ h₂ rfl, List.nil_append]
      · rfl
  | more a =>
      rcases hcases with ⟨ps₁, c₁, ps₂, c₂, ps₃, -, h₂, h₃, rfl⟩ | ⟨rfl, -⟩
      · rw [ih _ _ _ _ _ h₂ rfl, ih _ _ _ _ _ h₃ rfl, List.nil_append]
      · rfl
  | neg a => exact hcases.2.1

theorem rounds_yields {g : Grammar ρ} {source : Source} {fuel : Nat} {e : Expr ρ}
    {c c' : Cursor} {ps : List (Pair ρ)} (h : g.rounds fuel false e c = .ok ps c')
    (hc : c.In source) : e.Yields (g.Leaves source fuel) ps := by
  induction fuel generalizing e c c' ps with
  | zero => exact nomatch h
  | succ fuel ih =>
      have hparts {e : Expr ρ} {c c' : Cursor} {ps : List (Pair ρ)}
          (h : g.rounds fuel false e c = .ok ps c') (hc : c.In source) :
          e.Yields (g.Leaves source (fuel + 1)) ps ∧ c'.In source := by
        obtain ⟨s, hs⟩ := rounds_reads h
        exact ⟨(ih h hc).mono fun r l => Leaves.succ, hc.reads hs⟩
      have hskip {c c' : Cursor} {ps : List (Pair ρ)}
          (h : g.skip (g.rounds fuel) false c = .ok ps c') (hc : c.In source) :
          c'.In source := by
        obtain ⟨s, hs⟩ := rounds_reads h
        exact hc.reads hs
      have hcases := round_eq_ok h
      cases e with
      | text chars => exact hcases.1
      | char set => exact hcases.1
      | start => exact hcases.1
      | finish => exact hcases.1
      | rule r =>
          obtain ⟨cs, hcs, rfl⟩ := hcases
          simp only [Bool.false_or, Bool.not_false, Bool.true_and] at hcs ⊢
          refine ⟨cs, c.offset, c'.offset, ⟨c, c', hc, rfl, rfl, answer_of_rounds hcs⟩, ?_, rfl⟩
          split
          · next htight =>
              rw [htight] at hcs
              exact answer_tight (answer_of_rounds hcs)
          · next hloose =>
              rw [Bool.not_eq_true] at hloose
              rw [hloose] at hcs
              exact ih hcs hc
      | seq a b =>
          obtain ⟨ps₁, c₁, ps₂, c₂, ps₃, h₁, h₂, h₃, rfl⟩ := hcases
          obtain ⟨hy₁, hc₁⟩ := hparts h₁ hc
          obtain ⟨hy₃, -⟩ := hparts h₃ (hskip h₂ hc₁)
          exact ⟨ps₁, ps₃, rfl, hy₁, hy₃⟩
      | alt a b => exact hcases.imp (hparts · hc |>.1) (hparts ·.2 hc |>.1)
      | opt a =>
          rcases hcases with h₁ | ⟨-, rfl, -⟩
          · exact .inr (hparts h₁ hc).1
          · exact .inl rfl
      | star a =>
          rcases hcases with ⟨ps₁, c₁, ps₂, h₁, h₂, rfl⟩ | ⟨-, rfl, -⟩
          · obtain ⟨hy₁, hc₁⟩ := hparts h₁ hc
            exact .append hy₁ (hparts h₂ hc₁).1
          · exact .nil
      | more a =>
          rcases hcases with ⟨ps₁, c₁, ps₂, c₂, ps₃, h₁, h₂, h₃, rfl⟩ | ⟨rfl, -⟩
          · obtain ⟨hy₂, hc₂⟩ := hparts h₂ (hskip h₁ hc)
            exact .append hy₂ (hparts h₃ hc₂).1
          · exact .nil
      | neg a => exact hcases.2.1

theorem answer_yields {g : Grammar ρ} {source : Source} {e : Expr ρ} {c c' : Cursor}
    {ps : List (Pair ρ)} (h : g.answer false e c = .ok ps c') (hc : c.In source) :
    ∃ depth, e.Yields (g.Leaves source depth) ps := by
  obtain ⟨n, hn⟩ := g.settles_rounds false e c
  exact ⟨n, rounds_yields ((hn n (Nat.le_refl n)).trans h) hc⟩

end Grammar

end XiFront.Peg

import XiFront.Proofs.Grammar.Items
import XiFront.Proofs.Tree.Alike
import XiFront.Proofs.Tree.Extent

/-!
Items in front of further items.  The last item of a source ends before the source does, so what
comes after it is looked at only by attempts that fail; these fail as well at an item, because no
part of an item begins as an item does.  Hence a source is read item by item as before when a
newline and another source follow it.
-/

namespace XiFront

open Peg

theorem IsGap.join {a b r : List Char} (ha : IsGap a []) (hb : IsGap b r) :
    IsGap (a ++ '\n' :: b) r := by
  generalize hnil : ([] : List Char) = e at ha
  induction ha with
  | stop _ => exact .blank rfl hb
  | blank hc _ ih => exact .blank hc (ih hnil)
  | @block body a _ hbody _ ih =>
      have hgap := IsGap.block hbody (ih hnil)
      simpa using hgap
  | @line body a _ hbody hend _ ih =>
      subst hnil
      have hgap := IsGap.line hbody ?_ (ih rfl)
      · simpa using hgap
      · intro d hd
        cases a with
        | nil =>
            cases Option.some.inj hd
            rfl
        | cons z a => exact hend d hd

/-- The parts of an item that do not begin as an item does. -/
def Rule.isInner (r : Rule) : Bool :=
  !r.isLexical && decide (r ∉ [file, endOfInput, item, useStmt, structDecl, interfaceDecl, enumDecl,
    fnDecl, methodDecl, global, attribList])

/-- The atoms that do not begin as an item does. -/
def Peg.Expr.isInner (e : Expr Rule) : Bool :=
  e.isAtom && e.leadsApart 3 (.rule .item)

theorem inner_built : ∀ r ∈ Rule.all, r.isInner = true →
    (Rule.production r).body.built Expr.isInner Rule.isInner = true := by
  decide +kernel

/-- The spans are the same if the second lies in the source. -/
def Kept (limit : Nat) (_ : Rule) (start stop start' stop' : Nat) : Prop :=
  start' ≤ limit → stop' ≤ limit → start' = start ∧ stop' = stop

theorem Twin.kept {x y : List Char} {c c' : Cursor} {p p' : Pair Rule} (hp : Twin c c' p p')
    (hc : Abreast x y c c') {limit : Nat} : p.Alike (Kept limit) p' := by
  obtain ⟨r, d, d', s, -, hs, hs', rfl, rfl⟩ := hp
  refine .node (fun _ _ => ?_) .nil
  exact ⟨hc.offset, by rw [hs.offset, hs'.offset, hc.offset]⟩

theorem eq_of_forall₂ {R : α → α → Prop} {xs ys : List α} (h : List.Forall₂ R xs ys)
    (hR : ∀ y ∈ ys, ∀ x, R x y → y = x) : ys = xs := by
  induction h with
  | nil => rfl
  | cons hxy _ ih =>
      rw [List.forall_mem_cons] at hR
      rw [hR.1 _ hxy, ih hR.2]

theorem Kept.eq {limit : Nat} {p p' : Pair Rule} (h : p.Alike (Kept limit) p')
    (hp' : p'.Every (Pair.EndsBy limit)) : p' = p := by
  induction hp' generalizing p with
  | @node r start stop cs hspan _ ih =>
      obtain ⟨r', start', stop', cs'⟩ := p
      obtain ⟨rfl, hkept, hcs⟩ := h
      obtain ⟨rfl, rfl⟩ := hkept hspan.1 hspan.2
      rw [eq_of_forall₂ (Pair.alikeAll_iff.mp hcs) fun c hc p hp => ih c hc hp]

/-- After whole pieces `w` and a gap `a` a source ends; the next begins, after a gap `b`, with an
item, or is at its end. -/
structure Junction (w a b j : List Char) : Prop where
  cut : Cut a w
  before : IsGap a []
  after : IsGap b j
  opens : j = [] ∨ ∃ l ∈ (Expr.rule Rule.item).leads (Rule.leads 3), l.At j

namespace Junction

variable {w a b j : List Char}

theorem facing (h : Junction w a b j) : Facing a (a ++ '\n' :: (b ++ j)) := by
  refine ⟨h.before.opensFiller, ?_, ?_⟩
  · cases a with
    | nil =>
        intro c hc
        cases Option.some.inj hc
        rfl
    | cons z a => exact h.before.opensFiller
  · cases a with
    | nil => exact nofun
    | cons z a => exact id

def Begins (w a b j : List Char) (c c' : Cursor) : Prop :=
  c.In (w ++ a) ∧ c'.In (w ++ (a ++ '\n' :: (b ++ j))) ∧
    (Inside a (a ++ '\n' :: (b ++ j)) c c' ∨ c.rest = [] ∧ c'.rest = j)

def Ends (w a b j : List Char) (c c' : Cursor) : Prop :=
  c.In (w ++ a) ∧ c'.In (w ++ (a ++ '\n' :: (b ++ j))) ∧
    (Abreast a (a ++ '\n' :: (b ++ j)) c c' ∨ c.rest = [] ∧ c'.rest = j)

theorem offset_of_rest {c : Cursor} (hc : c.In (w ++ (a ++ '\n' :: (b ++ j))))
    (hrest : c.rest = j) :
    c.offset = Source.byteLength (w ++ a) + 1 + Source.byteLength b := by
  obtain ⟨before, hbefore⟩ := hc
  have hoffset := hbefore.offset
  have hlength := congrArg Source.byteLength hbefore.rest
  have hnewline : '\n'.utf8Size = 1 := rfl
  simp only [Cursor.ofText, hrest, Source.byteLength_append, Source.byteLength_cons, hnewline]
    at hoffset hlength ⊢
  omega

theorem kept_of_ends {c c' d d' : Cursor} (hc : Ends w a b j c c') (hd : Ends w a b j d d')
    (r : Rule) : Kept (Source.byteLength (w ++ a)) r c.offset d.offset c'.offset d'.offset := by
  have hsame {c c' : Cursor} (hc : Ends w a b j c c')
      (hle : c'.offset ≤ Source.byteLength (w ++ a)) : c'.offset = c.offset := by
    obtain ⟨-, hin', habreast | ⟨-, hrest⟩⟩ := hc
    · exact habreast.offset
    · rw [offset_of_rest hin' hrest] at hle
      omega
  intro hstart hstop
  exact ⟨hsame hc hstart, hsame hd hstop⟩

theorem skips (h : Junction w a b j) {c c' : Cursor} (hc : Ends w a b j c c') :
    (grammar.answer true filler c).Agrees (fun _ _ => True) (Begins w a b j)
      (grammar.answer true filler c') := by
  obtain ⟨hin, hin', hc⟩ := hc
  refine Reply.Agrees.within ?_ hin hin'
  rcases hc with ⟨v, hv, hrest, rfl⟩ | ⟨hrest, hrest'⟩
  · by_cases hne : v = []
    · subst hne
      have hend : grammar.Takes filler c a ⟨[], c.offset + Source.byteLength a⟩ :=
        takes_filler.mpr ⟨⟨by rw [hrest, List.append_nil]; rfl, rfl⟩, h.before⟩
      have hitem : grammar.Takes filler ⟨[] ++ (a ++ '\n' :: (b ++ j)), c.offset⟩ (a ++ '\n' :: b)
          ⟨j, c.offset + Source.byteLength (a ++ '\n' :: b)⟩ :=
        takes_filler.mpr ⟨⟨by simp, rfl⟩, h.before.join h.after⟩
      rw [hend.1, hitem.1]
      exact .matches_ .nil (.inr ⟨rfl, rfl⟩)
    · obtain ⟨s, d, d', hd, hd', hinside⟩ := Abreast.skips h.facing.slashSafe hv hne hrest
      rw [hd.1, hd'.1]
      exact .matches_ .nil (.inl hinside)
  · rw [answer_filler_firm (by rw [hrest]; exact .nil),
      answer_filler_firm (by rw [hrest']; exact h.after.firm)]
    exact .matches_ .nil (.inr ⟨hrest, hrest'⟩)

theorem firm (h : Junction w a b j) {c c' : Cursor} (hc : Begins w a b j c c') :
    IsFirm c.rest ∧ IsFirm c'.rest := by
  obtain ⟨-, -, ⟨v, hne, hfirm, hv, hrest, rfl⟩ | ⟨hrest, hrest'⟩⟩ := hc
  · rw [hrest]
    exact ⟨hfirm, hv.firm hne hfirm h.facing.slashSafe⟩
  · rw [hrest, hrest']
    exact ⟨.nil, h.after.firm⟩

theorem atom_fails (h : Junction w a b j) {e : Expr Rule} (he : e.isInner = true) {c : Cursor}
    (hc : c.rest = [] ∨ c.rest = j) : grammar.answer false e c = .fail := by
  obtain ⟨hatom, hapart⟩ := Bool.and_eq_true_iff.mp he
  have hstuck : grammar.answer false e c ≠ .stuck := by
    cases e with
    | text chars =>
        rw [Grammar.answer_text]
        exact Reply.ofOption_ne_stuck _
    | finish => exact nomatch hapart
    | rule r => exact answer_rule_ne_stuck r c
    | _ => exact nomatch hatom
  apply Grammar.eq_fail_of_ne_ok hstuck
  intro ps d
  rcases hc with hc | hc
  · apply ne_ok_of_leadsApart hapart _ (.inl hc)
    rw [hc]
    exact .nil
  · apply ne_ok_of_leadsApart hapart
    · rw [hc]
      exact h.after.firm
    · rw [hc]
      exact h.opens

/-- The parts of items are read alike before the junction, and fail alike at it. -/
def likeness (h : Junction w a b j) : Likeness grammar false where
  Begins := Begins w a b j
  Ends := Ends w a b j
  Alike := Pair.Alike (Kept (Source.byteLength (w ++ a)))
  leaf := Expr.isInner
  part := Rule.isInner
  ends := fun ⟨hin, hin', hc⟩ => ⟨hin, hin', hc.imp_left Inside.abreast⟩
  skips := h.skips
  leaves := by
    rintro e c c' he ⟨hin, hin', hc⟩
    refine Reply.Agrees.within ?_ hin hin'
    rcases hc with hc | ⟨hrest, hrest'⟩
    · have hagrees := atom_agrees h.facing hc (Bool.and_eq_true_iff.mp he).1
      exact hagrees.mono (fun _ _ hp => hp.kept hc.abreast) fun _ _ => .inl
    · rw [h.atom_fails he (.inl hrest), h.atom_fails he (.inr hrest')]
      exact .fails
  opens := by
    intro r hr
    refine ⟨fun htight => ?_, inner_built r r.mem_all hr⟩
    have hlexical := (Bool.not_eq_true' _).mp (Bool.and_eq_true_iff.mp hr).1
    exact (Rule.loose_of_isLexical hlexical).symm.trans htight
  closes := by
    rintro r c c' d d' ps ps' - - ⟨hin, hin', hc⟩ hd hps
    exact .node (kept_of_ends ⟨hin, hin', hc.imp_left Inside.abreast⟩ hd r) hps

/-- An item ends with a sign, so before the junction. -/
def Closes (w a b j : List Char) (c c' : Cursor) : Prop :=
  c.In (w ++ a) ∧ c'.In (w ++ (a ++ '\n' :: (b ++ j))) ∧
    Abreast a (a ++ '\n' :: (b ++ j)) c c'

theorem Closes.ends {c c' : Cursor} (h : Closes w a b j c c') : Ends w a b j c c' :=
  ⟨h.1, h.2.1, .inl h.2.2⟩

section

variable (h : Junction w a b j)

theorem likeness_firm : h.likeness.Firm := by
  intro c c' hc
  exact ⟨answer_filler_firm (h.firm hc).1, answer_filler_firm (h.firm hc).2⟩

theorem follows_rule {r : Rule} (hloose : (Rule.production r).tight = false)
    (hbody : h.likeness.Follows (Closes w a b j) (Rule.production r).body) :
    h.likeness.Follows (Closes w a b j) (.rule r) := by
  refine .rule hloose hbody fun hc hd hps => ?_
  exact .node (kept_of_ends (h.likeness.ends hc) hd.ends r) hps

theorem follows_atom {e : Expr Rule} (he : e.isAtom = true)
    (hnull : e.nullable Rule.isEmpty = false) : h.likeness.Follows (Closes w a b j) e := by
  rintro c c' ps d ⟨hin, hin', hc⟩ hok
  rcases hc with hc | ⟨hrest, -⟩
  · have hagrees := (atom_agrees h.facing hc he).within hin hin'
    obtain ⟨ps', d', hok', hps, hd⟩ := hagrees.exists_ok hok
    refine ⟨ps', d', hok', hps.imp fun p p' hp => ?_, hd⟩
    exact hp.kept hc.abreast
  · obtain ⟨s, hs, hne⟩ := answer_reads_something hnull hok
    rw [hs.rest] at hrest
    exact absurd (List.append_eq_nil_iff.mp hrest).1 hne

end

end Junction

theorem apart_methodDecl_fnDecl : grammar.Apart (.rule .methodDecl) (.rule .fnDecl) := by
  apply Grammar.Apart.rule rfl rfl
  apply Grammar.Apart.seq_second firm_of_filler
  apply Grammar.Apart.seq_second firm_of_filler
  apply Grammar.Apart.seq_second firm_of_filler
  apply Grammar.Apart.seq_second firm_of_filler
  apply Grammar.Apart.seq_first
  apply Grammar.Apart.rule rfl rfl
  apply Grammar.Apart.seq_second firm_of_filler
  exact apart_of_leads 3 rfl

theorem apart_attributes {k k' : Keyword} (hk : k ≠ k') {e e' : Expr Rule} :
    grammar.Apart (.seq (.star (.rule .attribList)) (.seq (.rule (.kw k)) e))
      (.seq (.star (.rule .attribList)) (.seq (.rule (.kw k')) e')) := by
  apply Grammar.Apart.seq_second firm_of_filler
  apply Grammar.Apart.seq_first
  apply apart_of_leads 0
  simp [Expr.leadsApart, Expr.leads, Expr.nullable, Rule.isEmpty, hk]

/-- Inner parts up to a last one, which is an atom. -/
def Peg.Expr.isClosing : Expr Rule → Bool
  | .seq a b => a.built Expr.isInner Rule.isInner && b.isClosing
  | e => e.isAtom && !e.nullable Rule.isEmpty

namespace Junction

variable {w a b j : List Char}

section

variable (h : Junction w a b j)

theorem follows_closing {e : Expr Rule} (he : e.isClosing = true) :
    h.likeness.Follows (Closes w a b j) e := by
  induction e with
  | seq a b _ ih =>
      obtain ⟨ha, hb⟩ := Bool.and_eq_true_iff.mp he
      exact .seq (.of_built ha) (ih hb)
  | _ =>
      obtain ⟨hatom, hnull⟩ := Bool.and_eq_true_iff.mp he
      exact h.follows_atom hatom ((Bool.not_eq_true' _).mp hnull)

theorem follows_inner {e : Expr Rule} (he : e.built Expr.isInner Rule.isInner = true) :
    h.likeness.Follows (Ends w a b j) e :=
  .of_built he

theorem follows_word (k : Keyword) {e : Expr Rule} (he : h.likeness.Follows (Closes w a b j) e) :
    h.likeness.Follows (Closes w a b j) (.seq (.rule (.kw k)) e) :=
  .seq ((h.follows_atom rfl rfl).mono Closes.ends) he

theorem follows_attribList : h.likeness.Follows (Closes w a b j) (.rule .attribList) := by
  apply h.follows_rule rfl
  exact .seq ((h.follows_atom rfl rfl).mono Closes.ends) (h.follows_closing rfl)

theorem follows_attributes (k : Keyword) {e : Expr Rule}
    (he : h.likeness.Follows (Closes w a b j) e) :
    h.likeness.Follows (Closes w a b j)
      (.seq (.star (.rule .attribList)) (.seq (.rule (.kw k)) e)) := by
  refine .star_seq h.likeness_firm (h.follows_attribList.mono Closes.ends) (h.follows_word k he)
    (apart_of_leads 2 rfl) (answer_rule_ne_stuck _)

theorem follows_blockExpr : h.likeness.Follows (Closes w a b j) (.rule .blockExpr) :=
  h.follows_rule rfl (h.follows_closing rfl)

theorem follows_function {parameters : Expr Rule}
    (hbuilt : parameters.built Expr.isInner Rule.isInner = true) :
    h.likeness.Follows (Closes w a b j) (Rule.functionBody parameters) := by
  apply h.follows_attributes .fn
  refine .seq (h.follows_inner rfl) (.seq (h.follows_inner rfl)
    (.seq (h.follows_inner hbuilt) (.seq (h.follows_inner rfl) ?_)))
  exact .alt h.likeness_firm h.follows_blockExpr (h.follows_closing rfl)
    (apart_of_leads 2 rfl) (answer_rule_ne_stuck _)

theorem follows_fnDecl : h.likeness.Follows (Closes w a b j) (.rule .fnDecl) :=
  h.follows_rule rfl (h.follows_function rfl)

theorem follows_methodDecl : h.likeness.Follows (Closes w a b j) (.rule .methodDecl) :=
  h.follows_rule rfl (h.follows_function rfl)

theorem follows_methods :
    h.likeness.Follows (Closes w a b j) (.alt (.rule .methodDecl) (.rule .fnDecl)) :=
  .alt h.likeness_firm h.follows_methodDecl h.follows_fnDecl apart_methodDecl_fnDecl
    (answer_rule_ne_stuck _)

theorem follows_members : h.likeness.Follows (Ends w a b j)
    (.seq (.oneOf (.rule .methodDecl) [.rule .fnDecl, .rule .field]) (.opt (Rule.symbol ','))) := by
  have hfn := h.follows_fnDecl.mono Closes.ends
  have hmethod := h.follows_methodDecl.mono Closes.ends
  have hfield : h.likeness.Follows (Ends w a b j) (.rule .field) :=
    h.follows_inner rfl
  refine .seq (.alt h.likeness_firm hmethod ?_ ?_ (answer_rule_ne_stuck _)) (h.follows_inner rfl)
  · exact .alt h.likeness_firm hfn hfield (apart_of_leads 3 rfl)
      (answer_rule_ne_stuck _)
  · exact .alt_right apart_methodDecl_fnDecl (apart_of_leads 3 rfl)

theorem follows_structDecl : h.likeness.Follows (Closes w a b j) (.rule .structDecl) := by
  apply h.follows_rule rfl
  apply h.follows_attributes .struct
  refine .seq (h.follows_inner rfl) (.seq (h.follows_inner rfl)
    (.seq (h.follows_inner rfl) (.seq (h.follows_inner rfl) ?_)))
  exact .star_seq h.likeness_firm h.follows_members (h.follows_closing rfl)
    (apart_of_leads 4 rfl) (ranking.answer_ne_stuck rfl)

theorem follows_interfaceDecl : h.likeness.Follows (Closes w a b j) (.rule .interfaceDecl) := by
  apply h.follows_rule rfl
  apply h.follows_attributes .interface
  refine .seq (h.follows_inner rfl) (.seq (h.follows_inner rfl)
    (.seq (h.follows_inner rfl) (.seq (h.follows_inner rfl) ?_)))
  exact .star_seq h.likeness_firm (h.follows_methods.mono Closes.ends) (h.follows_closing rfl)
    (apart_of_leads 4 rfl) (ranking.answer_ne_stuck rfl)

theorem follows_enumDecl : h.likeness.Follows (Closes w a b j) (.rule .enumDecl) := by
  apply h.follows_rule rfl
  apply h.follows_attributes .enum
  refine .seq (h.follows_inner rfl) (.seq (h.follows_inner rfl)
    (.seq (h.follows_inner rfl) ?_))
  have hmethods : h.likeness.Follows (Closes w a b j)
      (.seq (.star (.alt (.rule .methodDecl) (.rule .fnDecl))) (Rule.symbol '\x7d')) :=
    .star_seq h.likeness_firm (h.follows_methods.mono Closes.ends) (h.follows_closing rfl)
      (apart_of_leads 4 rfl) (ranking.answer_ne_stuck rfl)
  exact .star_seq h.likeness_firm (h.follows_inner rfl) hmethods
    (apart_of_leads 4 rfl) (ranking.answer_ne_stuck rfl)

theorem follows_item : h.likeness.Follows (Closes w a b j) (.rule .item) := by
  apply h.follows_rule rfl
  have huse : h.likeness.Follows (Closes w a b j) (.rule .useStmt) :=
    h.follows_rule rfl (h.follows_word .use (h.follows_closing rfl))
  have hglobal : h.likeness.Follows (Closes w a b j) (.rule .global) :=
    h.follows_rule rfl (h.follows_word .const (h.follows_closing rfl))
  have hfn : h.likeness.Follows (Closes w a b j) (.alt (.rule .fnDecl) (.rule .global)) :=
    .alt h.likeness_firm h.follows_fnDecl hglobal (apart_of_leads 4 rfl)
      (answer_rule_ne_stuck _)
  have henum := Likeness.Follows.alt h.likeness_firm h.follows_enumDecl hfn
    (.alt_right (.rule rfl rfl (apart_attributes (by decide)))
      (apart_of_leads 4 rfl))
    (answer_rule_ne_stuck _)
  have hinterface := Likeness.Follows.alt h.likeness_firm h.follows_interfaceDecl henum
    (.alt_right (.rule rfl rfl (apart_attributes (by decide)))
      (.alt_right (.rule rfl rfl (apart_attributes (by decide)))
        (apart_of_leads 4 rfl)))
    (answer_rule_ne_stuck _)
  have hstruct := Likeness.Follows.alt h.likeness_firm h.follows_structDecl hinterface
    (.alt_right (.rule rfl rfl (apart_attributes (by decide)))
      (.alt_right (.rule rfl rfl (apart_attributes (by decide)))
        (.alt_right (.rule rfl rfl (apart_attributes (by decide)))
          (apart_of_leads 4 rfl))))
    (answer_rule_ne_stuck _)
  exact .alt h.likeness_firm huse hstruct (apart_of_leads 4 rfl)
    (answer_rule_ne_stuck _)

end

theorem items (h : Junction w a b j) {c c' d e : Cursor} {ps qs : List (Pair Rule)}
    (hitems : Items c ps d) (hc : Begins w a b j c c')
    (hnext : Items ⟨j, Source.byteLength (w ++ a) + 1 + Source.byteLength b⟩ qs e) :
    Items c' (ps ++ qs) e := by
  induction hitems generalizing c' with
  | done hend =>
      obtain ⟨-, hin', ⟨v, hne, -, -, hrest, -⟩ | ⟨-, hrest⟩⟩ := hc
      · rw [hend] at hrest
        exact absurd (List.append_eq_nil_iff.mp hrest.symm).1 hne
      · obtain ⟨rest, offset⟩ := c'
        obtain rfl : rest = j := hrest
        obtain rfl : offset = _ := offset_of_rest hin' rfl
        exact hnext
  | @item c c₁ c₂ d ps rs skipped hitem hskip _ ih =>
      obtain ⟨ps', c₁', hitem', hps, hc₁⟩ := h.follows_item hc hitem
      obtain ⟨_, c₂', hskip', -, hc₂⟩ := (h.skips hc₁.ends).exists_ok hskip
      have hlimit : c₁'.offset ≤ Source.byteLength (w ++ a) := by
        rw [hc₁.2.2.offset]
        exact hc₁.1.offset_le
      have hbound := (Grammar.answer_laid hitem').endsBy
      have hsame : ps' = ps := by
        refine eq_of_forall₂ hps fun p' hp' p hp => Kept.eq hp ((hbound p' hp').mono ?_)
        exact fun q hq => ⟨Nat.le_trans hq.1 hlimit, Nat.le_trans hq.2 hlimit⟩
      rw [hsame] at hitem'
      rw [List.append_assoc]
      exact .item hitem' hskip' (ih hc₂)

end Junction

end XiFront

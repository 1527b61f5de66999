import XiFront.Proofs.Grammar.Lead
import XiFront.Proofs.Grammar.Quote
import XiFront.Proofs.Path.Spelling
import XiFront.Proofs.Precedence.Grouping

namespace XiFront

open Peg

mutual

/-- A node, with all below it, stands for a grouping. -/
inductive Node.Means (source : Source) : Node → Grouping → Prop
  | name {n : Node} {id : List Char} (hr : n.rule = .ident)
      (hname : n.name source = String.ofList id) : Means source n (.name id)
  | unary {n m : Node} {cs : List Node} {operators : List UnaryOp} {g : Grouping}
      (hr : n.rule = .unaryExpr) (hchildren : n.children = cs ++ [m])
      (hcs : cs.map Node.rule = operators.map Rule.unary) (h : Means source m g) :
      Means source n (.unary operators g)
  | binary {n m : Node} {cs : List Node} {l : Level} {g : Grouping}
      {gs : List (BinaryOp × Grouping)} (hr : n.rule = .chain l) (hchildren : n.children = m :: cs)
      (h : Means source m g) (hcs : MeansAll source cs gs) : Means source n (.binary g gs)

/-- Nodes of operators, each with the node of an operand behind it. -/
inductive Node.MeansAll (source : Source) : List Node → List (BinaryOp × Grouping) → Prop
  | nil : MeansAll source [] []
  | cons {c m : Node} {cs : List Node} {o : BinaryOp} {g : Grouping}
      {gs : List (BinaryOp × Grouping)} (hr : c.rule = .binary o) (h : Means source m g)
      (hcs : MeansAll source cs gs) : MeansAll source (c :: m :: cs) ((o, g) :: gs)

end

/-- One pair stays, and its node stands for the grouping. -/
def Groups (source : Source) (g : Grouping) (qs : List (Pair Rule)) : Prop :=
  ∃ q, qs = [q] ∧ ∀ next, (Node.ofPair source next q).Means source g

/-- The pairs that stay are those of operators, each with that of an operand behind it. -/
def GroupsAll (source : Source) (gs : List (BinaryOp × Grouping)) (qs : List (Pair Rule)) : Prop :=
  ∀ next, Node.MeansAll source (Node.ofPairs source next qs).1 gs

variable {source : Source} {rest : List Char}

theorem spans_operator {spelling : List Char} {notBefore : Option Char}
    (h : notBefore ≠ some ' ') :
    Spans (Rule.operator spelling notBefore) spelling (' ' :: rest) := by
  cases notBefore with
  | none => exact .text
  | some c =>
      have hnext : Misses (Rule.symbol c) (' ' :: rest) := by
        apply Misses.symbol
        intro d hd hcd
        cases Option.some.inj hd
        exact h (congrArg some hcd)
      have hspans := Spans.text.seq (.neg hnext) (s := spelling) (t := [])
      rw [List.append_nil] at hspans
      exact hspans

theorem misses_operator (spelling : List Char) (c : Char) :
    Misses (Rule.operator spelling (some c)) (spelling ++ c :: rest) := by
  intro offset
  have hnext : Spans (Rule.symbol c) [c] rest := .text
  have hanswer := (hnext (offset + Source.byteLength spelling)).1
  rw [List.singleton_append] at hanswer
  refine Grammar.fails_seq_iff.mpr (.inr ⟨spelling, _, Spans.text offset, ?_⟩)
  rw [Grammar.answer_neg, hanswer, Reply.resume_ok]

theorem scans_binary (o : BinaryOp) :
    Scans source (.rule (.binary o)) o.spelling (' ' :: rest) fun qs =>
      ∃ q, qs = [q] ∧ q.rule = .binary o := by
  have hblank : o.notBefore ≠ some ' ' := by cases o <;> decide
  refine (Scans.token rfl fun offset => (spans_operator hblank offset).1).mono ?_
  rintro qs ⟨start, stop, -, rfl⟩
  exact ⟨_, rfl, rfl⟩

theorem scans_unary (o : UnaryOp) :
    Scans source (.rule (.unary o)) o.spelling (' ' :: rest) fun qs =>
      qs.map Pair.rule = [.unary o] := by
  have hblank : o.notBefore ≠ some ' ' := by cases o <;> decide
  refine (Scans.token rfl fun offset => (spans_operator hblank offset).1).mono ?_
  rintro qs ⟨start, stop, -, rfl⟩
  rfl

theorem firm_binary (o : BinaryOp) : IsFirm (o.spelling ++ ' ' :: rest) := by
  cases o with
  | div => exact .slash (by simp)
  | _ => exact .cons rfl (by decide)

theorem firm_unary (o : UnaryOp) : IsFirm (o.spelling ++ ' ' :: rest) := by
  cases o <;> exact .cons rfl (by decide)

def BinaryOp.sign (o : BinaryOp) : Char :=
  o.spelling.headD ' '

def UnaryOp.sign (o : UnaryOp) : Char :=
  o.spelling.headD ' '

theorem lead_binary (o : BinaryOp) :
    Lead.ofText? (o.spelling ++ ' ' :: rest) = some (.sign o.sign) := by
  cases o <;> rfl

theorem lead_unary (o : UnaryOp) :
    Lead.ofText? (o.spelling ++ ' ' :: rest) = some (.sign o.sign) := by
  cases o <;> rfl

theorem fails_token {r : Rule} (htight : (Rule.production r).tight = true) {text : List Char}
    (h : Misses (Rule.production r).body text) : Fails (.rule r) text := by
  rintro ⟨_, offset⟩ rfl
  have htight' : (grammar.production r).tight = true := htight
  rw [Grammar.answer_rule_loose, htight']
  exact congrArg (Reply.close r (Rule.production r).leavesPair offset) (h offset)

theorem avoids_binary : ∀ o ∈ BinaryOp.all, ∀ o' ∈ BinaryOp.all,
    o' = o ∨ (Expr.rule (Rule.binary o')).avoids 1 (.sign o.sign) = true ∨
      (o', o) ∈ [(.le, .lt), (.ge, .gt), (.lt, .le), (.gt, .ge)] := by
  decide +kernel

theorem fails_binary {o o' : BinaryOp} (h : o' ≠ o) :
    Fails (.rule (.binary o')) (o.spelling ++ ' ' :: rest) := by
  rcases (avoids_binary o o.mem_all o' o'.mem_all).resolve_left h with havoids | hpair
  · exact .of_avoids 1 havoids (firm_binary o) (lead_binary o)
  · simp only [List.mem_cons, Prod.mk.injEq, List.not_mem_nil, or_false] at hpair
    rcases hpair with ⟨rfl, rfl⟩ | ⟨rfl, rfl⟩ | ⟨rfl, rfl⟩ | ⟨rfl, rfl⟩
    · exact fails_token rfl (.text (by simp [BinaryOp.spelling]))
    · exact fails_token rfl (.text (by simp [BinaryOp.spelling]))
    · exact fails_token rfl (misses_operator ['<'] '=')
    · exact fails_token rfl (misses_operator ['>'] '=')

theorem avoids_unary : ∀ o ∈ UnaryOp.all, ∀ o' ∈ UnaryOp.all,
    o' = o ∨ (Expr.rule (Rule.unary o')).avoids 1 (.sign o.sign) = true := by
  decide +kernel

theorem fails_unary {o o' : UnaryOp} (h : o' ≠ o) :
    Fails (.rule (.unary o')) (o.spelling ++ ' ' :: rest) :=
  .of_avoids 1 ((avoids_unary o o.mem_all o' o'.mem_all).resolve_left h) (firm_unary o)
    (lead_unary o)

/-- A run of the operators ends in front of a semicolon, or of another operator after a blank. -/
inductive Ends (ops : List BinaryOp) : (gap rest : List Char) → Prop
  | done (rest : List Char) : Ends ops [] (';' :: rest)
  | operator {o : BinaryOp} (h : o ∉ ops) (rest : List Char) :
      Ends ops [' '] (o.spelling ++ ' ' :: rest)

namespace Ends

variable {ops : List BinaryOp} {gap : List Char}

theorem anti {ops' : List BinaryOp} (h : Ends ops gap rest) (hsub : ops' ⊆ ops) :
    Ends ops' gap rest := by
  cases h with
  | done rest => exact .done rest
  | operator ho rest => exact .operator (fun hmem => ho (hsub hmem)) rest

theorem firm (h : Ends ops gap rest) : IsFirm rest := by
  cases h with
  | done rest => exact .cons rfl (by decide)
  | operator _ rest => exact firm_binary _

theorem skips (h : Ends ops gap rest) : Skips gap rest := by
  have hfirm := h.firm
  cases h with
  | done rest => exact (IsGap.stop hfirm).skips
  | operator _ rest => exact (IsGap.blank rfl (.stop hfirm)).skips

theorem not_word (h : Ends ops gap rest) : ∀ c ∈ (gap ++ rest).head?, isWordChar c = false := by
  intro c hc
  cases h with
  | done rest =>
      cases Option.some.inj hc
      rfl
  | operator _ rest =>
      cases Option.some.inj hc
      rfl

def signs : List Char :=
  ';' :: BinaryOp.all.map BinaryOp.sign

theorem lead (h : Ends ops gap rest) : ∃ c ∈ signs, Lead.ofText? rest = some (.sign c) := by
  cases h with
  | done rest => exact ⟨';', List.mem_cons_self, rfl⟩
  | @operator o _ rest =>
      exact ⟨o.sign, List.mem_cons_of_mem _ (List.mem_map_of_mem o.mem_all), lead_binary o⟩

theorem fails_of_avoids (h : Ends ops gap rest) {e : Expr Rule} (depth : Nat)
    (havoids : ∀ c ∈ signs, e.avoids depth (.sign c) = true) : Fails e rest := by
  obtain ⟨c, hc, hlead⟩ := h.lead
  exact .of_avoids depth (havoids c hc) h.firm hlead

theorem fails_binary (h : Ends ops gap rest) {o : BinaryOp} (ho : o ∈ ops) :
    Fails (.rule (.binary o)) rest := by
  cases h with
  | done rest =>
      have havoids : ∀ o ∈ BinaryOp.all, (Expr.rule (Rule.binary o)).avoids 1 (.sign ';') = true := by
        decide +kernel
      exact .of_avoids 1 (havoids o o.mem_all) (.cons rfl (by decide)) rfl
  | operator ho' rest =>
      apply XiFront.fails_binary
      rintro rfl
      exact ho' ho

end Ends

def anyUnary : Expr Rule :=
  .oneOf (.rule (.unary .not)) [.rule (.unary .neg), .rule (.unary .pos)]

def Level.members (l : Level) : List BinaryOp :=
  l.operators.1 :: l.operators.2

def anyBinary (l : Level) : Expr Rule :=
  .oneOf (.rule (.binary l.operators.1)) (l.operators.2.map fun o => .rule (.binary o))

variable {ops : List BinaryOp} {gap : List Char}

theorem Ends.fails_anyBinary {l : Level} (h : Ends (l.members ++ ops) gap rest) :
    Fails (anyBinary l) rest := by
  apply Fails.oneOf
  change ∀ e ∈ l.members.map (fun o => Expr.rule (Rule.binary o)), _
  rw [List.forall_mem_map]
  exact fun o ho => h.fails_binary (List.mem_append_left _ ho)

namespace Scans

variable {w : List Char} {Q : Pair Rule → Prop}

theorem callExpr
    (h : Scans source (.rule .primaryExpr) w (gap ++ rest) fun qs => ∃ q, qs = [q] ∧ Q q)
    (hends : Ends ops gap rest) :
    Scans source (.rule .callExpr) (w ++ gap) rest fun qs => ∃ q, qs = [q] ∧ Q q := by
  have hsteps : Fails
      (.oneOf (.rule .args) [.rule .fieldAccess, .rule .staticAccess, .rule .indexAccess]) rest :=
    hends.fails_of_avoids 2 (by decide +kernel)
  exact .fold_only rfl rfl (h.seq_filler hends.skips (.star_nil hsteps))

theorem unaryExpr (h : Scans source (.rule .callExpr) w rest fun qs => ∃ q, qs = [q] ∧ Q q)
    (hfirm : IsFirm (w ++ rest)) (hfails : Fails anyUnary (w ++ rest)) :
    Scans source (.rule .unaryExpr) w rest fun qs => ∃ q, qs = [q] ∧ Q q := by
  refine .fold_only rfl rfl ((Scans.star_nil hfails).seq_gap (IsGap.stop hfirm).skips h ?_)
  rintro ps qs rfl hqs
  exact hqs

theorem castExpr (h : Scans source (.rule .unaryExpr) w rest fun qs => ∃ q, qs = [q] ∧ Q q)
    (hends : Ends ops gap rest) :
    Scans source (.rule .castExpr) w rest fun qs => ∃ q, qs = [q] ∧ Q q := by
  have hcasts : Fails (.seq (.rule (.kw .as_)) (.rule .ty)) rest :=
    hends.fails_of_avoids 1 (by decide +kernel)
  have hbody := h.seq_filler (g := []) (IsGap.stop hends.firm).skips (.star_nil hcasts)
  rw [List.append_nil] at hbody
  exact .fold_only rfl rfl hbody

theorem chain {l : Level} (h : Scans source (Rule.operand l) w rest fun qs => ∃ q, qs = [q] ∧ Q q)
    (hends : Ends (l.members ++ ops) gap rest) :
    Scans source (.rule (.chain l)) w rest fun qs => ∃ q, qs = [q] ∧ Q q := by
  have hbody := h.seq_filler (g := []) (IsGap.stop hends.firm).skips
    (.star_nil (hends.fails_anyBinary.seq (Rule.operand l)))
  rw [List.append_nil] at hbody
  exact .fold_only rfl rfl hbody

theorem logOr
    (h : Scans source (.rule .primaryExpr) w (';' :: rest) fun qs => ∃ q, qs = [q] ∧ Q q)
    (hfirm : IsFirm (w ++ ';' :: rest)) (hfails : Fails anyUnary (w ++ ';' :: rest)) :
    Scans source (.rule (.chain .logOr)) w (';' :: rest) fun qs => ∃ q, qs = [q] ∧ Q q := by
  have hends (ops : List BinaryOp) : Ends (ops ++ []) [] (';' :: rest) := .done rest
  have hcall := h.callExpr (hends [])
  rw [List.append_nil] at hcall
  have hcast := (hcall.unaryExpr hfirm hfails).castExpr (hends [])
  have hmultiplicative := hcast.chain (l := .multiplicative) (hends _)
  have hadditive := hmultiplicative.chain (l := .additive) (hends _)
  have hcomparison := hadditive.chain (l := .comparison) (hends _)
  have hequality := hcomparison.chain (l := .equality) (hends _)
  exact (hequality.chain (l := .logAnd) (hends _)).chain (hends _)

theorem expr (h : Scans source (.rule (.chain .logOr)) w (';' :: rest) fun qs => ∃ q, qs = [q] ∧ Q q)
    (hfirm : IsFirm (w ++ ';' :: rest)) {l : Lead}
    (hlead : Lead.ofText? (w ++ ';' :: rest) = some l)
    (havoids : ∀ e ∈ [Expr.rule (.kw .continue_), .rule .breakExpr, .rule .returnExpr],
      e.avoids 2 l = true) :
    Scans source (.rule .expr) w (';' :: rest) fun qs => ∃ q, qs = [q] ∧ Q q := by
  have hfails {e : Expr Rule}
      (he : e ∈ [Expr.rule (.kw .continue_), .rule .breakExpr, .rule .returnExpr]) :
      Fails e (w ++ ';' :: rest) :=
    .of_avoids 2 (havoids e he) hfirm hlead
  have hassign : Fails (.inOrder (Rule.symbol '=')
      [.neg (Rule.symbol '='), .rule (.chain .logOr)]) (';' :: rest) :=
    .seq (.text (by simp)) _
  have hstop : IsFirm (';' :: rest) := .cons rfl (by decide)
  have hbody := h.seq_filler (g := []) (IsGap.stop hstop).skips (.opt_none hassign)
  rw [List.append_nil] at hbody
  refine .fold_only rfl rfl (.alt_left (.fold_only rfl rfl ?_) _)
  refine .alt_right (hfails (by simp)) (.alt_right (hfails (by simp)) (.alt_right (hfails (by simp)) ?_))
  exact .fold_only rfl rfl hbody

end Scans

theorem lead_name {w : List Char} (hw : IsIdentifier w) (h : Ends ops gap rest) :
    Lead.ofText? (w ++ (gap ++ rest)) = some .name :=
  Lead.ofText?_identifier hw h.not_word

theorem firm_name {w : List Char} (hw : IsIdentifier w) (cs : List Char) : IsFirm (w ++ cs) := by
  have hsolid := (IsSourceName.ident hw).solid cs
  rw [String.toList_ofList] at hsolid
  exact hsolid.isFirm

theorem scans_primaryExpr {w : List Char} (hw : IsIdentifier w) (h : Ends ops gap rest) :
    Scans source (.rule .primaryExpr) w (gap ++ rest) (Groups source (.name w)) := by
  have hfails {e : Expr Rule} (havoids : e.avoids 5 .name = true) : Fails e (w ++ (gap ++ rest)) :=
    .of_avoids 5 havoids (firm_name hw _) (lead_name hw h)
  have hname : Scans source (.rule .ident) w (gap ++ rest) (Groups source (.name w)) := by
    refine (Scans.ident hw h.not_word).mono ?_
    rintro qs ⟨q, rfl, hrule, hq⟩
    exact ⟨q, rfl, fun next => .name ((Node.rule_ofPair ..).trans hrule) (hq next).name⟩
  refine .fold_only rfl rfl ?_
  -- The alternatives before a name begin otherwise; those after it are not tried.
  iterate 5 refine .alt_right (hfails (by decide +kernel)) ?_
  exact hname.alt_left _

theorem scans_callExpr {w : List Char} (hw : IsIdentifier w) (h : Ends ops gap rest) :
    Scans source (.rule .callExpr) (w ++ gap) rest (Groups source (.name w)) :=
  (scans_primaryExpr hw h).callExpr h

theorem scans_anyUnary (o : UnaryOp) :
    Scans source anyUnary o.spelling (' ' :: rest) fun qs => qs.map Pair.rule = [.unary o] := by
  refine .oneOf (d := .rule (.unary o)) ?_ (scans_unary o) ?_
  · exact List.mem_map_of_mem (f := fun o => Expr.rule (Rule.unary o)) o.mem_all
  · change ∀ e ∈ UnaryOp.all.map (fun o => Expr.rule (Rule.unary o)), _
    rw [List.forall_mem_map]
    intro o' _ hne
    apply fails_unary
    rintro rfl
    exact hne rfl

def furtherUnary (os : List UnaryOp) : List Char :=
  os.flatMap fun o => ' ' :: o.spelling

theorem furtherUnary_blank (os : List UnaryOp) (cs : List Char) :
    ∃ ds, furtherUnary os ++ ' ' :: cs = ' ' :: ds := by
  cases os with
  | nil => exact ⟨cs, rfl⟩
  | cons o os => exact ⟨_, rfl⟩

theorem scans_furtherUnary (os : List UnaryOp) (hfirm : IsFirm rest)
    (hfails : Fails anyUnary rest) :
    Scans source (.more anyUnary) (furtherUnary os) (' ' :: rest) fun qs =>
      qs.map Pair.rule = os.map Rule.unary := by
  induction os with
  | nil =>
      refine (Scans.more_nil (g := [' ']) (IsGap.blank rfl (.stop hfirm)).skips hfails).mono ?_
      rintro qs rfl
      rfl
  | cons o os ih =>
      obtain ⟨cs, hcs⟩ := furtherUnary_blank os rest
      refine Scans.more_cons (g := [' ']) (t := furtherUnary os) ?_ ?_ ih ?_
        (P := fun qs => qs.map Pair.rule = [.unary o])
      · rw [hcs]
        exact (IsGap.blank rfl (.stop (firm_unary o))).skips
      · rw [hcs]
        exact scans_anyUnary o
      · intro ps qs hps hqs
        rw [List.map_append, hps, hqs, List.map_cons, List.singleton_append]

theorem scans_prefixes (o : UnaryOp) (os : List UnaryOp) (hfirm : IsFirm rest)
    (hfails : Fails anyUnary rest) :
    Scans source (.star anyUnary) (o.spelling ++ furtherUnary os) (' ' :: rest) fun qs =>
      qs.map Pair.rule = (o :: os).map Rule.unary := by
  obtain ⟨cs, hcs⟩ := furtherUnary_blank os rest
  refine Scans.star_more (P := fun qs => qs.map Pair.rule = [.unary o]) ?_
    (scans_furtherUnary os hfirm hfails) ?_
  · rw [hcs]
    exact scans_anyUnary o
  · intro ps qs hps hqs
    rw [List.map_append, hps, hqs, List.map_cons, List.singleton_append]

theorem prefixes_eq (o : UnaryOp) (os : List UnaryOp) :
    (o :: os).flatMap (fun o => o.spelling ++ [' ']) = o.spelling ++ furtherUnary os ++ [' '] := by
  induction os generalizing o with
  | nil => simp [furtherUnary]
  | cons o' os ih =>
      rw [List.flatMap_cons, ih o']
      simp [furtherUnary]

theorem scans_unaryExpr (x : Operand) (h : Ends ops gap rest) :
    Scans source (.rule .unaryExpr) (x.spaced gap) rest (Groups source x.grouping) := by
  obtain ⟨prefixes, w, hw⟩ := x
  have hcall : Scans source (.rule .callExpr) (w ++ gap) rest _ := scans_callExpr hw h
  have hfirm : IsFirm (w ++ gap ++ rest) := by
    rw [List.append_assoc]
    exact firm_name hw _
  have hlead : Lead.ofText? (w ++ gap ++ rest) = some .name := by
    rw [List.append_assoc]
    exact lead_name hw h
  have hfails : Fails anyUnary (w ++ gap ++ rest) := .of_avoids 2 (by decide +kernel) hfirm hlead
  cases prefixes with
  | nil => exact hcall.unaryExpr hfirm hfails
  | cons o os =>
      have hbody := (scans_prefixes o os hfirm hfails).seq_gap (g := [' '])
        (IsGap.blank rfl (.stop hfirm)).skips hcall (R := fun qs => ∃ ps q, qs = ps ++ [q] ∧
          ps.map Pair.rule = (o :: os).map Rule.unary ∧
          ∀ next, (Node.ofPair source next q).Means source (.name w)) ?_
      · rw [← List.append_assoc, ← prefixes_eq] at hbody
        refine (Scans.fold_many rfl rfl hbody ?_).mono ?_
        · rintro _ ⟨ps, q, rfl, hps, -⟩
          have hlength := congrArg List.length hps
          simp only [List.length_map, List.length_cons, List.length_append] at hlength ⊢
          omega
        · rintro _ ⟨start, stop, _, ⟨ps, q, rfl, hps, hq⟩, rfl⟩
          refine ⟨_, rfl, fun next => ?_⟩
          have hchildren := Node.children_ofPair source next (.node .unaryExpr start stop (ps ++ [q]))
          rw [Pair.children, Node.ofPairs_append] at hchildren
          have hcs := Node.rules_ofPairs source next ps
          exact .unary (Node.rule_ofPair ..) hchildren (hcs.trans hps) (hq _)
      · rintro ps qs hps ⟨q, rfl, hq⟩
        exact ⟨ps, q, rfl, hps, hq⟩

theorem scans_castExpr (x : Operand) (h : Ends ops gap rest) :
    Scans source (.rule .castExpr) (x.spaced gap) rest (Groups source x.grouping) :=
  (scans_unaryExpr x h).castExpr h

theorem Operand.firm_spaced (x : Operand) (gap cs : List Char) : IsFirm (x.spaced gap ++ cs) := by
  obtain ⟨prefixes, w, hw⟩ := x
  cases prefixes with
  | nil =>
      rw [Operand.spaced, List.flatMap_nil, List.nil_append, List.append_assoc]
      exact firm_name hw _
  | cons o os =>
      rw [Operand.spaced, List.flatMap_cons, List.append_assoc, List.append_assoc, List.append_assoc]
      exact firm_unary o

theorem Run.firm_spaced (run : Run) (gap cs : List Char) : IsFirm (run.spaced gap ++ cs) := by
  obtain ⟨x, others⟩ := run
  cases others with
  | nil => exact x.firm_spaced gap cs
  | cons p others =>
      rw [Run.spaced, Run.spacedFrom, List.append_assoc]
      exact x.firm_spaced _ _

/-- The expression reads runs of the operators, and groups them by levels. -/
def ReadsRuns (e : Expr Rule) (ops : List BinaryOp) (levels : List (List BinaryOp)) : Prop :=
  ∀ (source : Source) ⦃run : Run⦄ ⦃gap rest : List Char⦄, (∀ p ∈ run.others, p.1 ∈ ops) →
    Ends ops gap rest → Scans source e (run.spaced gap) rest (Groups source (run.group levels))

theorem readsRuns_castExpr : ReadsRuns (.rule .castExpr) [] [] := by
  rintro source ⟨x, others⟩ gap rest hothers h
  cases List.eq_nil_iff_forall_not_mem.mpr fun p hp => nomatch hothers p hp
  exact scans_castExpr x h

theorem scans_anyBinary {l : Level} {o : BinaryOp} (ho : o ∈ l.members) :
    Scans source (anyBinary l) o.spelling (' ' :: rest) fun qs =>
      ∃ q, qs = [q] ∧ q.rule = .binary o := by
  refine .oneOf (d := .rule (.binary o)) ?_ (scans_binary o) ?_
  · exact List.mem_map_of_mem (f := fun o => Expr.rule (Rule.binary o)) ho
  · change ∀ e ∈ l.members.map (fun o => Expr.rule (Rule.binary o)), _
    rw [List.forall_mem_map]
    intro o' _ hne
    apply fails_binary
    rintro rfl
    exact hne rfl

/-- A run of tighter operators ends in front of the next operator of the level, or of what ends the
whole run. -/
theorem Ends.segments {l : Level} (h : Ends (l.members ++ ops) gap rest)
    (hdisjoint : ∀ o ∈ l.members, o ∉ ops) (runs : List (BinaryOp × Run))
    (hruns : ∀ p ∈ runs, p.1 ∈ l.members) :
    Ends ops (Run.gapBefore runs gap) (Run.segments runs gap ++ rest) := by
  cases runs with
  | nil => exact h.anti (List.subset_append_right ..)
  | cons p runs =>
      have hp := hdisjoint _ (hruns p List.mem_cons_self)
      have hends := Ends.operator hp
        (p.2.spaced (Run.gapBefore runs gap) ++ Run.segments runs gap ++ rest)
      simpa [Run.segments, Run.gapBefore] using hends

theorem GroupsAll.cons {o : BinaryOp} {g : Grouping} {gs : List (BinaryOp × Grouping)}
    {p : Pair Rule} {ps qs : List (Pair Rule)} (hp : p.rule = .binary o) (hps : Groups source g ps)
    (hqs : GroupsAll source gs qs) : GroupsAll source ((o, g) :: gs) (p :: ps ++ qs) := by
  obtain ⟨q, rfl, hq⟩ := hps
  intro next
  exact .cons ((Node.rule_ofPair ..).trans hp) (hq _) (hqs _)

theorem GroupsAll.eq_nil_iff {gs : List (BinaryOp × Grouping)} {qs : List (Pair Rule)}
    (h : GroupsAll source gs qs) : qs = [] ↔ gs = [] := by
  have hmeans := h 0
  cases qs with
  | nil =>
      cases hmeans
      exact iff_of_true rfl rfl
  | cons q qs =>
      rw [Node.ofPairs_cons] at hmeans
      generalize (Node.ofPairs source _ qs).1 = ns at hmeans
      cases hmeans
      exact iff_of_false nofun nofun

section

variable {e : Expr Rule} {levels : List (List BinaryOp)}

theorem scans_others {l : Level} (h : ReadsRuns e ops levels) (hdisjoint : ∀ o ∈ l.members, o ∉ ops)
    (hends : Ends (l.members ++ ops) gap rest) (runs : List (BinaryOp × Run))
    (hruns : ∀ p ∈ runs, p.1 ∈ l.members ∧ ∀ q ∈ p.2.others, q.1 ∈ ops) :
    Scans source (.star (.seq (anyBinary l) e)) (Run.segments runs gap) rest
      (GroupsAll source (runs.map fun (o, run) => (o, run.group levels))) := by
  induction runs with
  | nil =>
      refine (Scans.star_nil (hends.fails_anyBinary.seq e)).mono ?_
      rintro qs rfl next
      exact .nil
  | cons p runs ih =>
      obtain ⟨o, run⟩ := p
      rw [List.forall_mem_cons] at hruns
      obtain ⟨⟨ho, hrun⟩, hruns⟩ := hruns
      have hnext := hends.segments hdisjoint runs fun p hp => (hruns p hp).1
      have hpart := (scans_anyBinary ho).seq_gap (g := [' '])
        (IsGap.blank rfl (.stop (run.firm_spaced _ _))).skips (h source hrun hnext)
        (R := fun qs => ∃ p ps, qs = p :: ps ∧ p.rule = .binary o ∧
          Groups source (run.group levels) ps) ?_
      · have hstar := hpart.star_more ((ih hruns).more_of_star hnext.firm)
          (R := GroupsAll source (((o, run) :: runs).map fun (o, run) => (o, run.group levels))) ?_
        · simpa [Run.segments] using hstar
        · rintro _ qs ⟨p, ps, rfl, hp, hps⟩ hqs
          exact .cons hp hps hqs
      · rintro _ ps ⟨p, rfl, hp⟩ hps
        exact ⟨p, ps, rfl, hp, hps⟩

theorem ReadsRuns.chain (l : Level) (h : ReadsRuns (Rule.operand l) ops levels)
    (hdisjoint : ∀ o ∈ l.members, o ∉ ops) :
    ReadsRuns (.rule (.chain l)) (l.members ++ ops) (l.members :: levels) := by
  intro source run gap rest hothers hends
  obtain ⟨hfirst, hruns⟩ := Run.mem_split hothers
  rw [Run.spaced_split l.members run gap, Run.group]
  generalize run.split l.members = cut at hfirst hruns ⊢
  obtain ⟨first, runs⟩ := cut
  have hnext := hends.segments hdisjoint runs fun p hp => (hruns p hp).1
  have hbody := (h source hfirst hnext).seq_gap (g := []) (IsGap.stop hnext.firm).skips
    (scans_others h hdisjoint hends runs hruns) (R := fun qs => ∃ q ps, qs = q :: ps ∧
      (∀ next, (Node.ofPair source next q).Means source (first.group levels)) ∧
      GroupsAll source (runs.map fun (o, run) => (o, run.group levels)) ps) ?_
  · cases runs with
    | nil =>
        refine .fold_only rfl rfl (hbody.mono ?_)
        rintro _ ⟨q, ps, rfl, hq, hps⟩
        exact ⟨q, by rw [hps.eq_nil_iff.mpr rfl], hq⟩
    | cons p runs =>
        refine (Scans.fold_many rfl rfl hbody ?_).mono ?_
        · rintro _ ⟨q, ps, rfl, -, hps⟩
          have hne : ps ≠ [] := fun h => nomatch hps.eq_nil_iff.mp h
          have hpos := List.length_pos_iff.mpr hne
          rw [List.length_cons]
          omega
        · rintro _ ⟨start, stop, _, ⟨q, ps, rfl, hq, hps⟩, rfl⟩
          refine ⟨_, rfl, fun next => ?_⟩
          exact .binary (Node.rule_ofPair ..) (Node.children_ofPair ..) (hq _) (hps _)
  · rintro _ qs ⟨q, rfl, hq⟩ hqs
    exact ⟨q, qs, rfl, hq, hqs⟩

end

theorem readsRuns_logOr : ReadsRuns (.rule (.chain .logOr)) precedence.flatten precedence := by
  have hmultiplicative := readsRuns_castExpr.chain .multiplicative (by decide)
  have hadditive := hmultiplicative.chain .additive (by decide)
  have hcomparison := hadditive.chain .comparison (by decide)
  have hequality := hcomparison.chain .equality (by decide)
  have hlogAnd := hequality.chain .logAnd (by decide)
  exact hlogAnd.chain .logOr (by decide)

theorem mem_precedence (o : BinaryOp) : o ∈ precedence.flatten := by
  cases o <;> decide

end XiFront

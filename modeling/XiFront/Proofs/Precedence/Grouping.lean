import XiFront.Proofs.Grammar.Token

namespace XiFront

/-- Prefix operators, and the name that they apply to. -/
structure Operand where
  prefixes : List UnaryOp
  name : List Char
  isIdentifier : IsIdentifier name

/-- Operands with an operator between any two. -/
structure Run where
  first : Operand
  others : List (BinaryOp × Operand)

/-- An expression that is grouped. -/
inductive Grouping where
  | name (id : List Char)
  | unary (operators : List UnaryOp) (operand : Grouping)
  | binary (first : Grouping) (others : List (BinaryOp × Grouping))

/-- The levels of operators, from the loosest to the tightest. -/
def precedence : List (List BinaryOp) :=
  [[.logOr], [.logAnd], [.eq, .ne], [.le, .ge, .lt, .gt], [.add, .sub], [.mul, .div, .mod]]

def Operand.grouping (x : Operand) : Grouping :=
  match x.prefixes with
  | [] => .name x.name
  | operators => .unary operators (.name x.name)

namespace Run

def splitAt (ops : List BinaryOp) :
    Operand → List (BinaryOp × Operand) → Run × List (BinaryOp × Run)
  | x, [] => (⟨x, []⟩, [])
  | x, (o, y) :: others =>
      match splitAt ops y others with
      | (run, runs) =>
          if o ∈ ops then (⟨x, []⟩, (o, run) :: runs)
          else (⟨x, (o, run.first) :: run.others⟩, runs)

def split (ops : List BinaryOp) (run : Run) : Run × List (BinaryOp × Run) :=
  splitAt ops run.first run.others

/-- One chain for each level that has an operator in the run. -/
def group : List (List BinaryOp) → Run → Grouping
  | [], run => run.first.grouping
  | ops :: tighter, run =>
      match run.split ops with
      | (only, []) => only.group tighter
      | (first, next :: others) =>
          .binary (first.group tighter)
            ((next :: others).map fun (o, run) => (o, run.group tighter))

example (x y z : Operand) : Run.group precedence ⟨x, [(.mul, y), (.add, z)]⟩ =
    .binary (.binary x.grouping [(.mul, y.grouping)]) [(.add, z.grouping)] := rfl

end Run

def Operand.tokens (x : Operand) : List (List Char) :=
  x.prefixes.map UnaryOp.spelling ++ [x.name]

def Run.tokens (run : Run) : List (List Char) :=
  run.first.tokens ++ run.others.flatMap fun (o, x) => o.spelling :: x.tokens

def Run.text (run : Run) : List Char :=
  [' '].intercalate run.tokens

/-- The text of an operand with a gap behind it. -/
def Operand.spaced (x : Operand) (gap : List Char) : List Char :=
  x.prefixes.flatMap (fun o => o.spelling ++ [' ']) ++ (x.name ++ gap)

namespace Run

/-- The text of a run with a gap behind it. -/
def spacedFrom (x : Operand) : List (BinaryOp × Operand) → List Char → List Char
  | [], gap => x.spaced gap
  | (o, y) :: others, gap =>
      x.spaced [' '] ++ (o.spelling ++ ' ' :: spacedFrom y others gap)

def spaced (run : Run) (gap : List Char) : List Char :=
  spacedFrom run.first run.others gap

theorem intercalate_append (sep : List Char) (ts : List (List Char)) {us : List (List Char)}
    (h : us ≠ []) :
    sep.intercalate (ts ++ us) = ts.flatMap (fun t => t ++ sep) ++ sep.intercalate us := by
  obtain ⟨u, us, rfl⟩ := List.exists_cons_of_ne_nil h
  induction ts with
  | nil => rfl
  | cons t ts ih =>
      have hne : ts ++ u :: us ≠ [] := by simp
      obtain ⟨v, vs, hvs⟩ := List.exists_cons_of_ne_nil hne
      rw [List.cons_append, hvs, List.intercalate_cons_cons, ← hvs, ih]
      simp

theorem intercalate_tokens (x : Operand) {ts : List (List Char)} (h : ts ≠ []) :
    [' '].intercalate (x.tokens ++ ts) = x.spaced [' '] ++ [' '].intercalate ts := by
  rw [intercalate_append _ _ h, Operand.tokens, Operand.spaced]
  simp [List.flatMap_map]

theorem text_eq_spaced (run : Run) : run.text = run.spaced [] := by
  obtain ⟨x, others⟩ := run
  simp only [text, tokens, spaced]
  induction others generalizing x with
  | nil =>
      rw [List.flatMap_nil, List.append_nil, Operand.tokens, intercalate_append _ _ (by simp)]
      simp [spacedFrom, Operand.spaced, List.flatMap_map]
  | cons p others ih =>
      obtain ⟨o, y⟩ := p
      have hne : y.tokens ++ others.flatMap (fun (o, x) => o.spelling :: x.tokens) ≠ [] := by
        simp [Operand.tokens]
      have hcut := intercalate_append [' '] [o.spelling] hne
      rw [List.singleton_append, ih y] at hcut
      rw [List.flatMap_cons, List.cons_append, intercalate_tokens x (by simp), hcut, spacedFrom]
      simp

/-- The gap behind what comes before some runs, if there is `gap` behind the last. -/
def gapBefore : List (BinaryOp × Run) → List Char → List Char
  | [], gap => gap
  | _ :: _, _ => [' ']

def segments : List (BinaryOp × Run) → List Char → List Char
  | [], _ => []
  | (o, run) :: runs, gap =>
      o.spelling ++ ' ' :: (run.spaced (gapBefore runs gap) ++ segments runs gap)

theorem spaced_split (ops : List BinaryOp) (run : Run) (gap : List Char) :
    run.spaced gap = (run.split ops).1.spaced (gapBefore (run.split ops).2 gap) ++
      segments (run.split ops).2 gap := by
  obtain ⟨x, others⟩ := run
  simp only [split]
  induction others generalizing x with
  | nil => simp [spaced, splitAt, gapBefore, segments]
  | cons p others ih =>
      obtain ⟨o, y⟩ := p
      have hy := ih y
      rw [splitAt]
      generalize splitAt ops y others = cut at hy ⊢
      obtain ⟨run, runs⟩ := cut
      simp only [spaced] at hy ⊢
      rw [spacedFrom, hy]
      split
      · rfl
      · simp [spacedFrom]

theorem mem_split {ops tighter : List BinaryOp} {run : Run}
    (h : ∀ p ∈ run.others, p.1 ∈ ops ++ tighter) :
    (∀ p ∈ (run.split ops).1.others, p.1 ∈ tighter) ∧
      ∀ p ∈ (run.split ops).2, p.1 ∈ ops ∧ ∀ q ∈ p.2.others, q.1 ∈ tighter := by
  obtain ⟨x, others⟩ := run
  simp only [split] at h ⊢
  induction others generalizing x with
  | nil => exact ⟨nofun, nofun⟩
  | cons p others ih =>
      obtain ⟨o, y⟩ := p
      rw [List.forall_mem_cons] at h
      obtain ⟨hrun, hruns⟩ := ih y h.2
      rw [splitAt]
      generalize splitAt ops y others = cut at hrun hruns ⊢
      obtain ⟨run, runs⟩ := cut
      dsimp only at hrun hruns ⊢
      split
      · next ho => exact ⟨nofun, List.forall_mem_cons.mpr ⟨⟨ho, hrun⟩, hruns⟩⟩
      · next ho =>
          refine ⟨List.forall_mem_cons.mpr ⟨?_, hrun⟩, hruns⟩
          exact (List.mem_append.mp h.1).resolve_left ho

end Run

end XiFront

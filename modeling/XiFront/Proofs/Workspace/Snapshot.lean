import XiFront.Proofs.Session.Order
import XiFront.Workspace

namespace XiFront

namespace Workspace

def after (w : Workspace) : List Step → Workspace
  | [] => w
  | s :: ss => (w.step s).2.after ss

def Step.file? : Step → Option Nat
  | .parse i => some i
  | .ask i _ => some i
  | _ => none

/-- The outcome of loading an open file now, if the step asks for it. -/
def load? (w : Workspace) (i : Nat) (s : Step) : Option (Except Error Tree) :=
  if s.file? = some i then w.files[i]?.map fun f => w.store.load f.name else none

/-- The outcome of loading an open file at the first of the steps that asks for it. -/
def snapshot? (w : Workspace) (i : Nat) : List Step → Option (Except Error Tree)
  | [] => none
  | s :: ss => (w.load? i s).or ((w.step s).2.snapshot? i ss)

/-- How many of the steps ask for the file while it is unread. -/
def loads (w : Workspace) (i : Nat) : List Step → Nat
  | [] => 0
  | s :: ss =>
      (if s.file? = some i ∧ (w.files[i]?.any fun f => !f.isRead) then 1 else 0) +
        (w.step s).2.loads i ss

/-- The answers that a tree or an error gives to the questions for a file: every operation is
answered as on a fresh tree. -/
def Step.Fits (snapshot : Except Error Tree) : Step → Answer → Prop
  | .parse _, a => ∃ outcome, a = .parsed outcome ∧ outcome.map Session.tree = snapshot
  | .ask _ o, a =>
      a = match snapshot with
        | .ok t => .answered ((Session.start t).step o).1
        | .error e => .failed e
  | _, _ => True

end Workspace

/-- The outcome is that of the snapshot, with sound knowledge of the tree. -/
def Keeps : Except Error Tree → Except Error Session → Prop
  | .ok t, .ok s => s.tree = t ∧ t.WellFormed ∧ s.known.Sound t
  | .error e, .error e' => e' = e
  | _, _ => False

theorem keeps_load (s : Store) (name : String) :
    Keeps (s.load name) ((s.load name).map Session.start) := by
  cases hload : s.load name with
  | error e => exact rfl
  | ok t =>
      unfold Store.load at hload
      split at hload
      · exact ⟨rfl, (Tree.wellFormed_of_parse hload).1, .empty t⟩
      · exact nomatch hload

namespace SourceFile

/-- The file has been read if there is a snapshot of it, and keeps the outcome of that. -/
def Holds (snapshot? : Option (Except Error Tree)) (f : SourceFile) : Prop :=
  match snapshot? with
  | none => f.outcome = none
  | some snapshot => ∃ outcome, f.outcome = some outcome ∧ Keeps snapshot outcome

theorem Holds.isRead {snapshot : Except Error Tree} {f : SourceFile}
    (h : f.Holds (some snapshot)) : f.isRead = true := by
  obtain ⟨outcome, houtcome, -⟩ := h
  rw [SourceFile.isRead, houtcome]
  rfl

theorem Holds.read {snapshot? : Option (Except Error Tree)} {f : SourceFile}
    (h : f.Holds snapshot?) (s : Store) :
    ∃ outcome, f.read s = (outcome, { f with outcome := some outcome }) ∧
      Keeps (snapshot?.getD (s.load f.name)) outcome := by
  obtain ⟨name, kept⟩ := f
  cases snapshot? with
  | none =>
      cases show kept = none from h
      exact ⟨_, rfl, keeps_load s name⟩
  | some snapshot =>
      obtain ⟨outcome, houtcome, hkeeps⟩ := h
      cases show kept = some outcome from houtcome
      exact ⟨outcome, rfl, hkeeps⟩

theorem read_eq {f : SourceFile} (h : f.isRead = true) (s s' : Store) : f.read s = f.read s' := by
  obtain ⟨outcome, houtcome⟩ := Option.isSome_iff_exists.mp h
  rw [SourceFile.read, SourceFile.read, houtcome]

end SourceFile

namespace Workspace

theorem step_access {w : Workspace} {i : Nat} {s : Step} {f : SourceFile}
    {snapshot? : Option (Except Error Tree)} (hs : s.file? = some i)
    (hf : w.files[i]? = some f) (hholds : f.Holds snapshot?) :
    s.Fits (snapshot?.getD (w.store.load f.name)) (w.step s).1 ∧
      ∃ f', (w.step s).2 = w.setFile i f' ∧
        f'.Holds (some (snapshot?.getD (w.store.load f.name))) := by
  obtain ⟨outcome, hread, hkeeps⟩ := hholds.read w.store
  generalize snapshot?.getD (w.store.load f.name) = snapshot at hkeeps ⊢
  cases s with
  | parse j =>
      cases hs
      simp only [step, hf, hread]
      refine ⟨⟨outcome, rfl, ?_⟩, _, rfl, outcome, rfl, hkeeps⟩
      match snapshot, outcome, hkeeps with
      | .ok t, .ok s, hkeeps => exact congrArg Except.ok hkeeps.1
      | .error e, .error e', hkeeps => exact congrArg Except.error hkeeps
  | ask j o =>
      cases hs
      match snapshot, outcome, hkeeps with
      | .error e, .error e', hkeeps =>
          cases show e' = e from hkeeps
          simp only [step, hf, hread]
          exact ⟨rfl, _, rfl, _, rfl, rfl⟩
      | .ok t, .ok ⟨tree, known⟩, hkeeps =>
          obtain ⟨rfl, ht, hknown⟩ := hkeeps
          -- The answer is that of a fresh session, since it does not depend on what is known.
          obtain ⟨answer, hanswer⟩ := Session.steady_step ht o
          obtain ⟨known', hstep, hgrows⟩ := hanswer known hknown
          obtain ⟨_, hfresh, -⟩ := hanswer .empty (.empty _)
          simp only [step, hf, hread, hstep]
          refine ⟨?_, _, rfl, _, rfl, rfl, ht, hgrows.sound⟩
          exact congrArg Answer.answered (congrArg Prod.fst hfresh).symm
  | _ => exact nomatch hs

@[simp] theorem withStore_files (w : Workspace) (change : Except Fault Store) :
    (w.withStore change).files = w.files := by
  cases change <;> rfl

theorem files_step {w : Workspace} {i : Nat} {s : Step} (hs : s.file? ≠ some i) :
    (w.step s).2.files[i]? = w.files[i]? ∨
      w.files[i]? = none ∧ ∃ name, (w.step s).2.files[i]? = some (.unread name) := by
  cases s with
  | write name content => exact .inl (by rw [step, withStore_files])
  | makeDirectory name => exact .inl (by rw [step, withStore_files])
  | remove name => exact .inl (by rw [step, withStore_files])
  | openFile name =>
      simp only [step]
      rcases Nat.lt_trichotomy i w.files.length with hlt | rfl | hgt
      · exact .inl (List.getElem?_append_left hlt)
      · exact .inr ⟨List.getElem?_eq_none (Nat.le_refl _), name, by simp⟩
      · refine .inl ?_
        rw [List.getElem?_eq_none (Nat.le_of_lt hgt), List.getElem?_eq_none]
        rw [List.length_append]
        exact hgt
  | parse j =>
      have hne : j ≠ i := fun h => hs (congrArg some h)
      left
      simp only [step]
      split
      · rfl
      · exact List.getElem?_set_ne hne
  | ask j o =>
      have hne : j ≠ i := fun h => hs (congrArg some h)
      left
      simp only [step]
      split
      · rfl
      · split
        · exact List.getElem?_set_ne hne
        · exact List.getElem?_set_ne hne

/-- An open file keeps the outcome of its snapshot; a file that is not open has none. -/
def Holds (w : Workspace) (i : Nat) (snapshot? : Option (Except Error Tree)) : Prop :=
  match w.files[i]? with
  | none => snapshot? = none
  | some f => f.Holds snapshot?

theorem Holds.of_some {w : Workspace} {i : Nat} {f : SourceFile} (hf : w.files[i]? = some f)
    {snapshot? : Option (Except Error Tree)} : w.Holds i snapshot? ↔ f.Holds snapshot? := by
  rw [Holds, hf]

theorem Holds.of_none {w : Workspace} {i : Nat} (hf : w.files[i]? = none)
    {snapshot? : Option (Except Error Tree)} : w.Holds i snapshot? ↔ snapshot? = none := by
  rw [Holds, hf]

theorem holds_step {w : Workspace} {i : Nat} {snapshot? : Option (Except Error Tree)}
    (h : w.Holds i snapshot?) (s : Step) :
    (w.step s).2.Holds i (snapshot?.or (w.load? i s)) := by
  by_cases hs : s.file? = some i
  · cases hf : w.files[i]? with
    | none =>
        rw [Holds.of_none hf] at h
        have hstep : (w.step s).2 = w := by
          cases s with
          | parse j =>
              cases hs
              simp only [step, hf]
          | ask j o =>
              cases hs
              simp only [step, hf]
          | _ => exact nomatch hs
        rw [hstep, Holds.of_none hf, h, load?, if_pos hs, hf]
        rfl
    | some f =>
        obtain ⟨-, f', hstep, hholds⟩ := step_access hs hf ((Holds.of_some hf).mp h)
        have hset : (w.step s).2.files[i]? = some f' := by
          rw [hstep]
          exact List.getElem?_set_self (List.getElem?_eq_some_iff.mp hf).1
        rw [Holds.of_some hset, load?, if_pos hs, hf]
        cases snapshot? <;> exact hholds
  · have hload : w.load? i s = none := if_neg hs
    rw [hload, Option.or_none]
    rcases files_step hs with hsame | ⟨hnone, name, hopened⟩
    · rwa [Holds, hsame]
    · rw [(Holds.of_none hnone).mp h]
      exact (Holds.of_some hopened).mpr rfl

theorem holds_after {w : Workspace} {i : Nat} {snapshot? : Option (Except Error Tree)}
    (h : w.Holds i snapshot?) (steps : List Step) :
    (w.after steps).Holds i (snapshot?.or (w.snapshot? i steps)) := by
  induction steps generalizing w snapshot? with
  | nil =>
      rw [Workspace.snapshot?, Option.or_none]
      exact h
  | cons s ss ih =>
      rw [Workspace.snapshot?, ← Option.or_assoc]
      exact ih (holds_step h s)

theorem snapshot?_append (w : Workspace) (i : Nat) (steps others : List Step) :
    w.snapshot? i (steps ++ others) =
      (w.snapshot? i steps).or ((w.after steps).snapshot? i others) := by
  induction steps generalizing w with
  | nil => rfl
  | cons s ss ih =>
      rw [List.cons_append, Workspace.snapshot?, Workspace.snapshot?, ih, Option.or_assoc]
      rfl

/-- A file with a snapshot is not loaded again, and one without is loaded once at most. -/
theorem loads_le {w : Workspace} {i : Nat} {snapshot? : Option (Except Error Tree)}
    (h : w.Holds i snapshot?) (steps : List Step) :
    w.loads i steps ≤ if snapshot?.isSome then 0 else 1 := by
  induction steps generalizing w snapshot? with
  | nil => exact Nat.zero_le _
  | cons s ss ih =>
      have hrest := ih (holds_step h s)
      rw [loads]
      split
      · next hloads =>
          obtain ⟨hs, hunread⟩ := hloads
          obtain ⟨f, hf, hfresh⟩ := (Option.any_eq_true _ _).mp hunread
          have hload : w.load? i s = some (w.store.load f.name) := by
            rw [load?, if_pos hs, hf]
            rfl
          cases snapshot? with
          | none =>
              rw [hload] at hrest
              exact Nat.add_le_add_left hrest 1
          | some snapshot =>
              have hread := ((Holds.of_some hf).mp h).isRead
              rw [hread] at hfresh
              exact nomatch hfresh
      · cases snapshot? with
        | none =>
            refine Nat.le_trans (Nat.le_of_eq (Nat.zero_add _)) (Nat.le_trans hrest ?_)
            split
            · exact Nat.zero_le _
            · exact Nat.le_refl _
        | some snapshot => simpa using hrest

theorem step_of_isRead {w : Workspace} {i : Nat} {s : Step} {f : SourceFile}
    (hs : s.file? = some i) (hf : w.files[i]? = some f) (hread : f.isRead = true)
    (store : Store) :
    ({ w with store }.step s).1 = (w.step s).1 ∧
      ({ w with store }.step s).2.files = (w.step s).2.files := by
  have hsame := SourceFile.read_eq hread store w.store
  cases s with
  | parse j =>
      cases hs
      simp only [step, hf, hsame]
      exact ⟨trivial, rfl⟩
  | ask j o =>
      cases hs
      simp only [step, hf, hsame]
      split
      · exact ⟨rfl, rfl⟩
      · exact ⟨rfl, rfl⟩
  | _ => exact nomatch hs

/-- However steps on the store and on the files of a workspace are interleaved, each question for
an open file is answered from the file as it was at the first question for it; later ones do not
look at the store, and the file is loaded once. -/
theorem answers_from_snapshot (store : Store) (steps : List Step) {s : Step} {i : Nat}
    (hs : s.file? = some i) (hopen : i < (after ⟨store, []⟩ steps).files.length) :
    let w := after ⟨store, []⟩ steps
    (∃ snapshot, snapshot? ⟨store, []⟩ i (steps ++ [s]) = some snapshot ∧
        s.Fits snapshot (w.step s).1) ∧
      ((snapshot? ⟨store, []⟩ i steps).isSome → ∀ other,
        ({ w with store := other }.step s).1 = (w.step s).1 ∧
          ({ w with store := other }.step s).2.files = (w.step s).2.files) ∧
      loads ⟨store, []⟩ i (steps ++ [s]) ≤ 1 := by
  intro w
  have hstart : Holds ⟨store, []⟩ i none := rfl
  have hholds : w.Holds i (snapshot? ⟨store, []⟩ i steps) := holds_after hstart steps
  obtain ⟨f, hf⟩ : ∃ f, w.files[i]? = some f := ⟨_, List.getElem?_eq_getElem hopen⟩
  rw [Holds.of_some hf] at hholds
  refine ⟨⟨_, ?_, (step_access hs hf hholds).1⟩, fun hsome other => ?_, loads_le hstart _⟩
  · rw [snapshot?_append, Workspace.snapshot?, Workspace.snapshot?, Option.or_none]
    change (snapshot? ⟨store, []⟩ i steps).or (w.load? i s) = _
    rw [load?, if_pos hs, hf]
    cases snapshot? ⟨store, []⟩ i steps <;> rfl
  · obtain ⟨snapshot, hsnapshot⟩ := Option.isSome_iff_exists.mp hsome
    rw [hsnapshot] at hholds
    exact step_of_isRead hs hf hholds.isRead other

/-- A file that is overwritten after it has been parsed, and opened a second time. -/
theorem answers_from_snapshot_overwritten :
    let steps : List Step := [.openFile "a", .write "a" "use b;".toUTF8, .parse 0,
      .write "a" ";".toUTF8, .openFile "a", .ask 1 .file]
    0 < (after .empty steps).files.length ∧
      ∃ t, snapshot? .empty 0 (steps ++ [.ask 0 .all]) = some (.ok t) ∧
        ((after .empty steps).step (.ask 0 .all)).1 =
          .answered ((Session.start t).step .all).1 := by
  intro steps
  have hopen : 0 < (after .empty steps).files.length := by decide +kernel
  have hgood : (snapshot? .empty 0 (steps ++ [.ask 0 .all])).map Except.toBool = some true := by
    decide +kernel
  obtain ⟨⟨snapshot, hsnapshot, hfits⟩, -⟩ :=
    answers_from_snapshot .empty steps (s := .ask 0 .all) rfl hopen
  have hsnapshot : snapshot? .empty 0 (steps ++ [.ask 0 .all]) = some snapshot := hsnapshot
  rw [hsnapshot] at hgood
  cases snapshot with
  | error e => exact nomatch hgood
  | ok t => exact ⟨hopen, t, hsnapshot, hfits⟩

end Workspace

end XiFront

import XiFront.Path.Reread
import XiFront.Proofs.Grammar.Items
import XiFront.Proofs.Lowering.Meaning
import XiFront.Proofs.Path.Spelling

namespace XiFront

open Peg

variable {source : Source}

def IsUseOf (source : Source) (p : Path) (n : Node) : Prop :=
  ∃ c, n.children = [c] ∧ c.rule = .path ∧ IsPathOf source p c

theorem scans_useStmt {p : Path} (hp : p.IsSource) :
    Scans source (.rule .useStmt) p.useSource [] (Becomes source .useStmt (IsUseOf source p)) := by
  have hsemicolon : BeginsWith [';'] [';'] := .cons (by decide) []
  have hname : Fails (.seq (.rule (.kw .as_)) (.rule .ident)) [';'] :=
    .seq (.kw_of_head (hsemicolon.forall_head (by decide))) _
  have hend : Scans source
      (.seq (.opt (.seq (.rule (.kw .as_)) (.rule .ident))) (Rule.symbol ';')) [';'] []
      fun qs => qs = [] :=
    (Scans.opt_none hname).seq_right (t := [';']) (.cons rfl) (.text [';'] [])
  have hpath := (hp.scans source _ (hsemicolon.mono (by decide))).seq_left (t := [';'])
    (.cons rfl) hend
  have hsolid : IsSolid (p.render.toList ++ [';'] ++ []) := by
    rw [List.append_assoc]
    exact (hp.begin _).forall_head (by decide)
  have hbody := (Scans.kw_discarded (k := .use) rfl (by simp; decide)).seq_gap_right
    (skips_blank hsolid) hpath
  have htext : p.useSource = Keyword.use.spelling ++ ([' '] ++ (p.render.toList ++ [';'])) := by
    rw [Path.useSource, List.append_assoc]
    rfl
  rw [htext]
  refine .store rfl rfl hbody ?_
  rintro n - _ ⟨q, rfl, hrule, hq⟩ next hchildren
  exact ⟨_, hchildren, (Node.rule_ofPair ..).trans hrule, hq next⟩

/-- A source path is read, as the path of the only use in its source. -/
theorem Path.IsSource.exists_isOf {p : Path} (hp : p.IsSource) :
    ∃ (t : Tree) (u c : Node), t.IsOf p.useSource ∧ t.size = p.nodeCount + 2 ∧
      t.root.children = [u] ∧ u.rule = .useStmt ∧ u.children = [c] ∧ c.rule = .path ∧
      t.path c = .ok p := by
  have hitem : Scans p.useSource (.rule .item) p.useSource []
      (Becomes p.useSource .useStmt (IsUseOf p.useSource p)) :=
    .silent rfl ((scans_useStmt hp).alt_left _)
  have hfirm : IsFirm p.useSource := .cons rfl (by decide)
  obtain ⟨t, u, hof, hroot, hu, c, hchildren, hc, hpath, hsize⟩ := Tree.exists_isOf_item hfirm hitem
  rw [← hof.source_eq] at hpath
  refine ⟨t, u, c, hof, ?_, hroot, hu, hchildren, hc, hpath⟩
  rw [Tree.size, Node.size_of_child hroot, Node.size_of_child hchildren, hsize]

def Tree.usedPath (t : Tree) (u : Node) : Except Error Path := do
  let c ← u.childOf 0 .path
  t.path c

def Tree.firstUse? (t : Tree) : Except Error (Option Path) :=
  match t.root.first? .useStmt with
  | none => pure none
  | some u => some <$> t.usedPath u

namespace Tree.WellFormed

variable {t : Tree} (ht : t.WellFormed)
include ht

end Tree.WellFormed

end XiFront

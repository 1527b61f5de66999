import XiFront.Proofs.Grammar.Items
import XiFront.Proofs.Lowering.Parts
import XiFront.Proofs.Path.Spelling

namespace XiFront

open Peg

def constantSource (s : Scalar) (value : List Char) : Source :=
  "const X: ".toList ++ s.keyword.spelling ++ " = ".toList ++ value ++ [';']

section

variable {source : Source} {value : List Char} {V : Node → Prop}

theorem constantSource_eq (s : Scalar) (value : List Char) :
    constantSource s value = Keyword.const.spelling ++ ([' '] ++ (['X'] ++ ([':'] ++ ([' '] ++
      (s.keyword.spelling ++ [' '] ++ (['='] ++ ([' '] ++ (value ++ [';'])))))))) := by
  have hhead : "const X: ".toList =
      Keyword.const.spelling ++ ([' '] ++ (['X'] ++ ([':'] ++ [' ']))) := by
    decide
  have hequals : " = ".toList = [' '] ++ (['='] ++ [' ']) := by decide
  unfold constantSource
  generalize "const X: ".toList = head at hhead ⊢
  generalize " = ".toList = equals at hequals ⊢
  subst hhead hequals
  simp only [List.append_assoc]

theorem firm_constantSource (s : Scalar) (value : List Char) : IsFirm (constantSource s value) := by
  rw [constantSource_eq]
  exact .cons rfl (by decide)

theorem scans_scalarType (s : Scalar) (rest : List Char) :
    Scans source (.rule .ty) (s.keyword.spelling ++ [' ']) ('=' :: rest)
      (Becomes source .ty (·.size = 2)) := by
  have hsuffix : Fails (.rule .arraySuffix) ('=' :: rest) := .rule rfl (.seq (.text (by simp)) _)
  have hword : ∀ c ∈ ([' '] ++ '=' :: rest).head?, isWordChar c = false := by simp; decide
  have hbase : Scans source (.rule .nonArrayType) s.keyword.spelling ([' '] ++ '=' :: rest) _ :=
    .fold rfl rfl ((scans_basicType s hword).alt_left _)
  have hbody := hbase.seq_filler (IsGap.blank rfl (.stop (.cons rfl (by decide)))).skips
    (.opt_none hsuffix)
  refine .store rfl rfl hbody ?_
  rintro n - _ ⟨q, rfl, -, hq⟩ next hchildren
  rw [Node.size_of_child hchildren, (hq next).size]

def IsTypedValue (source : Source) (V : Node → Prop) (qs : List (Pair Rule)) : Prop :=
  ∃ q q', qs = [q, q'] ∧ q.rule = .ty ∧ (∀ next, (Node.ofPair source next q).size = 2) ∧
    ∀ next, V (.ofPair source next q')

/-- A declaration of `X` with a value that has the property. -/
def IsConstantOf (source : Source) (V : Node → Prop) (n : Node) : Prop :=
  ∃ c type value, n.children = [c, type, value] ∧ c.rule = .ident ∧ c.IsLeaf source "X" ∧
    type.rule = .ty ∧ type.size = 2 ∧ V value

variable (s : Scalar) (hfirm : IsFirm (value ++ [';']))
  (hvalue : Scans source (.rule .expr) value [';'] fun qs =>
    ∃ q, qs = [q] ∧ ∀ next, V (.ofPair source next q))
include hfirm hvalue

theorem scans_typedValue :
    Scans source (.inOrder (.rule .ty) [Rule.symbol '=', .rule .expr, Rule.symbol ';'])
      (s.keyword.spelling ++ [' '] ++ (['='] ++ ([' '] ++ (value ++ [';'])))) []
      (IsTypedValue source V) := by
  have hend : Scans source (.seq (.rule .expr) (Rule.symbol ';')) (value ++ [';']) [] _ :=
    hvalue.seq_left (t := [';']) (.cons rfl) (.text [';'] [])
  have hfirm' : IsFirm (value ++ [';'] ++ []) := by rwa [List.append_nil]
  have hequals := (Scans.text ['='] _).seq_gap_right (g := [' '])
    (IsGap.blank rfl (.stop hfirm')).skips hend
  refine (scans_scalarType s _).seq (.cons rfl) hequals ?_
  rintro _ _ ⟨q, rfl, hq, hsize⟩ ⟨q', rfl, hV⟩
  exact ⟨q, q', rfl, hq, hsize, hV⟩

theorem scans_global :
    Scans source (.rule .global) (constantSource s value) []
      (Becomes source .global (IsConstantOf source V)) := by
  have htype : IsSolid (s.keyword.spelling ++ [' '] ++ (['='] ++ ([' '] ++ (value ++ [';']))) ++ []) := by
    cases s <;> exact .cons rfl
  have htyped : Scans source _ _ [] _ :=
    (Scans.text [':'] _).seq_gap_right (skips_blank htype) (scans_typedValue s hfirm hvalue)
  have hname := (Scans.ident (.single (show isWordStart 'X' = true by decide))
      (by simp; decide)).seq (.cons rfl) htyped
    (R := fun qs => ∃ p ps, qs = p :: ps ∧ p.rule = .ident ∧
      (∀ next, (Node.ofPair source next p).IsLeaf source "X") ∧ IsTypedValue source V ps) ?_
  · have hbody := (Scans.kw_discarded (k := .const) rfl (by simp; decide)).seq_gap_right
      (skips_blank (.cons rfl)) hname
    rw [constantSource_eq]
    refine .store rfl rfl hbody ?_
    rintro n - _ ⟨p, _, rfl, hp, hname, q, q', rfl, hq, hsize, hV⟩ next hchildren
    exact ⟨_, _, _, hchildren, (Node.rule_ofPair ..).trans hp, hname _,
      (Node.rule_ofPair ..).trans hq, hsize _, hV _⟩
  · rintro _ ps ⟨p, rfl, hp, hname⟩ hps
    exact ⟨p, ps, rfl, hp, hname, hps⟩

theorem scans_constant :
    Scans source (.rule .item) (constantSource s value) []
      (Becomes source .global (IsConstantOf source V)) := by
  have hlead : Lead.ofText? (constantSource s value) = some (.word .const) := by
    rw [constantSource_eq]
    exact Lead.ofText?_spelling .const (by simp; decide)
  have hfails {e : Expr Rule} (havoids : e.avoids 3 (.word .const) = true) :
      Fails e (constantSource s value ++ []) := by
    rw [List.append_nil]
    exact .of_avoids 3 havoids (firm_constantSource s value) hlead
  refine .silent rfl ?_
  iterate 5 refine .alt_right (hfails (by decide +kernel)) ?_
  exact scans_global s hfirm hvalue

end

theorem Lowering.globalDecl_eq {n c type value : Node} (hchildren : n.children = [c, type, value])
    (hc : c.rule = .ident) (htype : type.rule = .ty) (source : Source) :
    globalDecl n source = .ok ⟨c.name source, type.handle, value.handle⟩ := by
  have hident := Node.identAt_eq source (show n.children[0]? = some c by rw [hchildren]; rfl) hc
  have hty := Node.childOf_eq_ok_iff.mpr
    ⟨show n.children[1]? = some type by rw [hchildren]; rfl, htype⟩
  have hvalue := Node.child_eq (show n.children[2]? = some value by rw [hchildren]; rfl)
  rw [globalDecl, typedName, hident, hty]
  simp only [hvalue]
  rfl

theorem Tree.exists_isOf_constant (s : Scalar) {value : List Char} {V : Node → Prop}
    (hfirm : IsFirm (value ++ [';']))
    (hvalue : Scans (constantSource s value) (.rule .expr) value [';'] fun qs =>
      ∃ q, qs = [q] ∧ ∀ next, V (.ofPair (constantSource s value) next q)) :
    ∃ (t : Tree) (n v : Node) (type : Handle .type), t.IsOf (constantSource s value) ∧
      t.size = v.size + 5 ∧ t.root.children = [n] ∧
      t.meaning n = .ok (.global ⟨"X", type, v.handle⟩) ∧ v ∈ t.nodes ∧ V v := by
  obtain ⟨t, n, hof, hroot, hn, c, type, v, hchildren, hc, hleaf, htype, hsize, hV⟩ :=
    Tree.exists_isOf_item (firm_constantSource s value) (scans_constant s hfirm hvalue)
  have hmem : n ∈ t.nodes :=
    Tree.child_mem_nodes (Tree.mem_nodes.mpr t.root.self_mem_preorder) (by simp [hroot])
  refine ⟨t, n, v, type.handle, hof, ?_, hroot, ?_,
    Tree.child_mem_nodes hmem (by simp [hchildren]), hV⟩
  · rw [Tree.size, Node.size_of_child hroot, Node.size_eq n, hchildren]
    simp only [Node.sizeAll_cons, Node.sizeAll_nil, hleaf.size, hsize]
    omega
  · rw [Tree.meaning, Lowering.lower, hn, hof.source_eq]
    simp only [Lowering.globalDecl_eq hchildren hc htype, hleaf.name]
    rfl

end XiFront

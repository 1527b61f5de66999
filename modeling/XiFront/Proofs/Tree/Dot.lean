import Mathlib.Data.List.Nodup
import XiFront.Proofs.Tree.Arena
import XiFront.Tree.Dot

namespace XiFront

namespace Dot

inductive Statement where
  | node (id : Nat) (label : List Char)
  | edge (parent child : Nat)
  deriving DecidableEq

namespace Statement

def isNode : Statement → Bool
  | node _ _ => true
  | edge _ _ => false

def last : Statement → Nat
  | node id _ => id
  | edge _ child => child

/-- Reads a string up to its closing quote.  A character after a backslash closes nothing. -/
def quoted : List Char → Option (List Char × List Char)
  | '"' :: rest => some ([], rest)
  | '\\' :: c :: rest => (quoted rest).map fun r => ('\\' :: c :: r.1, r.2)
  | c :: rest => (quoted rest).map fun r => (c :: r.1, r.2)
  | [] => none

def number (text : List Char) : Nat × List Char :=
  (Nat.ofDigitChars 10 (text.takeWhile Char.isDigit) 0, text.dropWhile Char.isDigit)

def ofLine? : List Char → Option Statement
  | ' ' :: ' ' :: ' ' :: ' ' :: 'n' :: text =>
      match number text with
      | (id, ' ' :: '[' :: 'l' :: 'a' :: 'b' :: 'e' :: 'l' :: '=' :: '"' :: text) =>
          match quoted text with
          | some (label, [']', ';']) => some (node id label)
          | _ => none
      | (parent, ' ' :: '-' :: '>' :: ' ' :: 'n' :: text) =>
          match number text with
          | (child, [';']) => some (edge parent child)
          | _ => none
      | _ => none
  | _ => none

end Statement

def statements (t : Tree) (n : Node) : List Statement :=
  .node n.id (label t n) :: n.children.map fun c => .edge n.id c.id

theorem toList_toString (n : Nat) : (toString n).toList = Nat.toDigits 10 n :=
  Nat.toList_repr

theorem isDigit_of_mem_toString {n : Nat} : ∀ c ∈ (toString n).toList, c.isDigit = true := by
  intro c hc
  rw [toList_toString] at hc
  exact Nat.isDigit_of_mem_toDigits (by decide) (by decide) hc

theorem ofDigitChars_toString (n : Nat) : Nat.ofDigitChars 10 (toString n).toList 0 = n := by
  rw [toList_toString]
  exact Nat.ofDigitChars_toDigits (by decide) (by decide)

theorem toString_injective {m n : Nat} (h : (toString m).toList = (toString n).toList) : m = n := by
  rw [← ofDigitChars_toString m, h, ofDigitChars_toString]

theorem number_toString (n : Nat) (rest : List Char) (h : ∀ c ∈ rest.head?, c.isDigit = false) :
    Statement.number ((toString n).toList ++ rest) = (n, rest) := by
  have hdigits := isDigit_of_mem_toString (n := n)
  have hstop : rest.takeWhile Char.isDigit = [] ∧ rest.dropWhile Char.isDigit = rest := by
    cases rest with
    | nil => exact ⟨rfl, rfl⟩
    | cons c cs => simp [h c rfl]
  rw [Statement.number, List.takeWhile_append_of_pos hdigits, List.dropWhile_append_of_pos hdigits,
    hstop.1, hstop.2, List.append_nil, ofDigitChars_toString]

/-- A text that can stand between quotes: its quotes have a backslash before them, and each
backslash has a character after it. -/
inductive Quotable : List Char → Prop
  | nil : Quotable []
  | plain {c : Char} {s : List Char} (hquote : c ≠ '"') (hslash : c ≠ '\\') (h : Quotable s) :
      Quotable (c :: s)
  | escaped (c : Char) {s : List Char} (h : Quotable s) : Quotable ('\\' :: c :: s)

namespace Quotable

variable {s t : List Char}

theorem append (hs : Quotable s) (ht : Quotable t) : Quotable (s ++ t) := by
  induction hs with
  | nil => exact ht
  | plain hquote hslash _ ih => exact .plain hquote hslash ih
  | escaped c _ ih => exact .escaped c ih

theorem of_forall (h : ∀ c ∈ s, c ≠ '"' ∧ c ≠ '\\') : Quotable s := by
  induction s with
  | nil => exact .nil
  | cons c s ih =>
      rw [List.forall_mem_cons] at h
      exact .plain h.1.1 h.1.2 (ih h.2)

theorem quoted_eq (h : Quotable s) (rest : List Char) :
    Statement.quoted (s ++ '"' :: rest) = some (s, rest) := by
  induction h with
  | nil => rfl
  | plain hquote hslash _ ih =>
      rw [List.cons_append, Statement.quoted, ih]
      · rfl
      · exact hquote
      · exact fun d ds hd => absurd hd hslash
  | escaped c _ ih =>
      rw [List.cons_append, List.cons_append, Statement.quoted, ih]
      rfl

end Quotable

theorem quotable_escapeChar (c : Char) : Quotable (escapeChar c) := by
  unfold escapeChar
  split
  · exact .escaped '"' .nil
  · exact .escaped '\\' .nil
  · exact .escaped 'n' .nil
  · exact .plain (by decide) (by decide) .nil
  · exact .plain (by decide) (by decide) .nil
  · next hquote hslash _ _ _ => exact .plain hquote hslash .nil

theorem quotable_escape (text : List Char) : Quotable (escape text) := by
  induction text with
  | nil => exact .nil
  | cons c cs ih => exact (quotable_escapeChar c).append ih

/-- The characters that do not stand in a label as they are. -/
def breaksLine (c : Char) : Bool :=
  decide (c ∈ ['\n', '\r'])

theorem breaksLine_escapeChar (c : Char) : ∀ d ∈ escapeChar c, breaksLine d = false := by
  unfold escapeChar
  split
  · decide
  · decide
  · decide
  · decide
  · decide
  · next hline hreturn _ =>
      rw [List.forall_mem_singleton]
      exact decide_eq_false (by simpa using ⟨hline, hreturn⟩)

theorem name_chars : ∀ r ∈ Rule.all, ∀ c ∈ r.name.toList,
    c ∉ [' ', '"', '\\', '\n', '\r'] := by
  decide +kernel

theorem name_injective {r r' : Rule} (h : r.name.toList = r'.name.toList) : r = r' := by
  have hnodup : (Rule.all.map Rule.name).Nodup := by decide +kernel
  exact List.inj_on_of_nodup_map hnodup r.mem_all r'.mem_all (String.toList_injective h)

theorem ne_of_isDigit {c d : Char} (hc : c.isDigit = true) (hd : d.isDigit = false) : c ≠ d := by
  rintro rfl
  exact nomatch hc.symm.trans hd

theorem toList_render (p : Position) : p.render.toList =
    (toString p.line).toList ++ ':' :: (toString p.column).toList := by
  simp [Position.render]

def leafText (t : Tree) (n : Node) : List Char :=
  if n.children.isEmpty then '\\' :: 'n' :: escape (truncate (t.text n)) else []

theorem label_eq (t : Tree) (n : Node) :
    label t n = n.rule.name.toList ++
      ' ' :: ((toString n.position.line).toList ++ ':' :: ((toString n.position.column).toList ++
        leafText t n)) := by
  rw [label, toList_render]
  simp [leafText]

theorem quotable_label (t : Tree) (n : Node) : Quotable (label t n) := by
  have hname : Quotable n.rule.name.toList := .of_forall fun c hc => by
    have hc := name_chars n.rule n.rule.mem_all c hc
    simp only [List.mem_cons, not_or] at hc
    exact ⟨hc.2.1, hc.2.2.1⟩
  have hdigits (k : Nat) : Quotable (toString k).toList := .of_forall fun c hc =>
    ⟨ne_of_isDigit (isDigit_of_mem_toString c hc) rfl,
      ne_of_isDigit (isDigit_of_mem_toString c hc) rfl⟩
  have hleaf : Quotable (leafText t n) := by
    unfold leafText
    split
    · exact .escaped 'n' (quotable_escape _)
    · exact .nil
  rw [label_eq]
  exact hname.append (.plain (by decide) (by decide) ((hdigits _).append
    (.plain (by decide) (by decide) ((hdigits _).append hleaf))))

theorem label_line (t : Tree) (n : Node) : ∀ c ∈ label t n, breaksLine c = false := by
  have hname : ∀ c ∈ n.rule.name.toList, breaksLine c = false := by
    intro c hc
    have hc := name_chars n.rule n.rule.mem_all c hc
    simp only [List.mem_cons, List.not_mem_nil, or_false, not_or] at hc
    exact decide_eq_false (by simpa using hc.2.2.2)
  have hdigits (k : Nat) : ∀ c ∈ (toString k).toList, breaksLine c = false := by
    intro c hc
    have hdigit := isDigit_of_mem_toString c hc
    exact decide_eq_false (by simpa using ⟨ne_of_isDigit hdigit rfl, ne_of_isDigit hdigit rfl⟩)
  have hleaf : ∀ c ∈ leafText t n, breaksLine c = false := by
    unfold leafText
    split
    · refine List.forall_mem_cons.mpr ⟨rfl, List.forall_mem_cons.mpr ⟨rfl, fun c hc => ?_⟩⟩
      obtain ⟨d, -, hd⟩ := List.mem_flatMap.mp hc
      exact breaksLine_escapeChar d c hd
    · exact nofun
  rw [label_eq]
  simp only [List.forall_mem_append, List.forall_mem_cons]
  exact ⟨hname, rfl, hdigits _, rfl, hdigits _, hleaf⟩

theorem of_label_eq {t t' : Tree} {n n' : Node} (h : label t n = label t' n') :
    n.rule = n'.rule ∧ n.position = n'.position := by
  have hname (r : Rule) : ∀ c ∈ r.name.toList, decide (c ≠ ' ') = true := by
    intro c hc
    have hc := name_chars r r.mem_all c hc
    simp only [List.mem_cons, not_or] at hc
    exact decide_eq_true hc.1
  have hleaf (t : Tree) (n : Node) : ∀ c ∈ (leafText t n).head?, c.isDigit = false := by
    unfold leafText
    split
    · intro c hc
      cases Option.some.inj hc
      rfl
    · exact nofun
  rw [label_eq, label_eq] at h
  obtain ⟨hrule, h⟩ := append_inj_of_run (hname n.rule) (hname n'.rule) (by simp) (by simp) h
  obtain ⟨hline, h⟩ := append_inj_of_run (p := Char.isDigit) isDigit_of_mem_toString
    isDigit_of_mem_toString (by simp) (by simp) (List.cons.inj h).2
  obtain ⟨hcolumn, -⟩ := append_inj_of_run (p := Char.isDigit) isDigit_of_mem_toString
    isDigit_of_mem_toString (hleaf t n) (hleaf t' n') (List.cons.inj h).2
  have hposition {p q : Position} (hl : p.line = q.line) (hc : p.column = q.column) : p = q := by
    cases p
    cases q
    simp_all
  exact ⟨name_injective hrule, hposition (toString_injective hline) (toString_injective hcolumn)⟩

def nodeText (t : Tree) (n : Node) : List Char :=
  [' ', ' ', ' ', ' ', 'n'] ++ ((toString n.id).toList ++
    ([' ', '[', 'l', 'a', 'b', 'e', 'l', '=', '"'] ++ (label t n ++ ['"', ']', ';'])))

def edgeText (parent child : Node) : List Char :=
  [' ', ' ', ' ', ' ', 'n'] ++ ((toString parent.id).toList ++
    ([' ', '-', '>', ' ', 'n'] ++ ((toString child.id).toList ++ [';'])))

def texts (t : Tree) (n : Node) : List (List Char) :=
  nodeText t n :: n.children.map (edgeText n)

theorem ofLine?_nodeText (t : Tree) (n : Node) :
    Statement.ofLine? (nodeText t n) = some (.node n.id (label t n)) := by
  have hnumber := number_toString n.id
    ([' ', '[', 'l', 'a', 'b', 'e', 'l', '=', '"'] ++ (label t n ++ ['"', ']', ';'])) (by simp)
  have hquoted := (quotable_label t n).quoted_eq [']', ';']
  simp only [nodeText, List.cons_append, List.nil_append] at hnumber ⊢
  rw [Statement.ofLine?, hnumber]
  simp only [hquoted]

theorem ofLine?_edgeText (parent child : Node) :
    Statement.ofLine? (edgeText parent child) = some (.edge parent.id child.id) := by
  have hparent := number_toString parent.id
    ([' ', '-', '>', ' ', 'n'] ++ ((toString child.id).toList ++ [';'])) (by simp)
  have hchild := number_toString child.id [';'] (by simp)
  simp only [edgeText, List.cons_append, List.nil_append] at hparent ⊢
  rw [Statement.ofLine?, hparent]
  simp only [hchild]

theorem ofLine?_texts (t : Tree) (n : Node) :
    (texts t n).map Statement.ofLine? = (statements t n).map some := by
  simp [texts, statements, ofLine?_nodeText, Function.comp_def, ofLine?_edgeText]

theorem not_mem_texts (t : Tree) (n : Node) : ∀ l ∈ texts t n, '\n' ∉ l := by
  have hdigits (k : Nat) : '\n' ∉ Nat.toDigits 10 k := by
    intro hmem
    exact absurd (Nat.isDigit_of_mem_toDigits (by decide) (by decide) hmem) (by decide)
  have hlabel : '\n' ∉ label t n := by
    intro hmem
    exact absurd (label_line t n _ hmem) (by decide)
  refine List.forall_mem_cons.mpr ⟨?_, List.forall_mem_map.mpr fun c _ => ?_⟩
  · simp [nodeText, hdigits, hlabel]
  · simp [edgeText, hdigits]

theorem lines_eq (t : Tree) (n : Node) : lines t n = (texts t n).map (· ++ ['\n']) := by
  simp [lines, texts, nodeLine, nodeText, edgeLine, edgeText, nodeName, Function.comp_def]

theorem intercalate_concat_nil (x : α) (ls : List (List α)) :
    [x].intercalate (ls ++ [[]]) = (ls.map (· ++ [x])).flatten := by
  induction ls with
  | nil => rfl
  | cons l ls ih =>
      rw [List.cons_append, List.intercalate_cons_of_ne_nil (by simp), ih]
      simp

theorem splitOn_render (t : Tree) :
    (render t).splitOn '\n' = ["digraph parse_tree \x7b".toList,
      "    node [shape=box, fontname=\"monospace\"];".toList] ++ t.nodes.flatMap (texts t) ++
        [['\x7d'], []] := by
  have hrender : render t = ['\n'].intercalate (["digraph parse_tree \x7b".toList,
      "    node [shape=box, fontname=\"monospace\"];".toList] ++ t.nodes.flatMap (texts t) ++
        [['\x7d'], []]) := by
    rw [List.append_cons _ ['\x7d'] [[]], intercalate_concat_nil]
    simp [render, header, footer, List.map_flatMap, funext (lines_eq t)]
  rw [hrender]
  apply List.splitOn_intercalate
  · simp only [List.forall_mem_append, List.forall_mem_cons, List.mem_flatMap]
    refine ⟨⟨⟨by simp, by simp, nofun⟩, ?_⟩, by simp, by simp, nofun⟩
    rintro l ⟨n, -, hl⟩
    exact not_mem_texts t n l hl
  · simp

theorem map_ofLine? (t : Tree) : (t.nodes.flatMap (texts t)).map Statement.ofLine? =
    (t.nodes.flatMap (statements t)).map some := by
  simp only [List.map_flatMap, ofLine?_texts]

theorem filter_isNode (t : Tree) : (t.nodes.flatMap (statements t)).filter Statement.isNode =
    t.nodes.map fun n => .node n.id (label t n) := by
  have hone (n : Node) : (statements t n).filter Statement.isNode = [.node n.id (label t n)] := by
    rw [statements, List.filter_cons_of_pos rfl, List.filter_eq_nil_iff.mpr]
    exact List.forall_mem_map.mpr fun _ _ => Bool.false_ne_true
  simp only [List.filter_flatMap, hone, List.map_eq_flatMap]

theorem filter_not_isNode (t : Tree) :
    (t.nodes.flatMap (statements t)).filter (!·.isNode) =
      t.nodes.flatMap fun n => n.children.map fun c => .edge n.id c.id := by
  have hone (n : Node) : (statements t n).filter (!·.isNode) =
      n.children.map fun c => .edge n.id c.id := by
    simp [statements, Statement.isNode, List.filter_map, Function.comp_def]
  simp only [List.filter_flatMap, hone]

theorem length_edges (t : Tree) :
    ((t.nodes.flatMap (statements t)).filter (!·.isNode)).length + 1 = t.size := by
  have hperm := (Node.children_perm t.root).length_eq
  rw [Node.length_preorderAll, List.length_flatMap] at hperm
  rw [filter_not_isNode, List.length_flatMap, Tree.nodes_eq_preorder, Tree.size, Node.size_eq]
  simpa using hperm

def drawn (n : Node) : Nat × Rule × Position × List Nat :=
  (n.id, n.rule, n.position, n.children.map Node.id)

theorem map_drawn {t t' : Tree} {ns ns' : List Node}
    (h : ns.flatMap (statements t) = ns'.flatMap (statements t')) :
    ns.map drawn = ns'.map drawn := by
  induction ns generalizing ns' with
  | nil =>
      cases ns' with
      | nil => rfl
      | cons n' ns' => exact nomatch h
  | cons n ns ih =>
      cases ns' with
      | nil => exact nomatch h
      | cons n' ns' =>
          -- The edges of a node go up to the statement of the next one.
          have hedges (n : Node) : ∀ s ∈ n.children.map fun c => Statement.edge n.id c.id,
              (!s.isNode) = true := List.forall_mem_map.mpr fun _ _ => rfl
          have hnext (t : Tree) (ns : List Node) :
              ∀ s ∈ (ns.flatMap (statements t)).head?, (!s.isNode) = false := by
            cases ns with
            | nil => exact nofun
            | cons n ns =>
                intro s hs
                cases Option.some.inj hs
                rfl
          obtain ⟨hhead, htail⟩ := List.cons.inj h
          obtain ⟨hid, hlabel⟩ := Statement.node.inj hhead
          obtain ⟨hchildren, hrest⟩ := append_inj_of_run (p := fun s => !s.isNode) (hedges n)
            (hedges n') (hnext t ns) (hnext t' ns') htail
          obtain ⟨hrule, hposition⟩ := of_label_eq hlabel
          have hlast := congrArg (List.map Statement.last) hchildren
          rw [List.map_map, List.map_map] at hlast
          have hids : n.children.map Node.id = n'.children.map Node.id := hlast
          rw [List.map_cons, List.map_cons, ih hrest, drawn, drawn, hid, hrule, hposition, hids]

/-- The lines of a drawing are three fixed ones, a line for each node in the order of the walk, and
an edge less than there are nodes.  Each label is closed by the quote in front of the bracket that
ends its line, and goes over no line.  Trees with one drawing have the same nodes. -/
theorem render_determines (t : Tree) :
    (∃ body, (render t).splitOn '\n' = ["digraph parse_tree \x7b".toList,
        "    node [shape=box, fontname=\"monospace\"];".toList] ++ body ++ [['\x7d'], []] ∧
      ∃ ss : List Statement, body.map Statement.ofLine? = ss.map some ∧
        ss.filter Statement.isNode = t.root.preorder.map (fun n => .node n.id (label t n)) ∧
        (ss.filter Statement.isNode).length = t.size ∧
        (ss.filter (!·.isNode)).length = t.size - 1) ∧
      (∀ n ∈ t.nodes, (∀ c ∈ label t n, c ≠ '\n' ∧ c ≠ '\r') ∧
        ∀ rest, Statement.quoted (label t n ++ '"' :: rest) = some (label t n, rest)) ∧
      ∀ t', render t' = render t → t'.size = t.size ∧ t'.root.id = t.root.id ∧
        ∀ id, (t'.node? id).map drawn = (t.node? id).map drawn := by
  refine ⟨⟨_, splitOn_render t, _, map_ofLine? t, ?_, ?_, ?_⟩, fun n _ => ⟨fun c hc => ?_, ?_⟩,
    fun t' hsame => ?_⟩
  · rw [filter_isNode, Tree.nodes_eq_preorder]
  · rw [filter_isNode, List.length_map, Tree.nodes_eq_preorder, Node.length_preorder]
    rfl
  · rw [← length_edges t]
    rfl
  · have hline := label_line t n c hc
    simpa [breaksLine] using hline
  · exact (quotable_label t n).quoted_eq
  · have hbody := splitOn_render t'
    rw [hsame, splitOn_render] at hbody
-- Two drawings have the same lines, so the same statements, so the same nodes in order.
    have htexts := List.append_cancel_left (List.append_cancel_right hbody)
    have hstatements := congrArg (List.map Statement.ofLine?) htexts
    rw [map_ofLine?, map_ofLine?] at hstatements
    have hdrawn := map_drawn (List.map_injective_iff.mpr (fun _ _ => Option.some.inj) hstatements)
    refine ⟨?_, ?_, fun id => ?_⟩
    · have hlength := congrArg List.length hdrawn
      rw [List.length_map, List.length_map, Tree.nodes_eq_preorder, Tree.nodes_eq_preorder,
        Node.length_preorder, Node.length_preorder] at hlength
      exact hlength.symm
    · have hhead := congrArg List.head? hdrawn
      rw [Tree.nodes_eq_preorder, Tree.nodes_eq_preorder, Node.preorder_eq, Node.preorder_eq] at hhead
      exact (Prod.mk.inj (Option.some.inj hhead)).1.symm
    · have hfind (t : Tree) : (t.node? id).map drawn = (t.nodes.map drawn).find? (·.1 = id) := by
        rw [List.find?_map]
        rfl
      rw [hfind, hfind, hdrawn]

end Dot

end XiFront

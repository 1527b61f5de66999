import XiFront.Proofs.Grammar.Scan
import XiFront.Proofs.Lowering.Type
import XiFront.Proofs.Path.Source

namespace XiFront

open Peg

variable {source : Source} {rest : List Char}

def BeginsWith (signs rest : List Char) : Prop :=
  ∃ c ∈ signs, rest.head? = some c

namespace BeginsWith

variable {signs : List Char}

theorem cons {c : Char} (h : c ∈ signs) (cs : List Char) : BeginsWith signs (c :: cs) :=
  ⟨c, h, rfl⟩

theorem mono {signs' : List Char} (h : BeginsWith signs rest) (hsub : signs ⊆ signs') :
    BeginsWith signs' rest := by
  obtain ⟨c, hc, hhead⟩ := h
  exact ⟨c, hsub hc, hhead⟩

theorem forall_head {p : Char → Prop} (h : BeginsWith signs rest) (hp : ∀ c ∈ signs, p c) :
    ∀ c ∈ rest.head?, p c := by
  obtain ⟨c, hc, hhead⟩ := h
  intro d hd
  rw [hhead] at hd
  cases hd
  exact hp c hc

end BeginsWith

theorem scalar_choices :
    Expr.rule (Rule.kw .bool) :: (Scalar.all.tail.map fun s => Expr.rule (Rule.kw s.keyword)) =
      Scalar.all.map fun s => Expr.rule (Rule.kw s.keyword) := rfl

theorem fails_basicType {w : List Char} (hw : ∀ c ∈ w, isWordChar c = true)
    (hrest : ∀ c ∈ rest.head?, isWordChar c = false)
    (hne : ∀ s : Scalar, w ≠ s.keyword.spelling) : Fails (.rule .basicType) (w ++ rest) := by
  refine .rule rfl (.oneOf ?_)
  rw [scalar_choices, List.forall_mem_map]
  exact fun s _ => .kw hw hrest (hne s)

theorem fails_basicType_of_head (hrest : ∀ c ∈ rest.head?, isWordChar c = false) :
    Fails (.rule .basicType) rest := by
  refine fails_basicType (w := []) nofun hrest fun s => ?_
  cases s <;> exact nofun

theorem scans_basicType (s : Scalar) (hrest : ∀ c ∈ rest.head?, isWordChar c = false) :
    Scans source (.rule .basicType) s.keyword.spelling rest
      (Becomes source (.kw s.keyword) (Node.IsLeaf source s.word)) := by
  have hstore : s.keyword.selection = .store := by cases s <;> rfl
  refine .fold rfl rfl (.oneOf (d := .rule (.kw s.keyword)) ?_ (.kw hstore hrest) ?_)
  · rw [scalar_choices]
    exact List.mem_map_of_mem s.mem_all
  · rw [scalar_choices, List.forall_mem_map]
    intro s' _ hne
    refine .kw (spelling_isWord s.keyword) hrest fun heq => hne ?_
    rw [Keyword.spelling_injective heq]

theorem scans_name (source : Source) {id : String} (h : IsSourceName id)
    (hrest : ∀ c ∈ rest.head?, isWordChar c = false) :
    Scans source (.oneOf (.rule .ident) [.rule .basicType, .rule (.kw .upperSelf)]) id.toList rest
      fun qs => ∃ r, Lowering.isSegmentName r = true ∧
        Becomes source r (Node.IsLeaf source id) qs := by
  have hident (k : Keyword) : Fails (.rule .ident) (k.spelling ++ rest) :=
    .ident_of_reserved (spelling_isWord k) hrest ⟨k, rfl⟩
  cases h with
  | ident h =>
      rw [String.toList_ofList]
      exact ((Scans.ident h hrest).alt_left _).mono fun qs hqs => ⟨.ident, rfl, hqs⟩
  | scalar s =>
      rw [Scalar.word, Keyword.word, String.toList_ofList]
      refine (Scans.alt_right (hident s.keyword) ((scans_basicType s hrest).alt_left _)).mono ?_
      intro qs hqs
      refine ⟨.kw s.keyword, ?_, hqs⟩
      simp [Lowering.isSegmentName]
  | self =>
      rw [Keyword.word, String.toList_ofList]
      have hbasic : Fails (.rule .basicType) (Keyword.upperSelf.spelling ++ rest) := by
        refine fails_basicType (spelling_isWord .upperSelf) hrest fun s => ?_
        cases s <;> decide
      refine (Scans.alt_right (hident .upperSelf)
        (.alt_right hbasic (.kw rfl hrest))).mono fun qs hqs => ?_
      exact ⟨.kw .upperSelf, rfl, hqs⟩

theorem IsSourceName.solid {id : String} (h : IsSourceName id) (cs : List Char) :
    IsSolid (id.toList ++ cs) := by
  obtain ⟨c, ds, hid, hc⟩ := h.start
  rw [hid]
  refine .cons ?_
  have hword := isWordChar_of_start hc
  refine decide_eq_false fun hmem => ?_
  have hall : ∀ c ∈ [' ', '\t', '\n', '\r', '/'], isWordChar c = false := by decide
  exact absurd ((hall c hmem).symm.trans hword) Bool.false_ne_true

theorem Segment.IsSource.solid {s : Segment} (h : s.IsSource) {cs : List Char} :
    IsSolid (s.text ++ cs) := by
  rw [Segment.text, List.append_assoc]
  exact h.name.solid _

theorem texts_begin {signs : List Char} (hcolon : ':' ∈ signs) (ss : List Segment)
    (hrest : BeginsWith signs rest) : BeginsWith signs (Segment.texts ss ++ rest) := by
  cases ss with
  | nil => exact hrest
  | cons s ss => exact .cons hcolon _

theorem Path.IsSource.begin {p : Path} (h : p.IsSource) (rest : List Char) :
    BeginsWith ['.', ':'] (p.render.toList ++ rest) := by
  obtain ⟨markers, first, others, hall⟩ := h
  rw [Path.toList_render markers others (hall first List.mem_cons_self).isMarker_eq]
  cases markers with
  | zero => exact .cons (by decide) _
  | succ markers => exact .cons (by decide) _

/-- Nodes made of the pairs are lowered to the segments. -/
def ListsSegments (source : Source) (ss : List Segment) (qs : List (Pair Rule)) : Prop :=
  ∀ n next, (Lowering.segmentsOf source (fun _ inner => inner) n
      (Node.ofPairs source next qs).1 : Except Error Path) = .ok ss ∧
    Node.sizeAll (Node.ofPairs source next qs).1 = Segment.nodeCountAll ss

structure IsSegmentOf (source : Source) (s : Segment) (n : Node) : Prop where
  meaning : (Lowering.segmentOf source (fun _ inner => inner) n : Except Error Segment) = .ok s
  size : n.size = s.nodeCount

structure IsPathOf (source : Source) (p : Path) (n : Node) : Prop where
  meaning : (Lowering.pathOf source (fun _ inner => inner) n : Except Error Path) = .ok p
  size : n.size = p.nodeCount

/-- A type that is a path, and no array of it. -/
structure IsArgumentOf (source : Source) (p : Path) (n : Node) : Prop where
  meaning : (Lowering.typeOf source (fun _ inner => inner) n : Except Error TypeRef) =
    .ok ⟨.path p, false⟩
  size : n.size = p.nodeCount + 1

theorem ListsSegments.nil : ListsSegments source [] [] :=
  fun _ _ => ⟨rfl, rfl⟩

theorem ListsSegments.cons {s : Segment} {ss : List Segment} {ps qs : List (Pair Rule)}
    (hps : Becomes source .segment (IsSegmentOf source s) ps)
    (hqs : ListsSegments source ss qs) : ListsSegments source (s :: ss) (ps ++ qs) := by
  obtain ⟨q, rfl, hrule, hq⟩ := hps
  intro n next
  obtain ⟨hothers, hsize⟩ := hqs n ((Node.ofPair source next q).id + 1)
  rw [List.singleton_append, Node.ofPairs_cons]
  refine ⟨?_, ?_⟩
  · rw [Lowering.segmentsOf_segment _ _ ((Node.rule_ofPair source next q).trans hrule),
      (hq next).meaning]
    simp only [hothers]
    rfl
  · rw [Node.sizeAll_cons, (hq next).size, hsize]
    rfl

theorem ListsSegments.markers {ss : List Segment} {ps qs : List (Pair Rule)}
    (hps : ∀ p ∈ ps, Becomes source .dot (·.size = 1) [p]) (hqs : ListsSegments source ss qs) :
    ListsSegments source (List.replicate ps.length Segment.marker ++ ss) (ps ++ qs) := by
  induction ps with
  | nil => exact hqs
  | cons p ps ih =>
      obtain ⟨⟨_, hp, hrule, hsize⟩, hps⟩ := List.forall_mem_cons.mp hps
      cases List.singleton_inj.mp hp
      intro n next
      obtain ⟨hothers, hrest⟩ := ih hps n ((Node.ofPair source next p).id + 1)
      rw [List.cons_append, Node.ofPairs_cons]
      refine ⟨?_, ?_⟩
      · rw [Lowering.segmentsOf_dot _ _ ((Node.rule_ofPair source next p).trans hrule)]
        simp only [hothers]
        rfl
      · rw [Node.sizeAll_cons, hsize next, hrest]
        rfl

theorem scans_ty {p : Path} (hp : p.IsSource) (hrest : BeginsWith ['>'] rest)
    (h : Scans source (.rule .path) p.render.toList rest
      (Becomes source .path (IsPathOf source p))) :
    Scans source (.rule .ty) p.render.toList rest (Becomes source .ty (IsArgumentOf source p)) := by
  have hword : ∀ c ∈ (p.render.toList ++ rest).head?, isWordChar c = false :=
    (hp.begin rest).forall_head (by decide)
  have hbase : Scans source (.rule .nonArrayType) p.render.toList rest
      (Becomes source .path (IsPathOf source p)) := by
    refine .fold rfl rfl (.alt_right (fails_basicType_of_head hword) ?_)
    exact .alt_right (.kw_of_head hword) (h.alt_left _)
  have hsuffix : Fails (.rule .arraySuffix) rest :=
    .rule rfl (.seq (.text (hrest.forall_head (by decide))) _)
  have hbody := hbase.seq_left (t := []) (hrest.forall_head (by decide)) (.opt_none hsuffix)
  rw [List.append_nil] at hbody
  refine .store rfl rfl hbody ?_
  rintro n hr _ ⟨q, rfl, hrule, hq⟩ next hchildren
  refine ⟨?_, ?_⟩
  · rw [Lowering.typeOf_path _ _ hr hchildren (.inl rfl) ((Node.rule_ofPair ..).trans hrule),
      (hq next).meaning]
    rfl
  · rw [Node.size_eq, hchildren, Node.ofPairs_cons, Node.sizeAll_cons, (hq next).size]
    rfl

theorem scans_segment_plain {id : String} (hid : IsSourceName id)
    (hrest : BeginsWith [':', ';', '>'] rest) :
    Scans source (.rule .segment) (Segment.mk id none).text rest
      (Becomes source .segment (IsSegmentOf source ⟨id, none⟩)) := by
  have hgenerics : Fails (.rule .generics) rest :=
    .rule rfl (.seq (.text (hrest.forall_head (by decide))) _)
  have hbody := (scans_name source hid (hrest.forall_head (by decide))).seq_left (t := [])
    (hrest.forall_head (by decide)) (.opt_none hgenerics)
  rw [List.append_nil, ← Segment.text_plain] at hbody
  refine .store rfl rfl hbody ?_
  rintro n - _ ⟨r, hname, q, rfl, hrule, hq⟩ next hchildren
  have hname' : Lowering.isSegmentName (Node.ofPair source next q).rule = true := by
    rw [Node.rule_ofPair, hrule]
    exact hname
  refine ⟨?_, ?_⟩
  · rw [Lowering.segmentOf_plain _ _ hchildren hname', (hq next).name]
    rfl
  · rw [Node.size_eq, hchildren, Node.ofPairs_cons, Node.sizeAll_cons, (hq next).size,
      hid.nodeCount]
    rfl

theorem scans_generics {p : Path} (hp : p.IsSource)
    (h : Scans source (.rule .path) p.render.toList ('>' :: rest)
      (Becomes source .path (IsPathOf source p))) :
    Scans source (.rule .generics) ('<' :: (p.render.toList ++ ['>'])) rest
      (Becomes source .ty (IsArgumentOf source p)) := by
  have hclose : BeginsWith ['>'] ('>' :: rest) := .cons (by decide) rest
  have hothers : Fails (.seq (Rule.symbol ',') (.rule .ty)) ('>' :: rest) :=
    .seq (.text (hclose.forall_head (by decide))) _
  have hend : Scans source (.seq (.star (.seq (Rule.symbol ',') (.rule .ty))) (Rule.symbol '>'))
      ['>'] rest fun qs => qs = [] :=
    (Scans.star_nil hothers).seq_right (t := ['>']) (.cons rfl) (.text ['>'] rest)
  refine .silent rfl ?_
  refine (Scans.text ['<'] _).seq_right (t := p.render.toList ++ ['>']) ?_ ?_
  · rw [List.append_assoc]
    exact (hp.begin _).forall_head (by decide)
  · exact (scans_ty hp hclose h).seq_left (t := ['>']) (.cons rfl) hend

theorem scans_segment_argument {id : String} {p : Path} (hid : IsSourceName id) (hp : p.IsSource)
    (h : Scans source (.rule .path) p.render.toList ('>' :: rest)
      (Becomes source .path (IsPathOf source p))) :
    Scans source (.rule .segment) (Segment.mk id (some [p])).text rest
      (Becomes source .segment (IsSegmentOf source ⟨id, some [p]⟩)) := by
  have hopen : BeginsWith ['<'] ('<' :: (p.render.toList ++ ['>']) ++ rest) :=
    .cons (by decide) _
  have hbody := (scans_name source hid (hopen.forall_head (by decide))).seq
    (hopen.forall_head (by decide)) (.opt_some (scans_generics hp h))
    (R := fun qs => ∃ r q q', qs = [q, q'] ∧ Lowering.isSegmentName r = true ∧ q.rule = r ∧
      (∀ next, (Node.ofPair source next q).IsLeaf source id) ∧
      ∀ next, IsArgumentOf source p (.ofPair source next q')) ?_
  · rw [← Segment.text_argument] at hbody
    refine .store rfl rfl hbody ?_
    rintro n - _ ⟨r, q, q', rfl, hname, hrule, hq, hq'⟩ next hchildren
    have hname' : Lowering.isSegmentName (Node.ofPair source next q).rule = true := by
      rw [Node.rule_ofPair, hrule]
      exact hname
    rw [Node.ofPairs_cons, Node.ofPairs_cons] at hchildren
    refine ⟨?_, ?_⟩
    · rw [Lowering.segmentOf_argument _ _ hchildren hname', (hq' _).meaning, (hq next).name]
      rfl
    · have hcount : Segment.nodeCountGenerics (some [p]) = p.nodeCount + 1 := rfl
      rw [Node.size_eq, hchildren, Node.sizeAll_cons, Node.sizeAll_cons, (hq next).size,
        (hq' _).size, Node.ofPairs_nil, Node.sizeAll_nil, hid.nodeCount, hcount]
      omega
  · rintro _ _ ⟨r, hname, q, rfl, hrule, hq⟩ ⟨q', rfl, -, hq'⟩
    exact ⟨r, q, q', rfl, hname, hrule, hq, hq'⟩

theorem scans_dots (markers : Nat) (hrest : BeginsWith [':'] rest) :
    Scans source (.star (.rule .dot)) (List.replicate markers '.') rest
      fun qs => qs.length = markers ∧ ∀ q ∈ qs, Becomes source .dot (·.size = 1) [q] := by
  have hfails : Fails (.rule .dot) rest := .rule rfl (.text (hrest.forall_head (by decide)))
  induction markers with
  | zero =>
      refine (Scans.star_nil hfails).mono ?_
      rintro _ rfl
      exact ⟨rfl, nofun⟩
  | succ markers ih =>
      have hdot : Scans source (.rule .dot) ['.'] (List.replicate markers '.' ++ rest)
          (Becomes source .dot (·.size = 1)) := by
        refine .store rfl rfl (.text ['.'] _) ?_
        rintro n - _ rfl next hchildren
        rw [Node.size_eq, hchildren]
        rfl
      have hsolid : IsSolid (List.replicate markers '.' ++ rest) := by
        cases markers with
        | zero => exact hrest.forall_head (by decide)
        | succ markers => exact .cons rfl
      rw [List.replicate_succ]
      refine hdot.star_cons hsolid ih ?_
      rintro _ qs ⟨q, rfl, hrule, hsize⟩ ⟨hlength, hall⟩
      exact ⟨congrArg (· + 1) hlength, List.forall_mem_cons.mpr ⟨⟨q, rfl, hrule, hsize⟩, hall⟩⟩

def ScansEach (source : Source) (ss : List Segment) : Prop :=
  ∀ s ∈ ss, ∀ rest, BeginsWith [':', ';', '>'] rest →
    Scans source (.rule .segment) s.text rest (Becomes source .segment (IsSegmentOf source s))

theorem scans_segments {ss : List Segment} (hss : ∀ s ∈ ss, s.IsSource)
    (hscans : ScansEach source ss) (hrest : BeginsWith [';', '>'] rest) :
    Scans source (.star (.seq (.text [':', ':']) (.rule .segment))) (Segment.texts ss) rest
      (ListsSegments source ss) := by
  induction ss with
  | nil =>
      have hfails : Fails (.seq (.text [':', ':']) (.rule .segment)) rest :=
        .seq (.text (hrest.forall_head (by decide))) _
      refine (Scans.star_nil hfails).mono ?_
      rintro _ rfl
      exact .nil
  | cons s ss ih =>
      rw [List.forall_mem_cons] at hss
      have hnext : BeginsWith [':', ';', '>'] (Segment.texts ss ++ rest) :=
        texts_begin (by decide) ss (hrest.mono (by decide))
      have hfirst : Scans source (.seq (.text [':', ':']) (.rule .segment))
          ([':', ':'] ++ s.text) (Segment.texts ss ++ rest)
          (Becomes source .segment (IsSegmentOf source s)) :=
        (Scans.text [':', ':'] _).seq_right hss.1.solid
          (hscans s List.mem_cons_self _ hnext)
      have hothers := ih hss.2 fun s hs => hscans s (List.mem_cons_of_mem _ hs)
      exact hfirst.star_cons (hnext.forall_head (by decide)) hothers fun _ _ => .cons

theorem scans_path (markers : Nat) {first : Segment} {others : List Segment}
    (hall : ∀ s ∈ first :: others, s.IsSource) (hscans : ScansEach source (first :: others))
    (hrest : BeginsWith [';', '>'] rest) :
    Scans source (.rule .path)
      (Path.render (List.replicate markers Segment.marker ++ first :: others)).toList rest
      (Becomes source .path
        (IsPathOf source (List.replicate markers Segment.marker ++ first :: others))) := by
  have hnext : BeginsWith [':', ';', '>'] (Segment.texts others ++ rest) :=
    texts_begin (by decide) others (hrest.mono (by decide))
  have hfirst := hscans first List.mem_cons_self _ hnext
  have hothers := scans_segments (fun s hs => hall s (List.mem_cons_of_mem _ hs))
    (fun s hs => hscans s (List.mem_cons_of_mem _ hs)) hrest
  have hsegments : Scans source
      (.seq (.rule .segment) (.star (.seq (.text [':', ':']) (.rule .segment))))
      (first.text ++ Segment.texts others) rest (ListsSegments source (first :: others)) :=
    hfirst.seq (hnext.forall_head (by decide)) hothers fun _ _ => .cons
  have hnamed : Scans source
      (.seq (.opt (.text [':', ':']))
        (.seq (.rule .segment) (.star (.seq (.text [':', ':']) (.rule .segment)))))
      (Segment.texts (first :: others)) rest (ListsSegments source (first :: others)) := by
    have hsolid : IsSolid (first.text ++ Segment.texts others ++ rest) := by
      rw [List.append_assoc]
      exact (hall first List.mem_cons_self).solid
    exact (Scans.opt_some (.text [':', ':'] _)).seq_right hsolid hsegments
  have hbody := (scans_dots markers (.cons List.mem_cons_self _)).seq
    (.cons rfl) hnamed (R := ListsSegments source
      (List.replicate markers Segment.marker ++ first :: others)) ?_
  · rw [Path.toList_render markers others (hall first List.mem_cons_self).isMarker_eq]
    refine .store rfl rfl hbody ?_
    intro n hr qs hqs next hchildren
    refine ⟨?_, ?_⟩
    · rw [Lowering.pathOf_eq _ _ hr, hchildren]
      exact (hqs n next).1
    · rw [Node.size_eq, hchildren, (hqs n next).2]
      rfl
  · rintro ps qs ⟨rfl, hdots⟩ hqs
    exact hqs.markers hdots

mutual

theorem Segment.IsSource.scans {s : Segment} (h : s.IsSource) (source : Source) (rest : List Char)
    (hrest : BeginsWith [':', ';', '>'] rest) :
    Scans source (.rule .segment) s.text rest
      (Becomes source .segment (IsSegmentOf source s)) :=
  match h with
  | .plain hid => scans_segment_plain hid hrest
  | .argument hid hp =>
      scans_segment_argument hid hp (hp.scans source _ (.cons (by decide) _))

theorem Path.IsSource.scans {p : Path} (h : p.IsSource) (source : Source) (rest : List Char)
    (hrest : BeginsWith [';', '>'] rest) :
    Scans source (.rule .path) p.render.toList rest
      (Becomes source .path (IsPathOf source p)) :=
  match h with
  | .mk markers _ _ hall =>
      scans_path markers hall (fun s hs => (hall s hs).scans source) hrest

end

end XiFront

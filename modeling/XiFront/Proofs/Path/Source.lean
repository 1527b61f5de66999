import XiFront.Path
import XiFront.Proofs.Grammar.Token

namespace XiFront

/-- A name that a segment of a source can have. -/
inductive IsSourceName : String → Prop
  | ident {w : List Char} (h : IsIdentifier w) : IsSourceName (String.ofList w)
  | scalar (s : Scalar) : IsSourceName s.word
  | self : IsSourceName Keyword.upperSelf.word

mutual

/-- A segment of a source has no arguments, or one that is a source path. -/
inductive Segment.IsSource : Segment → Prop
  | plain {id : String} (hid : IsSourceName id) : Segment.IsSource ⟨id, none⟩
  | argument {id : String} {p : Path} (hid : IsSourceName id) (hp : Path.IsSource p) :
      Segment.IsSource ⟨id, some [p]⟩

/-- A source path is any number of markers with at least one segment after them. -/
inductive Path.IsSource : Path → Prop
  | mk (markers : Nat) (first : Segment) (others : List Segment)
      (h : ∀ s ∈ first :: others, Segment.IsSource s) :
      Path.IsSource (List.replicate markers Segment.marker ++ first :: others)

end

theorem Path.IsSource.single {id : String} (h : IsSourceName id) :
    Path.IsSource [Segment.plain id] :=
  .mk 0 (.plain id) [] fun _ hs => List.mem_singleton.mp hs ▸ .plain h

theorem spelling_start (k : Keyword) :
    ∃ c cs, k.spelling = c :: cs ∧ isWordStart c = true := by
  cases k <;> exact ⟨_, _, rfl, by decide⟩

theorem IsSourceName.start {id : String} (h : IsSourceName id) :
    ∃ c cs, id.toList = c :: cs ∧ isWordStart c = true := by
  cases h with
  | ident h => simpa using h.start
  | scalar s => simpa [Scalar.word, Keyword.word] using spelling_start s.keyword
  | self => simpa [Keyword.word] using spelling_start .upperSelf

theorem Segment.IsSource.name {s : Segment} (h : s.IsSource) : IsSourceName s.id := by
  cases h with
  | plain hid => exact hid
  | argument hid _ => exact hid

theorem Segment.IsSource.isMarker_eq {s : Segment} (h : s.IsSource) : s.isMarker = false := by
  obtain ⟨c, cs, hid, hc⟩ := h.name.start
  refine decide_eq_false fun hname => ?_
  rw [hname] at hid
  cases hid
  exact absurd hc (by decide)

def Segment.text (s : Segment) : List Char :=
  s.id.toList ++ (renderGenerics s.generics).toList

def Segment.texts (ss : List Segment) : List Char :=
  ss.flatMap fun s => ':' :: ':' :: s.text

@[simp] theorem Segment.texts_cons (s : Segment) (ss : List Segment) :
    texts (s :: ss) = ':' :: ':' :: (s.text ++ texts ss) := rfl

theorem Segment.text_plain (id : String) : (Segment.mk id none).text = id.toList := by
  simp [text, renderGenerics]

theorem Segment.text_argument (id : String) (p : Path) :
    (Segment.mk id (some [p])).text = id.toList ++ '<' :: (p.render.toList ++ ['>']) := by
  simp [text, renderGenerics, renderOthers, Path.render]

theorem toList_renderPath_false (ss : List Segment) :
    (renderPath false ss).toList = Segment.texts ss := by
  induction ss with
  | nil => rfl
  | cons s ss ih =>
      obtain ⟨id, generics⟩ := s
      simp [Segment.render, Segment.text, ih]

theorem Path.toList_render (markers : Nat) {first : Segment} (others : List Segment)
    (h : first.isMarker = false) :
    (Path.render (List.replicate markers Segment.marker ++ first :: others)).toList =
      List.replicate markers '.' ++ Segment.texts (first :: others) := by
  induction markers with
  | zero =>
      have hfirst : renderPath true (first :: others) = renderPath false (first :: others) := by
        rw [renderPath_true_cons, h]
        rfl
      simp only [List.replicate_zero, List.nil_append, Path.render, hfirst,
        toList_renderPath_false]
  | succ markers ih =>
      have hmarker : Segment.marker.isMarker = true := rfl
      rw [List.replicate_succ, List.cons_append, Path.render, renderPath_true_cons, if_pos hmarker,
        String.toList_append, List.replicate_succ, List.cons_append, ← ih]
      rfl

mutual

def Segment.nodeCount : Segment → Nat
  | ⟨id, generics⟩ => (if id = markerName then 1 else 2) + nodeCountGenerics generics

def Segment.nodeCountGenerics : Option (List (List Segment)) → Nat
  | none => 0
  | some ps => nodeCountArguments ps

def Segment.nodeCountArguments : List (List Segment) → Nat
  | [] => 0
  | p :: ps => (nodeCountAll p + 1) + 1 + nodeCountArguments ps

def Segment.nodeCountAll : List Segment → Nat
  | [] => 0
  | s :: ss => s.nodeCount + nodeCountAll ss

end

def Path.nodeCount (p : Path) : Nat :=
  Segment.nodeCountAll p + 1

theorem IsSourceName.nodeCount {id : String} (h : IsSourceName id)
    (generics : Option (List (List Segment))) :
    (Segment.mk id generics).nodeCount = 2 + Segment.nodeCountGenerics generics := by
  have hname : id ≠ Segment.markerName := by
    obtain ⟨c, cs, hid, hc⟩ := h.start
    rintro rfl
    cases hid
    exact absurd hc (by decide)
  rw [Segment.nodeCount, if_neg hname]

end XiFront

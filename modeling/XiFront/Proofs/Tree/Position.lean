import Mathlib.Data.List.DropRight
import XiFront.Proofs.Tree.Arena

namespace XiFront

namespace Source

theorem takeBytes_prefix {m n : Nat} (h : m ≤ n) (s : Source) :
    takeBytes m s <+: takeBytes n s := by
  induction s generalizing m n with
  | nil => exact List.prefix_rfl
  | cons c cs ih =>
      by_cases hm : m = 0
      · rw [takeBytes, if_pos hm]
        exact List.nil_prefix
      · have hn : n ≠ 0 := by omega
        rw [takeBytes, takeBytes, if_neg hm, if_neg hn]
        exact List.prefix_cons_inj c |>.mpr (ih (Nat.sub_le_sub_right h _))

/-- The offset falls between two characters, or at an end of the text. -/
def IsBoundary (offset : Nat) (source : Source) : Prop :=
  byteLength (takeBytes offset source) = offset

theorem isBoundary_zero (source : Source) : IsBoundary 0 source := by
  cases source <;> rfl

theorem isBoundary_byteLength (before after : Source) :
    IsBoundary (byteLength before) (before ++ after) := by
  rw [IsBoundary, takeBytes_byteLength]

end Source

namespace Position

/-- A carriage return needs no case of its own: a line feed after it resets the column. -/
theorem count_cons (x : Char) (text : Source) (line column : Nat) :
    count (x :: text) line column =
      if x = '\n' then count text (line + 1) 1 else count text line (column + 1) := by
  rw [count.eq_def]
  split
  case h_1 heq => exact nomatch heq
  case h_2 cs heq =>
    obtain ⟨rfl, rfl⟩ := List.cons.inj heq
    rfl
  case h_3 cs _ heq =>
    obtain ⟨rfl, rfl⟩ := List.cons.inj heq
    rfl
  case h_4 y cs _ hother heq =>
    obtain ⟨rfl, rfl⟩ := List.cons.inj heq
    rw [if_neg hother]

theorem count_append (s text : Source) (line column : Nat) :
    count (s ++ text) line column =
      count text (count s line column).1 (count s line column).2 := by
  induction s generalizing line column with
  | nil => rfl
  | cons x s ih =>
      rw [List.cons_append, count_cons, count_cons]
      split
      · exact ih ..
      · exact ih ..

/-- One more than the line feeds, and one more than the characters after the last of them. -/
theorem count_eq (text : Source) :
    count text 1 1 = (1 + text.count '\n', 1 + (text.rtakeWhile (· ≠ '\n')).length) := by
  induction text using List.reverseRecOn with
  | nil => rfl
  | append_singleton s x ih =>
      rw [count_append, count_cons, ih]
      by_cases hx : x = '\n'
      · rw [if_pos hx, List.rtakeWhile_concat_neg _ _ _ (by simpa using hx), List.count_append, hx]
        rfl
      · rw [if_neg hx, List.rtakeWhile_concat_pos _ _ _ (by simpa using hx), List.length_append,
          List.count_append, List.count_singleton, beq_false_of_ne hx]
        rfl

theorem count_eq_or (text : Source) (line column : Nat) :
    count text line column = (line, column + text.length) ∨
      line < (count text line column).1 := by
  induction text generalizing line column with
  | nil => exact .inl rfl
  | cons x text ih =>
      rw [count_cons]
      split
      · refine .inr ?_
        obtain heq | hlt := ih (line + 1) 1
        · rw [heq]
          exact Nat.lt_succ_self line
        · exact Nat.lt_trans (Nat.lt_succ_self line) hlt
      · obtain heq | hlt := ih line (column + 1)
        · rw [heq, List.length_cons, Nat.add_right_comm, Nat.add_assoc]
          exact .inl rfl
        · exact .inr hlt

theorem after_eq (text : Source) :
    after text =
      ofCounts (1 + text.count '\n') (1 + (text.rtakeWhile (· ≠ '\n')).length) := by
  rw [after, count_eq]

theorem after_eq_of_length_lt {text : Source} (h : text.length < limit) :
    after text = ⟨(count text 1 1).1, (count text 1 1).2⟩ := by
  have hlines : text.count '\n' ≤ text.length := List.count_le_length
  have hcolumns : (text.rtakeWhile (· ≠ '\n')).length ≤ text.length :=
    (List.rtakeWhile_suffix _ _).length_le
  rw [after_eq, count_eq, ofCounts, Nat.min_eq_left (by omega), Nat.min_eq_left (by omega)]

theorem after_lt_after {s text : Source} (htext : text ≠ []) (h : (s ++ text).length < limit) :
    after s < after (s ++ text) := by
  have hs : s.length < limit := by
    rw [List.length_append] at h
    omega
  have hpos := List.length_pos_iff.mpr htext
  rw [after_eq_of_length_lt hs, after_eq_of_length_lt h, lt_def, count_append]
  obtain heq | hlt := count_eq_or text (count s 1 1).1 (count s 1 1).2
  · rw [heq]
    exact .inr ⟨rfl, Nat.lt_add_of_pos_right hpos⟩
  · exact .inl hlt

theorem after_le_after {s s' : Source} (h : s <+: s') :
    (after s).line ≤ (after s').line ∧
      (s.count '\n' = s'.count '\n' →
        (after s).line = (after s').line ∧ (after s).column ≤ (after s').column) := by
  obtain ⟨text, rfl⟩ := h
  have hline (u : Source) : (count u 1 1).1 = 1 + u.count '\n' := by rw [count_eq]
  have hcut (u : Source) : after u = ofCounts (count u 1 1).1 (count u 1 1).2 := rfl
  have hlines := hline (s ++ text)
  rw [hcut, hcut]
  rw [count_append] at hlines ⊢
  obtain heq | hlt := count_eq_or text (count s 1 1).1 (count s 1 1).2
  · rw [heq]
    refine ⟨Nat.le_refl _, fun _ => ⟨rfl, ?_⟩⟩
    simp only [ofCounts]
    omega
  · refine ⟨?_, fun hsame => ?_⟩
    · simp only [ofCounts]
      omega
    · rw [hlines, hline, hsame] at hlt
      exact absurd hlt (Nat.lt_irrefl _)

theorem lt_asymm {p q : Position} (h : p < q) : ¬q < p := by
  rw [lt_def] at *
  omega

end Position

namespace Tree

section Positions

variable {source : Source} {t : Tree} {n : Node}

theorem position_of_parse (h : Tree.parse source = .ok t) (hn : n ∈ t.nodes) :
    n.position = .ofOffset source n.start :=
  (isOf_of_parse h).position_eq hn

theorem isBoundary_of_parse (h : Tree.parse source = .ok t) (hn : n ∈ t.nodes) :
    source.IsBoundary n.start := by
  obtain ⟨-, rfl⟩ := Tree.wellFormed_of_parse h
  by_cases hroot : n = t.root
  · rw [hroot, (isOf_of_parse h).start_root]
    exact Source.isBoundary_zero _
  · obtain ⟨before, text, after, hsource, -, -, hstart, -⟩ := exists_text_of_parse h hn hroot
    rw [hsource, hstart, List.append_assoc]
    exact Source.isBoundary_byteLength before _

end Positions

/-- The position of a node counts the line feeds before it and the characters after the last of
them, so a carriage return is one of these characters unless a line feed follows.  Positions are
ordered as the offsets are, strictly in a text of which every count is below the limit; in any text
neither lines nor the columns within a line ever go back. -/
theorem position_order {source : Source} {t : Tree} (h : Tree.parse source = .ok t) {a b : Node}
    (ha : a ∈ t.nodes) (hb : b ∈ t.nodes) :
    a.position = .ofCounts (1 + (source.takeBytes a.start).count '\n')
      (1 + ((source.takeBytes a.start).rtakeWhile (· ≠ '\n')).length) ∧
    (source.length < Position.limit → (a.start < b.start ↔ a.position < b.position)) ∧
    (a.start ≤ b.start → a.position.line ≤ b.position.line ∧
      ((source.takeBytes a.start).count '\n' = (source.takeBytes b.start).count '\n' →
        a.position.line = b.position.line ∧ a.position.column ≤ b.position.column)) := by
  have hforward (hlength : source.length < Position.limit) {m n : Node} (hm : m ∈ t.nodes)
      (hn : n ∈ t.nodes) (hlt : m.start < n.start) : m.position < n.position := by
    obtain ⟨text, htext⟩ := Source.takeBytes_prefix (Nat.le_of_lt hlt) source
    have hshort : (source.takeBytes n.start).length < Position.limit := by
      have hsplit := congrArg List.length (Source.takeBytes_append_dropBytes n.start source)
      rw [List.length_append] at hsplit
      omega
    rw [position_of_parse h hm, position_of_parse h hn, Position.ofOffset, Position.ofOffset,
      ← htext]
    rw [← htext] at hshort
    refine Position.after_lt_after ?_ hshort
    rintro rfl
    have hmstart := isBoundary_of_parse h hm
    rw [Source.IsBoundary, ← List.append_nil (Source.takeBytes _ _), htext,
      isBoundary_of_parse h hn] at hmstart
    omega
  refine ⟨?_, fun hlength => ⟨hforward hlength ha hb, fun hlt => ?_⟩, fun hle => ?_⟩
  · rw [position_of_parse h ha, Position.ofOffset, Position.after_eq]
  · rcases Nat.lt_trichotomy a.start b.start with hab | hab | hba
    · exact hab
    · rw [position_of_parse h ha, position_of_parse h hb, hab] at hlt
      exact absurd hlt (Position.lt_asymm hlt)
    · exact absurd (hforward hlength hb ha hba) (Position.lt_asymm hlt)
  · rw [position_of_parse h ha, position_of_parse h hb, Position.ofOffset, Position.ofOffset]
    exact Position.after_le_after (Source.takeBytes_prefix hle source)

/-- A comment with a character of two bytes, a carriage return inside the first statement and one
before the line feed between the two. -/
theorem position_order_of_returns :
    ∃ t a b, Tree.parse "/*é*/use\ra;\r\nuse b;".toList = .ok t ∧ a ∈ t.nodes ∧ b ∈ t.nodes ∧
      a.start = 10 ∧ b.start = 14 ∧ a.position < b.position := by
  have hstarts : (Tree.parse "/*é*/use\ra;\r\nuse b;".toList).toOption.map
      (fun t => t.nodes.map Node.start) = some [0, 6, 10, 10, 10, 14, 18, 18, 18] := by
    decide +kernel
  obtain ⟨t, h, hmap⟩ := exists_parse_of_map hstarts
  have hten : 10 ∈ t.nodes.map Node.start := by rw [hmap]; decide
  have hfourteen : 14 ∈ t.nodes.map Node.start := by rw [hmap]; decide
  obtain ⟨a, ha, hastart⟩ := List.mem_map.mp hten
  obtain ⟨b, hb, hbstart⟩ := List.mem_map.mp hfourteen
  refine ⟨t, a, b, h, ha, hb, hastart, hbstart, ?_⟩
  refine ((position_order h ha hb).2.1 (by decide)).mp ?_
  rw [hastart, hbstart]
  decide

end Tree

end XiFront

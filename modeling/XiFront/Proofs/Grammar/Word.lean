import XiFront.Proofs.Grammar.Cut

namespace XiFront

open Peg

instance (w : List Char) : Decidable (IsReserved w) :=
  decidable_of_iff (∃ k ∈ Keyword.all, k.spelling = w)
    ⟨fun ⟨k, _, hk⟩ => ⟨k, hk⟩, fun ⟨k, hk⟩ => ⟨k, k.mem_all, hk⟩⟩

def Rule.words : List Rule :=
  ident :: Keyword.all.map kw

namespace Peg.Cursor

def word (c : Cursor) : Source :=
  c.rest.takeWhile isWordChar

def afterWord (c : Cursor) : Cursor :=
  ⟨c.rest.dropWhile isWordChar, c.offset + Source.byteLength c.word⟩

variable (c : Cursor)

theorem reads_word : c.Reads c.word c.afterWord :=
  ⟨List.takeWhile_append_dropWhile.symm, rfl⟩

theorem isWordChar_of_mem_word : ∀ y ∈ c.word, isWordChar y = true :=
  fun _ hy => List.all_eq_true.mp List.all_takeWhile _ hy

theorem afterWord_stops : ∀ y ∈ c.afterWord.rest.head?, isWordChar y = false := by
  intro y hy
  have hstop := List.head?_dropWhile_not isWordChar c.rest
  rw [show (c.rest.dropWhile isWordChar).head? = some y from hy] at hstop
  simpa using hstop

end Peg.Cursor

theorem isPlain_of_isWordChar {z : Char} (h : isWordChar z = true) : isPlain z = true := by
  rw [isWordChar, Bool.or_eq_true, decide_eq_true_eq] at h
  rcases h with h | rfl
  · have hset : Charset.alphanumeric ≠ .any := by decide
    exact isPlain_of_contains hset h
  · decide

theorem IsIdentifier.firm {w : List Char} (h : IsIdentifier w) (v : List Char) :
    IsFirm (w ++ v) := by
  obtain ⟨z, zs, rfl, hz⟩ := h.start
  obtain ⟨hblank, hslash⟩ := isBlank_of_isPlain (isPlain_of_isWordChar (isWordChar_of_start hz))
  exact .cons hblank hslash

theorem answer_kw_word (k : Keyword) (c : Cursor) :
    grammar.answer true (.rule (.kw k)) c = if c.word = k.spelling then .ok [] c.afterWord else .fail := by
  have hanswer := answer_kw_tight k c.isWordChar_of_mem_word c.afterWord_stops c.offset
  rwa [← c.reads_word.eq_mk.1] at hanswer

theorem answer_keyword_word (c : Cursor) :
    grammar.answer true (.rule .keyword) c = if IsReserved c.word then .ok [] c.afterWord else .fail := by
  have hword := c.isWordChar_of_mem_word
  have hreserved := answer_keyword_of_reserved hword c.afterWord_stops c.offset
  have hfree := answer_keyword_eq_fail_iff hword c.afterWord_stops c.offset
  rw [← c.reads_word.eq_mk.1] at hreserved hfree
  split
  · next h => exact hreserved h
  · next h => exact hfree.mpr h

theorem answer_ident_word (c : Cursor) :
    grammar.answer true (.rule .ident) c =
      if c.rest.head?.any isWordStart ∧ ¬IsReserved c.word then .ok [] c.afterWord else .fail := by
  have hbody : (grammar.production .ident).body =
      .seq (.neg (.rule .keyword))
        (.seq (.alt (.char .letter) (Rule.symbol '_')) (.star (.rule .identChar))) := rfl
  rw [Grammar.answer_rule_tight, hbody, Grammar.answer_seq_tight, Grammar.answer_neg,
    answer_keyword_word]
  by_cases hreserved : IsReserved c.word
  · rw [if_pos hreserved, if_neg fun h => h.2 hreserved]
    rfl
  rw [if_neg hreserved, Reply.resume_fail, Reply.resume_ok, Grammar.answer_seq_tight, isClass_wordStart]
  obtain ⟨_ | ⟨y, ys⟩, offset⟩ := c
  · rfl
  rw [Cursor.next?_cons]
  by_cases hstart : isWordStart y = true
  · have hy : isWordChar y = true := isWordChar_of_start hstart
    rw [if_pos hstart, if_pos ⟨hstart, hreserved⟩, Reply.ofOption_some, Reply.resume_ok,
      isClass_identChar.star]
    simp [Cursor.afterWord, Cursor.word, hy, Nat.add_assoc]
  · rw [if_neg hstart, if_neg fun h => hstart h.1]
    rfl

/-- The reply of a rule that reads the word at a cursor. -/
def wordReply (tight : Bool) (r : Rule) (c : Cursor) : Reply Rule :=
  .ok (if tight then [] else [.node r c.offset c.afterWord.offset []]) c.afterWord

theorem isToken_of_mem_words {r : Rule} (h : r ∈ Rule.words) : r.isToken = true := by
  rcases List.mem_cons.mp h with rfl | h
  · rfl
  · obtain ⟨k, -, rfl⟩ := List.mem_map.mp h
    rfl

theorem answer_word_of_tight {r : Rule} (hr : r ∈ Rule.words) {c : Cursor} {p : Prop} [Decidable p]
    (h : grammar.answer true (.rule r) c = if p then .ok [] c.afterWord else .fail) (tight : Bool) :
    grammar.answer tight (.rule r) c = if p then wordReply tight r c else .fail := by
  cases tight with
  | true => exact h
  | false =>
      have htoken := isToken_of_mem_words hr
      have htight : (grammar.production r).tight = true := Rule.tight_of_isToken htoken
      have hpair : (grammar.production r).leavesPair = true := Rule.leavesPair_of_isToken htoken
      rw [Grammar.answer_rule_tight] at h
      rw [Grammar.answer_rule_loose, htight, hpair, h]
      split <;> rfl

theorem answer_ident_of_rest {w v : List Char} (hw : IsIdentifier w)
    (hv : ∀ z ∈ v.head?, isWordChar z = false) {c : Cursor} (hc : c.rest = w ++ v) :
    ∃ d, c.Reads w d ∧ d.rest = v ∧
      grammar.answer false (.rule .ident) c = .ok [.node .ident c.offset d.offset []] d := by
  have hword : c.word = w := by rw [Cursor.word, hc, takeWhile_word hw.word hv]
  have hread := c.reads_word
  have hanswer := answer_word_of_tight List.mem_cons_self (answer_ident_word c) false
  obtain ⟨z, zs, rfl, hz⟩ := hw.start
  rw [hword] at hread hanswer
  rw [if_pos ⟨by rw [hc]; exact hz, hw.free⟩] at hanswer
  exact ⟨c.afterWord, hread, List.append_cancel_left (hread.rest.symm.trans hc), hanswer⟩

/-- At every cursor, an identifier is read if a letter or an underscore comes next and the longest
word there is not reserved, and a keyword if that word is its own spelling.  Each reads the whole
word, and no two of these rules read it. -/
theorem run_reads_word {σ : Type} (observe : Observer Rule σ) (s : σ) (m : Mode) (c : Cursor)
    (more : Nat) :
    let reply (r : Rule) :=
      (grammar.run observe (grammar.fuel c.rest.length + more) m (.rule r) c s).1
    (reply .ident = if c.rest.head?.any isWordStart ∧ ¬IsReserved c.word then
        wordReply m.tight .ident c else .fail) ∧
      (∀ k : Keyword, reply (.kw k) = if c.word = k.spelling then
        wordReply m.tight (.kw k) c else .fail) ∧
      ∀ r ∈ Rule.words, ∀ r' ∈ Rule.words, reply r ≠ .fail → reply r' ≠ .fail → r = r' := by
  intro reply
  have hreply (r : Rule) : reply r = grammar.answer m.tight (.rule r) c :=
    run_eq_answer r (Nat.le_add_right _ more) observe m s
  have hident : reply .ident = if c.rest.head?.any isWordStart ∧ ¬IsReserved c.word then
      wordReply m.tight .ident c else .fail := by
    rw [hreply]
    exact answer_word_of_tight List.mem_cons_self (answer_ident_word c) m.tight
  have hkw (k : Keyword) : reply (.kw k) = if c.word = k.spelling then
      wordReply m.tight (.kw k) c else .fail := by
    rw [hreply]
    exact answer_word_of_tight (List.mem_cons_of_mem _ (List.mem_map_of_mem k.mem_all))
      (answer_kw_word k c) m.tight
  have hfree (h : reply .ident ≠ .fail) : ¬IsReserved c.word := by
    rw [hident] at h
    exact (Classical.not_not.mp fun hne => h (if_neg hne)).2
  have hspelling {k : Keyword} (h : reply (.kw k) ≠ .fail) : c.word = k.spelling := by
    rw [hkw] at h
    exact Classical.not_not.mp fun hne => h (if_neg hne)
  refine ⟨hident, hkw, fun r hr r' hr' hread hread' => ?_⟩
  rcases List.mem_cons.mp hr with rfl | hr
  · rcases List.mem_cons.mp hr' with rfl | hr'
    · rfl
    · obtain ⟨k, -, rfl⟩ := List.mem_map.mp hr'
      exact absurd ⟨k, (hspelling hread').symm⟩ (hfree hread)
  · obtain ⟨k, -, rfl⟩ := List.mem_map.mp hr
    rcases List.mem_cons.mp hr' with rfl | hr'
    · exact absurd ⟨k, (hspelling hread).symm⟩ (hfree hread')
    · obtain ⟨k', -, rfl⟩ := List.mem_map.mp hr'
      rw [Keyword.spelling_injective ((hspelling hread).symm.trans (hspelling hread'))]

end XiFront

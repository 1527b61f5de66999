import XiFront.Proofs.Text.Escape
import XiFront.Text.Quoted

namespace XiFront

namespace Escape

theorem hexDigit?_digitChar {d : Nat} (h : d < 16) :
    isHexDigit d.digitChar = true ∧ hexDigit? d.digitChar = some d := by
  have hall : ∀ d < 16, isHexDigit d.digitChar = true ∧ hexDigit? d.digitChar = some d := by decide
  exact hall d h

theorem hexDigits?_append (value : Nat) (digits : List Char) (c : Char) :
    hexDigits? value (digits ++ [c]) =
      (hexDigits? value digits).bind fun v => hexDigits? v [c] := by
  induction digits generalizing value with
  | nil => rfl
  | cons d ds ih =>
      rw [List.cons_append, hexDigits?, hexDigits?]
      cases hexDigit? d with
      | none => rfl
      | some v => exact ih _

theorem hexDigits?_toDigits (n : Nat) :
    (∀ c ∈ Nat.toDigits 16 n, isHexDigit c = true) ∧
      hexDigits? 0 (Nat.toDigits 16 n) = some n := by
  induction n using Nat.strongRecOn with
  | ind n ih =>
      rw [Nat.toDigits_eq_if (by decide)]
      by_cases hlt : n < 16
      · obtain ⟨hdigit, hvalue⟩ := hexDigit?_digitChar hlt
        rw [if_pos hlt]
        refine ⟨List.forall_mem_singleton.mpr hdigit, ?_⟩
        simp [hexDigits?, hvalue]
      · obtain ⟨hdigits, hvalues⟩ := ih (n / 16) (by omega)
        obtain ⟨hdigit, hvalue⟩ := hexDigit?_digitChar (Nat.mod_lt n (by decide : 0 < 16))
        rw [if_neg hlt, hexDigits?_append, hvalues]
        refine ⟨List.forall_mem_append.mpr ⟨hdigits, List.forall_mem_singleton.mpr hdigit⟩, ?_⟩
        simp only [Option.bind_some, hexDigits?, hvalue, Option.some.injEq]
        omega

theorem scalar?_toNat (c : Char) : scalar? c.toNat = some c := by
  have hvalid : c.toNat.isValidChar := c.valid
  rw [scalar?, dif_pos hvalid]
  rfl

end Escape

namespace Quoted

open Escape

variable {quote : Char}

theorem exists_item (hquote : isQuote quote = true) {c : Char} (hc : c ≠ '\x00') :
    ∃ i : Item, encodeChar quote c = i.text ∧ (∀ rest, i.SpelledBefore rest) ∧ ¬i.Faulty ∧
      i.value = [c] ∧ i ≠ .plain quote ∧ i.isSpaces = false := by
  have hsingle {d : Char} (hd : simple? d = some c) :
      (∀ rest, (Item.single d).SpelledBefore rest) ∧ ¬(Item.single d).Faulty ∧
        (Item.single d).value = [c] ∧ Item.single d ≠ .plain quote ∧
        (Item.single d).isSpaces = false :=
    ⟨fun _ => by rw [Item.SpelledBefore, hd]; rfl, id, by rw [Item.value, hd]; rfl, Item.noConfusion, rfl⟩
  unfold encodeChar
  split
  · exact absurd rfl hc
  · exact ⟨.single 't', rfl, hsingle rfl⟩
  · exact ⟨.single 'r', rfl, hsingle rfl⟩
  · exact ⟨.single 'n', rfl, hsingle rfl⟩
  · exact ⟨.single '\\', rfl, hsingle rfl⟩
  · next hzero htab hreturn hline hslash =>
      split
      · next heq =>
          refine ⟨.single c, rfl, hsingle ?_⟩
          simp only [isQuote, Bool.or_eq_true, decide_eq_true_eq] at hquote
          rcases hquote with rfl | rfl <;> rw [heq] <;> rfl
      · next hne =>
          split
          · obtain ⟨hdigits, hvalue⟩ := hexDigits?_toDigits c.toNat
            refine ⟨.unicode (Nat.toDigits 16 c.toNat), by simp [codePoint, Item.text],
              fun _ => ⟨Nat.toDigits_ne_nil, hdigits⟩, ?_, ?_, Item.noConfusion, rfl⟩
            · rintro ⟨value, hvalue', hinvalid⟩
              cases hvalue.symm.trans hvalue'
              exact hinvalid c.valid
            · rw [Item.value, hvalue, Option.bind_some, scalar?_toNat]
              rfl
          · exact ⟨.plain c, rfl, fun _ => ⟨hslash, hreturn, hline⟩, id, rfl, by simpa using hne, rfl⟩

theorem shows_digit {d : Char} (hd : d.isDigit = true) :
    (isExtending d || isUnprintable d) = false := by
  have hall : ∀ i < 10, (isExtending (.ofNat (48 + i)) || isUnprintable (.ofNat (48 + i))) = false := by
    decide
  simp only [Char.isDigit, Bool.and_eq_true, decide_eq_true_eq] at hd
  have hlow : 48 ≤ d.toNat := hd.1
  have hhigh : d.toNat ≤ 57 := hd.2
  have hof := hall (d.toNat - 48) (by omega)
  rwa [show 48 + (d.toNat - 48) = d.toNat by omega, Char.ofNat_toNat] at hof

theorem encodeChar_digit (hquote : isQuote quote = true) {d : Char} (hd : d.isDigit = true) :
    encodeChar quote d = [d] := by
  unfold encodeChar
  split
  · exact absurd hd (by decide)
  · exact absurd hd (by decide)
  · exact absurd hd (by decide)
  · exact absurd hd (by decide)
  · exact absurd hd (by decide)
  · split
    · next heq =>
        rw [heq] at hd
        simp only [isQuote, Bool.or_eq_true, decide_eq_true_eq] at hquote
        rcases hquote with rfl | rfl <;> exact absurd hd (by decide)
    · rw [shows_digit hd, if_neg Bool.false_ne_true]

theorem encode_digits (hquote : isQuote quote = true) {ds : List Char}
    (hds : ∀ d ∈ ds, d.isDigit = true) : ds.flatMap (encodeChar quote) = ds := by
  induction ds with
  | nil => rfl
  | cons d ds ih =>
      rw [List.forall_mem_cons] at hds
      rw [List.flatMap_cons, encodeChar_digit hquote hds.1, ih hds.2]
      rfl

theorem head_encode {text : List Char} (h : ∀ c ∈ text.head?, c.isDigit = false) :
    ∀ c ∈ (text.flatMap (encodeChar quote)).head?, c.isDigit = false := by
  cases text with
  | nil => exact nofun
  | cons c cs =>
      have hshape : (∃ ds, encodeChar quote c = '\\' :: ds) ∨ encodeChar quote c = [c] := by
        unfold encodeChar codePoint
        split
        all_goals first
          | exact .inl ⟨_, rfl⟩
          | split
            · exact .inl ⟨_, rfl⟩
            · split
              · exact .inl ⟨_, rfl⟩
              · exact .inr rfl
      intro d hd
      rw [List.flatMap_cons] at hd
      rcases hshape with ⟨ds, hds⟩ | hc
      · rw [hds] at hd
        cases Option.some.inj hd
        rfl
      · rw [hc] at hd
        cases Option.some.inj hd
        exact h c rfl

def ZeroBeforeDigit (text : List Char) : Prop :=
  ∃ before d after, text = before ++ '\x00' :: d :: after ∧ d.isDigit = true

theorem zeroBeforeDigit_cons_iff {c : Char} {cs : List Char} :
    ZeroBeforeDigit (c :: cs) ↔
      (c = '\x00' ∧ ∃ d ∈ cs.head?, d.isDigit = true) ∨ ZeroBeforeDigit cs := by
  constructor
  · rintro ⟨_ | ⟨b, before⟩, d, after, h, hd⟩
    · obtain ⟨rfl, rfl⟩ := List.cons.inj h
      exact .inl ⟨rfl, d, rfl, hd⟩
    · exact .inr ⟨before, d, after, (List.cons.inj h).2, hd⟩
  · rintro (⟨rfl, d, hd, hdigit⟩ | ⟨before, d, after, rfl, hd⟩)
    · obtain ⟨after, rfl⟩ := List.head?_eq_some_iff.mp hd
      exact ⟨[], d, after, rfl, hdigit⟩
    · exact ⟨c :: before, d, after, rfl, hd⟩

theorem not_zeroBeforeDigit_singleton (c : Char) : ¬ZeroBeforeDigit [c] := by
  rw [zeroBeforeDigit_cons_iff, not_or]
  exact ⟨nofun, fun ⟨before, _, _, h, _⟩ => by simp at h⟩

theorem exists_digits (n : Nat) (text : List Char) :
    ∃ ds rest, text = ds ++ rest ∧ ds.length ≤ n ∧ (∀ d ∈ ds, d.isDigit = true) ∧
      (ds.length < n → ∀ c ∈ rest.head?, c.isDigit = false) := by
  induction n generalizing text with
  | zero => exact ⟨[], text, rfl, Nat.le_refl 0, nofun, nofun⟩
  | succ n ih =>
      match text with
      | [] => exact ⟨[], [], rfl, Nat.zero_le _, nofun, fun _ => nofun⟩
      | c :: cs =>
          cases hc : c.isDigit with
          | false =>
              refine ⟨[], c :: cs, rfl, Nat.zero_le _, nofun, fun _ d hd => ?_⟩
              cases Option.some.inj hd
              exact hc
          | true =>
              obtain ⟨ds, rest, rfl, hlen, hds, hstop⟩ := ih cs
              refine ⟨c :: ds, rest, rfl, Nat.succ_le_succ hlen, List.forall_mem_cons.mpr ⟨hc, hds⟩,
                fun hlt => hstop (Nat.lt_of_succ_lt_succ hlt)⟩

theorem ofDigits_zero_lt {ds : List Char} (hlen : ds.length ≤ 2)
    (hds : ∀ d ∈ ds, d.isDigit = true) : Decimal.ofDigits 0 ('0' :: ds) < 256 := by
  have hdigit {d : Char} (hd : d.isDigit = true) : d.toNat - '0'.toNat ≤ 9 := by
    simp only [Char.isDigit, Bool.and_eq_true, decide_eq_true_eq] at hd
    have hhigh : d.toNat ≤ 57 := hd.2
    have hzero : '0'.toNat = 48 := rfl
    omega
  rw [Decimal.ofDigits_cons]
  match ds, hlen with
  | [], _ => decide
  | [a], _ =>
      have ha := hdigit (hds a (by simp))
      simp only [Decimal.ofDigits_cons, Decimal.ofDigits_nil]
      omega
  | [a, b], _ =>
      have ha := hdigit (hds a (by simp))
      have hb := hdigit (hds b (by simp))
      simp only [Decimal.ofDigits_cons, Decimal.ofDigits_nil]
      omega

/-- The items that a text is written with.  They stand for the text, or for less of it where a zero
comes right before a digit. -/
structure Writes (quote : Char) (is : List Item) (text : List Char) : Prop where
  spelled : Spelled is (text.flatMap (encodeChar quote))
  sound : ∀ i ∈ is, ¬i.Faulty ∧ i ≠ .plain quote ∧ i.isSpaces = false
  value : is.flatMap Item.value = text ∧ ¬ZeroBeforeDigit text ∨
    (is.flatMap Item.value).length < text.length ∧ ZeroBeforeDigit text

namespace Writes

variable {is : List Item} {text : List Char}

theorem nil : Writes quote [] [] :=
  ⟨.nil, nofun, .inl ⟨rfl, fun ⟨before, _, _, h, _⟩ => by simp at h⟩⟩

theorem length_le (h : Writes quote is text) : (is.flatMap Item.value).length ≤ text.length := by
  rcases h.value with ⟨hsame, -⟩ | ⟨hless, -⟩
  · exact Nat.le_of_eq (congrArg List.length hsame)
  · exact Nat.le_of_lt hless

theorem cons (hquote : isQuote quote = true) {c : Char} (hc : c ≠ '\x00')
    (h : Writes quote is text) : ∃ i, Writes quote (i :: is) (c :: text) := by
  obtain ⟨i, htext, hspells, hfaulty, hvalue, hplain, hspaces⟩ := exists_item hquote hc
  refine ⟨i, ?_, List.forall_mem_cons.mpr ⟨⟨hfaulty, hplain, hspaces⟩, h.sound⟩, ?_⟩
  · rw [List.flatMap_cons, htext]
    exact .cons (hspells _) h.spelled
  · rw [List.flatMap_cons, hvalue, List.singleton_append, zeroBeforeDigit_cons_iff]
    rcases h.value with ⟨hsame, hfree⟩ | ⟨hless, hzero⟩
    · exact .inl ⟨by rw [hsame], not_or.mpr ⟨fun h => hc h.1, hfree⟩⟩
    · exact .inr ⟨Nat.succ_lt_succ hless, .inr hzero⟩

theorem zero (hquote : isQuote quote = true) {ds : List Char} (hlen : ds.length ≤ 2)
    (hds : ∀ d ∈ ds, d.isDigit = true)
    (hstop : ds.length < 2 → ∀ c ∈ text.head?, c.isDigit = false) (h : Writes quote is text) :
    Writes quote (.decimal ('0' :: ds) :: is) ('\x00' :: (ds ++ text)) := by
  refine ⟨?_, List.forall_mem_cons.mpr ⟨⟨?_, nofun, rfl⟩, h.sound⟩, ?_⟩
  · have htext : ('\x00' :: (ds ++ text)).flatMap (encodeChar quote) =
        (Item.decimal ('0' :: ds)).text ++ text.flatMap (encodeChar quote) := by
      rw [List.flatMap_cons, List.flatMap_append, encode_digits hquote hds]
      rfl
    rw [htext]
    refine .cons ⟨⟨List.cons_ne_nil _ _, Nat.succ_le_succ hlen, ?_⟩, fun hshort => ?_⟩ h.spelled
    · exact List.forall_mem_cons.mpr ⟨rfl, hds⟩
    · exact head_encode (hstop (Nat.lt_of_succ_lt_succ hshort))
  · exact Nat.not_lt.mpr (Nat.le_of_lt_succ (ofDigits_zero_lt hlen hds))
  · cases ds with
    | nil =>
        have hhead : ¬∃ d ∈ text.head?, d.isDigit = true := by
          rintro ⟨d, hd, hdigit⟩
          rw [hstop (by simp) d hd] at hdigit
          exact Bool.false_ne_true hdigit
        rw [List.nil_append, zeroBeforeDigit_cons_iff, List.flatMap_cons]
        rcases h.value with ⟨hsame, hfree⟩ | ⟨hless, hzero⟩
        · refine .inl ⟨?_, not_or.mpr ⟨fun h => hhead h.2, hfree⟩⟩
          rw [hsame]
          rfl
        · exact .inr ⟨Nat.succ_lt_succ hless, .inr hzero⟩
    | cons d ds =>
        -- One character stands for the zero and at least one digit.
        refine .inr ⟨?_, [], d, ds ++ text, rfl, hds d List.mem_cons_self⟩
        have hle := h.length_le
        simp only [List.flatMap_cons, List.length_append, Item.value, List.length_cons,
          List.length_nil]
        omega

end Writes

theorem exists_writes (hquote : isQuote quote = true) (text : List Char) :
    ∃ is, Writes quote is text := by
  induction hlength : text.length using Nat.strongRecOn generalizing text with
  | ind length ih =>
      subst hlength
      match text with
      | [] => exact ⟨[], .nil⟩
      | c :: cs =>
          by_cases hc : c = '\x00'
          · obtain ⟨ds, rest, rfl, hlen, hds, hstop⟩ := exists_digits 2 cs
            have hlt : rest.length < (c :: (ds ++ rest)).length := by
              rw [List.length_cons, List.length_append]
              omega
            obtain ⟨is, his⟩ := ih rest.length hlt rest rfl
            rw [hc]
            exact ⟨_, his.zero hquote hlen hds hstop⟩
          · obtain ⟨is, his⟩ := ih cs.length (Nat.lt_succ_self _) cs rfl
            obtain ⟨i, hi⟩ := his.cons hquote hc
            exact ⟨i :: is, hi⟩

theorem exists_writes_char (hquote : isQuote quote = true) (c : Char) :
    ∃ i, Writes quote [i] [c] := by
  by_cases hc : c = '\x00'
  · have hzero : Writes quote [.decimal ('0' :: [])] ('\x00' :: ([] ++ [])) :=
      Writes.nil.zero hquote (Nat.zero_le 2) (by simp) (by simp)
    rw [hc]
    exact ⟨_, hzero⟩
  · exact Writes.nil.cons hquote hc

/-- What is written between quotes is read back as it was, unless a zero comes right before a digit. -/
theorem Writes.decode {is : List Item} {text : List Char} (h : Writes quote is text) :
    ∃ read, Escape.decode (text.flatMap (encodeChar quote)) = .ok read ∧
      (read = text ↔ ¬ZeroBeforeDigit text) := by
  have hdecode := (decode_eq_contents h.spelled fun i hi => (h.sound i hi).1).1
  rw [contents_eq_flatMap h.spelled] at hdecode
  · refine ⟨_, hdecode, ?_⟩
    rcases h.value with ⟨hsame, hfree⟩ | ⟨hless, hzero⟩
    · exact iff_of_true hsame hfree
    · exact iff_of_false (fun heq => absurd hless (by simp [heq])) (not_not.mpr hzero)
  · intro blanks hwithin
    exact nomatch (h.sound _ (hwithin.subset List.mem_cons_self)).2.2

end Quoted

end XiFront

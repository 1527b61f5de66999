import Mathlib.Data.List.TakeDrop
import XiFront.Number.Binary64
import XiFront.Text.Escape

namespace XiFront.Escape

def isHexDigit (c : Char) : Bool :=
  c.isDigit || ('a' ≤ c && c ≤ 'f') || ('A' ≤ c && c ≤ 'F')

def isSpace (c : Char) : Bool :=
  c = ' ' || c = '\t' || c = '\r' || c = '\n'

/-- One character of a literal or one escape. -/
inductive Item where
  | plain (c : Char)
  | single (c : Char)
  | byte (high low : Char)
  | decimal (digits : List Char)
  | unicode (digits : List Char)
  | spaces (blanks : List Char)

namespace Item

def text : Item → List Char
  | plain c => [c]
  | single c => ['\\', c]
  | byte high low => ['\\', 'x', high, low]
  | decimal digits => '\\' :: digits
  | unicode digits => '\\' :: 'u' :: '\x7b' :: (digits ++ ['\x7d'])
  | spaces blanks => '\\' :: 'z' :: blanks

/-- How an item may be written in front of the rest of a body: numbers and blanks are read as far
as they go. -/
def SpelledBefore (rest : List Char) : Item → Prop
  | plain c => c ≠ '\\' ∧ c ≠ '\r' ∧ c ≠ '\n'
  | single c => (simple? c).isSome
  | byte high low => isHexDigit high ∧ isHexDigit low
  | decimal digits =>
      (digits ≠ [] ∧ digits.length ≤ 3 ∧ ∀ c ∈ digits, c.isDigit) ∧
        (digits.length < 3 → ∀ c ∈ rest.head?, c.isDigit = false)
  | unicode digits => digits ≠ [] ∧ ∀ c ∈ digits, isHexDigit c
  | spaces blanks => (∀ c ∈ blanks, isSpace c) ∧ ∀ c ∈ rest.head?, isSpace c = false

def Faulty : Item → Prop
  | decimal digits => 255 < Decimal.ofDigits 0 digits
  | unicode digits => ∃ value, hexDigits? 0 digits = some value ∧ ¬value.isValidChar
  | _ => False

def value : Item → List Char
  | plain c => [c]
  | single c => (simple? c).toList
  | byte high low => ((hexDigits? 0 [high, low]).map Char.ofNat).toList
  | decimal digits => [.ofNat (Decimal.ofDigits 0 digits)]
  | unicode digits => ((hexDigits? 0 digits).bind scalar?).toList
  | spaces _ => []

def isSpaces : Item → Bool
  | spaces _ => true
  | _ => false

/-- The characters that are dropped when they come right after the blanks of a `z`. -/
def isBlank : Item → Bool
  | plain c => Escape.isBlank c
  | _ => false

end Item

/-- What the items of a body stand for together, where `dropping` says that a `z` comes before
them. -/
def contents (dropping : Bool) : List Item → List Char
  | [] => []
  | i :: is =>
      if dropping && i.isBlank then contents true is else i.value ++ contents i.isSpaces is

/-- The items that spell the body of a literal. -/
inductive Spelled : List Item → List Char → Prop
  | nil : Spelled [] []
  | cons {i : Item} {is : List Item} {rest : List Char} (h : i.SpelledBefore rest)
      (hrest : Spelled is rest) : Spelled (i :: is) (i.text ++ rest)

theorem spelled_singleton_iff {i : Item} {body : List Char} :
    Spelled [i] body ↔ body = i.text ∧ i.SpelledBefore [] := by
  constructor
  · intro h
    cases h with
    | cons hi hnil =>
        cases hnil
        exact ⟨List.append_nil _, hi⟩
  · rintro ⟨rfl, hi⟩
    rw [← List.append_nil i.text]
    exact .cons hi .nil

theorem hexDigit?_isSome {c : Char} (h : isHexDigit c = true) :
    ∃ d, hexDigit? c = some d ∧ d < 16 := by
  unfold isHexDigit at h
  unfold hexDigit?
  simp only [Bool.or_eq_true, Bool.and_eq_true, decide_eq_true_eq] at h
  split
  · next hdigit =>
      refine ⟨_, rfl, ?_⟩
      simp only [Char.isDigit, Bool.and_eq_true, decide_eq_true_eq] at hdigit
      have hle : c.toNat ≤ 57 := hdigit.2
      have hzero : '0'.toNat = 48 := rfl
      omega
  · next hdigit =>
      split
      · next hlower =>
          refine ⟨_, rfl, ?_⟩
          have hle : c.toNat ≤ 102 := hlower.2
          have ha : 'a'.toNat = 97 := rfl
          omega
      · next hlower =>
          have hupper := (h.resolve_left fun h => h.elim hdigit hlower)
          rw [if_pos hupper]
          refine ⟨_, rfl, ?_⟩
          have hle : c.toNat ≤ 70 := hupper.2
          have hA : 'A'.toNat = 65 := rfl
          omega

theorem hexDigits?_isSome {digits : List Char} (h : ∀ c ∈ digits, isHexDigit c = true)
    (value : Nat) : ∃ v, hexDigits? value digits = some v := by
  induction digits generalizing value with
  | nil => exact ⟨value, rfl⟩
  | cons c cs ih =>
      obtain ⟨d, hd, -⟩ := hexDigit?_isSome (h c List.mem_cons_self)
      rw [hexDigits?, hd]
      exact ih (fun x hx => h x (List.mem_cons_of_mem c hx)) _

theorem hex?_eq {digits : List Char} (hne : digits ≠ [])
    (h : ∀ c ∈ digits, isHexDigit c = true) : hex? digits = hexDigits? 0 digits := by
  cases digits with
  | nil => exact absurd rfl hne
  | cons c cs =>
      unfold hex?
      split
      · next heq => exact nomatch heq
      · next heq =>
          cases heq
          exact absurd (h '+' List.mem_cons_self) (by decide)
      · rfl

theorem decimal_eq {digits rest : List Char} {n : Nat} (hlen : digits.length ≤ n)
    (h : ∀ c ∈ digits, c.isDigit = true)
    (hrest : digits.length < n → ∀ c ∈ rest.head?, c.isDigit = false) (value : Nat) :
    decimal value n (digits ++ rest) = (Decimal.ofDigits value digits, rest) := by
  induction digits generalizing value n with
  | nil =>
      cases n with
      | zero => simp [decimal]
      | succ n =>
          cases rest with
          | nil => simp [decimal]
          | cons c cs =>
              have hc : c.isDigit = false := hrest (by simp) c rfl
              simp [decimal, hc]
  | cons d ds ih =>
      cases n with
      | zero => simp at hlen
      | succ n =>
          have hd : d.isDigit = true := h d List.mem_cons_self
          rw [Decimal.ofDigits_cons]
          simp only [List.cons_append, decimal, hd, if_true]
          refine ih (by simpa using hlen) (fun x hx => h x (List.mem_cons_of_mem d hx)) ?_ _
          intro hlt
          exact hrest (by simpa using hlt)

theorem untilBrace_eq {digits : List Char} (h : ∀ c ∈ digits, isHexDigit c = true)
    (rest : List Char) : untilBrace (digits ++ '\x7d' :: rest) = some (digits, rest) := by
  induction digits with
  | nil => simp [untilBrace]
  | cons c cs ih =>
      have hc : c ≠ '\x7d' := by
        rintro rfl
        exact absurd (h _ List.mem_cons_self) (by decide)
      simp [untilBrace, hc, ih fun x hx => h x (List.mem_cons_of_mem c hx)]

theorem escape_single {c : Char} (h : (simple? c).isSome = true) (rest : List Char) :
    ∃ d, (Item.single c).value = [d] ∧ escape (c :: rest) = .ok ([d], rest) := by
  obtain ⟨d, hd⟩ := Option.isSome_iff_exists.mp h
  exact ⟨d, by rw [Item.value, hd]; rfl, by rw [escape, hd]⟩

theorem escape_byte {high low : Char} (hhigh : isHexDigit high = true)
    (hlow : isHexDigit low = true) (rest : List Char) :
    ∃ d, (Item.byte high low).value = [d] ∧
      escape ('x' :: high :: low :: rest) = .ok ([d], rest) := by
  obtain ⟨a, ha, hlta⟩ := hexDigit?_isSome hhigh
  obtain ⟨b, hb, hltb⟩ := hexDigit?_isSome hlow
  have hdigits : hexDigits? 0 [high, low] = some (16 * (16 * 0 + a) + b) := by
    simp [hexDigits?, ha, hb]
  have hhex : hex? [high, low] = some (16 * (16 * 0 + a) + b) := by
    rw [hex?_eq (by simp) (by simp [hhigh, hlow]), hdigits]
  refine ⟨.ofNat (16 * (16 * 0 + a) + b), by rw [Item.value, hdigits]; rfl, ?_⟩
  have hbyte : byteEscape (high :: low :: rest) = .ok ([.ofNat (16 * (16 * 0 + a) + b)], rest) := by
    unfold byteEscape
    rw [show (high :: low :: rest).take 2 = [high, low] from rfl, hhex]
    simp only [show 16 * (16 * 0 + a) + b < 256 by omega, if_true]
    rfl
  exact hbyte

theorem escape_digit {c : Char} (h : c.isDigit = true) (rest : List Char) :
    escape (c :: rest) =
      match decimal (c.toNat - '0'.toNat) 2 rest with
      | (value, after) =>
          if value < 256 then .ok ([.ofNat value], after) else .error (.decimalTooLarge value) := by
  have hne : ∀ d : Char, d.isDigit = false → c ≠ d := by
    rintro d hd rfl
    simp [h] at hd
  have hsimple : simple? c = none := by
    unfold simple?
    split
    all_goals first | rfl | exact absurd h (by decide)
  simp [escape, hsimple, hne 'x' (by decide), hne 'z' (by decide), hne 'u' (by decide), h]

theorem escape_decimal {digits rest : List Char}
    (h : (Item.decimal digits).SpelledBefore rest) :
    escape (digits ++ rest) =
      if Decimal.ofDigits 0 digits < 256 then
        .ok ([.ofNat (Decimal.ofDigits 0 digits)], rest)
      else .error (.decimalTooLarge (Decimal.ofDigits 0 digits)) := by
  obtain ⟨⟨hne, hlen, hdigits⟩, hgreedy⟩ := h
  cases digits with
  | nil => exact absurd rfl hne
  | cons c cs =>
      have hcs : decimal (c.toNat - '0'.toNat) 2 (cs ++ rest) =
          (Decimal.ofDigits (c.toNat - '0'.toNat) cs, rest) := by
        refine decimal_eq (Nat.le_of_succ_le_succ hlen) ?_ ?_ _
        · exact fun x hx => hdigits x (List.mem_cons_of_mem c hx)
        · intro hlt
          exact hgreedy (by simp only [List.length_cons]; omega)
      rw [List.cons_append, escape_digit (hdigits c List.mem_cons_self), hcs]
      rw [Decimal.ofDigits_cons, Nat.mul_zero, Nat.zero_add]

theorem escape_unicode {digits : List Char} (hne : digits ≠ [])
    (h : ∀ c ∈ digits, isHexDigit c = true) (rest : List Char) :
    escape ('u' :: '\x7b' :: (digits ++ '\x7d' :: rest)) =
      match (hexDigits? 0 digits).bind scalar? with
      | some c => .ok ([c], rest)
      | none => .error (.unicode digits) := by
  have hescape : escape ('u' :: '\x7b' :: (digits ++ '\x7d' :: rest)) =
      unicodeEscape ('\x7b' :: (digits ++ '\x7d' :: rest)) := rfl
  cases hvalue : (hexDigits? 0 digits).bind scalar? with
  | none => simp only [hescape, unicodeEscape, untilBrace_eq h, hex?_eq hne h, hvalue]
  | some c => simp only [hescape, unicodeEscape, untilBrace_eq h, hex?_eq hne h, hvalue]

theorem isBlank_of_isSpace {c : Char} (h : isSpace c = true) : isBlank c = true := by
  simp only [isSpace, Bool.or_eq_true, decide_eq_true_eq] at h
  rcases h with ((rfl | rfl) | rfl) | rfl <;> rfl

theorem escape_spaces {blanks : List Char} (h : ∀ c ∈ blanks, isSpace c = true)
    (rest : List Char) :
    escape ('z' :: (blanks ++ rest)) = .ok ([], rest.dropWhile isBlank) := by
  have hdrop : (blanks ++ rest).dropWhile isBlank = rest.dropWhile isBlank :=
    List.dropWhile_append_of_pos fun c hc => isBlank_of_isSpace (h c hc)
  rw [← hdrop]
  rfl

@[simp] theorem decode_nil : decode [] = .ok [] := by
  rw [decode]

theorem decode_plain {c : Char} (h : c ≠ '\\') (rest : List Char) :
    decode (c :: rest) = (decode rest).map (c :: ·) := by
  rw [decode, if_neg h]
  cases decode rest <;> rfl

theorem decode_escape (rest : List Char) :
    decode ('\\' :: rest) =
      (escape rest).bind fun r => (decode r.2).map (r.1 ++ ·) := by
  rw [decode, if_pos rfl]
  cases hescape : escape rest with
  | error e => rfl
  | ok r =>
      simp only [Except.bind]
      cases decode r.2 <;> rfl

theorem decode_item {i : Item} {rest : List Char} (h : i.SpelledBefore rest) :
    (i.Faulty ∧ ∃ e, decode (i.text ++ rest) = .error e) ∨
      ¬i.Faulty ∧
        (((∀ blanks, i ≠ .spaces blanks) ∧
            ∃ c, i.value = [c] ∧ decode (i.text ++ rest) = (decode rest).map (c :: ·)) ∨
          ∃ blanks, i = .spaces blanks ∧
            decode (i.text ++ rest) = decode (rest.dropWhile isBlank)) := by
  cases i with
  | plain c => exact .inr ⟨nofun, .inl ⟨nofun, c, rfl, decode_plain h.1 rest⟩⟩
  | single c =>
      obtain ⟨d, hvalue, hd⟩ := escape_single h rest
      refine .inr ⟨nofun, .inl ⟨nofun, d, hvalue, ?_⟩⟩
      rw [Item.text, List.cons_append, decode_escape, List.singleton_append, hd]
      rfl
  | byte high low =>
      obtain ⟨d, hvalue, hd⟩ := escape_byte h.1 h.2 rest
      refine .inr ⟨nofun, .inl ⟨nofun, d, hvalue, ?_⟩⟩
      rw [Item.text, List.cons_append, decode_escape]
      exact congrArg (Except.bind · _) hd
  | decimal digits =>
      have hescape := escape_decimal h
      rw [Item.text, List.cons_append, decode_escape, hescape]
      by_cases hlt : Decimal.ofDigits 0 digits < 256
      · rw [if_pos hlt]
        refine .inr ⟨?_, .inl ⟨nofun, _, rfl, rfl⟩⟩
        intro hfaulty
        have : 255 < Decimal.ofDigits 0 digits := hfaulty
        omega
      · rw [if_neg hlt]
        refine .inl ⟨?_, _, rfl⟩
        show 255 < Decimal.ofDigits 0 digits
        omega
  | unicode digits =>
      obtain ⟨value, hvalue⟩ := hexDigits?_isSome h.2 0
      have hescape := escape_unicode h.1 h.2 rest
      have htext : (Item.unicode digits).text ++ rest =
          '\\' :: 'u' :: '\x7b' :: (digits ++ '\x7d' :: rest) := by
        simp [Item.text]
      rw [htext, decode_escape, hescape, Item.value, hvalue, Option.bind_some, scalar?]
      by_cases hvalid : value.isValidChar
      · rw [dif_pos hvalid]
        refine .inr ⟨?_, .inl ⟨nofun, _, rfl, rfl⟩⟩
        rintro ⟨other, hother, hinvalid⟩
        cases hvalue.symm.trans hother
        exact hinvalid hvalid
      · rw [dif_neg hvalid]
        exact .inl ⟨⟨value, hvalue, hvalid⟩, _, rfl⟩
  | spaces blanks =>
      refine .inr ⟨nofun, .inr ⟨blanks, rfl, ?_⟩⟩
      have hescape := escape_spaces h.1 rest
      have htext : (Item.spaces blanks).text ++ rest = '\\' :: 'z' :: (blanks ++ rest) := rfl
      rw [htext, decode_escape, hescape]
      show (decode (rest.dropWhile isBlank)).map ([] ++ ·) = _
      cases decode (rest.dropWhile isBlank) <;> rfl

theorem dropWhile_text (i : Item) (rest : List Char) :
    (i.text ++ rest).dropWhile isBlank =
      if i.isBlank then rest.dropWhile isBlank else i.text ++ rest := by
  cases i with
  | plain c => cases hc : isBlank c <;> simp [Item.text, Item.isBlank, hc]
  | _ => rfl

/-- A body can be decoded unless an item is faulty.  The blanks after a `z` may be followed by
further characters that are dropped with them, which are items by themselves. -/
theorem decode_isOk_iff {is : List Item} {body : List Char} (h : Spelled is body) :
    ((∃ text, decode body = .ok text) ↔ ∀ i ∈ is, ¬i.Faulty) ∧
      ((∃ text, decode (body.dropWhile isBlank) = .ok text) ↔ ∀ i ∈ is, ¬i.Faulty) := by
  induction h with
  | nil => simp
  | @cons i is rest hi _ ih =>
      have hwhole : (∃ text, decode (i.text ++ rest) = .ok text) ↔ ∀ j ∈ i :: is, ¬j.Faulty := by
        rw [List.forall_mem_cons]
        rcases decode_item hi with ⟨hfaulty, e, he⟩ | ⟨hsound, ⟨-, c, -, hc⟩ | ⟨blanks, -, hb⟩⟩
        · simp [he, hfaulty]
        · rw [hc, ← ih.1]
          cases decode rest <;> simp [Except.map, hsound]
        · rw [hb, ih.2]
          simp [hsound]
      refine ⟨hwhole, ?_⟩
      rw [dropWhile_text]
      split
      · next hblank =>
          rw [ih.2, List.forall_mem_cons]
          cases i with
          | plain c => simp [Item.Faulty]
          | _ => exact nomatch hblank
      · exact hwhole

/-- A body stands for what its items stand for, with and without the blanks at its front. -/
theorem decode_eq_contents {is : List Item} {body : List Char} (h : Spelled is body)
    (hsound : ∀ i ∈ is, ¬i.Faulty) :
    decode body = .ok (contents false is) ∧
      decode (body.dropWhile isBlank) = .ok (contents true is) := by
  induction h with
  | nil => exact ⟨decode_nil, decode_nil⟩
  | @cons i is rest hi _ ih =>
      rw [List.forall_mem_cons] at hsound
      obtain ⟨hkept, hdropped⟩ := ih hsound.2
      have hwhole : decode (i.text ++ rest) = .ok (i.value ++ contents i.isSpaces is) := by
        rcases decode_item hi with
          ⟨hfaulty, -⟩ | ⟨-, ⟨hne, c, hc, hdecode⟩ | ⟨blanks, rfl, hdecode⟩⟩
        · exact absurd hfaulty hsound.1
        · have hspaces : i.isSpaces = false := by
            cases i with
            | spaces blanks => exact absurd rfl (hne blanks)
            | _ => rfl
          rw [hdecode, hkept, hc, hspaces]
          rfl
        · rw [hdecode, hdropped]
          rfl
      refine ⟨hwhole, ?_⟩
      rw [dropWhile_text, contents, Bool.true_and]
      split
      · exact hdropped
      · exact hwhole

/-- Unless a form feed comes right after the blanks of a `z`, nothing else is dropped: the grammar
takes every other blank along. -/
theorem contents_eq_flatMap {is : List Item} {body : List Char} (h : Spelled is body)
    (hfeed : ∀ blanks, ¬[.spaces blanks, .plain '\x0c'] <:+: is) :
    contents false is = is.flatMap Item.value := by
  induction h with
  | nil => rfl
  | @cons i is rest hi hrest ih =>
      have htail := ih fun blanks hwithin =>
        hfeed blanks (hwithin.trans (List.infix_cons List.infix_rfl))
      rw [contents, Bool.false_and, if_neg Bool.false_ne_true, List.flatMap_cons, ← htail]
      congr 1
      cases i with
      | spaces blanks =>
          cases hrest with
          | nil => rfl
          | @cons j js rest hj _ =>
              have hblank : j.isBlank = false := by
                cases j with
                | plain c =>
                    have hspace : isSpace c = false := hi.2 c rfl
                    have hne : c ≠ '\x0c' := by
                      rintro rfl
                      exact hfeed blanks ⟨[], js, rfl⟩
                    simp only [isSpace, Bool.or_eq_false_iff, decide_eq_false_iff_not] at hspace
                    simp [Item.isBlank, isBlank, hspace, hne]
                | _ => rfl
              simp [contents, Item.isSpaces, hblank]
      | _ => rfl

theorem decode_single_iff {i : Item} (h : i.SpelledBefore []) :
    (∃ c, decode i.text = .ok [c]) ↔ ¬i.Faulty ∧ ∀ blanks, i ≠ .spaces blanks := by
  have hitem := decode_item h
  rw [List.append_nil] at hitem
  rcases hitem with ⟨hfaulty, e, he⟩ | ⟨hsound, ⟨hne, c, -, hc⟩ | ⟨blanks, rfl, hb⟩⟩
  · simp [he, hfaulty]
  · rw [hc]
    exact ⟨fun _ => ⟨hsound, hne⟩, fun _ => ⟨c, by simp [Except.map]⟩⟩
  · rw [hb]
    simp

theorem stripQuotes_eq {quote : Char} (h : isQuote quote = true) (body : List Char) :
    stripQuotes (quote :: (body ++ [quote])) = body := by
  simp [stripQuotes, h]

end XiFront.Escape

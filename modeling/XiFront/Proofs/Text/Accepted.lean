import XiFront.Proofs.Grammar.Quote

namespace XiFront

open Peg

namespace Escape

theorem isHexDigit_of_hexDigit? {c : Char} {d : Nat} (h : hexDigit? c = some d) :
    isHexDigit c = true := by
  unfold hexDigit? at h
  unfold isHexDigit
  split at h
  · next hdigit => simp [hdigit]
  · split at h
    · next hlower => simp [hlower]
    · split at h
      · next hupper => simp [hupper]
      · cases h

theorem isHexDigit_of_hexDigits? {digits : List Char} {value v : Nat}
    (h : hexDigits? value digits = some v) : ∀ c ∈ digits, isHexDigit c = true := by
  induction digits generalizing value with
  | nil => exact nofun
  | cons c cs ih =>
      rw [hexDigits?] at h
      split at h
      · next d hd => exact List.forall_mem_cons.mpr ⟨isHexDigit_of_hexDigit? hd, ih h⟩
      · cases h

theorem hex?_eq_some {cs : List Char} {v : Nat} (h : hex? cs = some v) :
    ∃ sign digits, cs = sign ++ digits ∧ (sign = [] ∨ sign = ['+']) ∧ digits ≠ [] ∧
      ∀ c ∈ digits, isHexDigit c = true := by
  unfold hex? at h
  split at h
  · cases h
  · next c cs => exact ⟨['+'], c :: cs, rfl, .inr rfl, nofun, isHexDigit_of_hexDigits? h⟩
  · next hne _ => exact ⟨[], cs, rfl, .inl rfl, hne, isHexDigit_of_hexDigits? h⟩

theorem untilBrace_eq_some {cs digits rest : List Char}
    (h : untilBrace cs = some (digits, rest)) : cs = digits ++ '\x7d' :: rest := by
  induction cs generalizing digits with
  | nil => exact nomatch h
  | cons c cs ih =>
      unfold untilBrace at h
      split at h
      · next hc =>
          obtain ⟨rfl, rfl⟩ := Prod.mk.inj (Option.some.inj h)
          rw [hc]
          rfl
      · split at h
        · next ds r hsplit =>
            obtain ⟨rfl, rfl⟩ := Prod.mk.inj (Option.some.inj h)
            rw [ih hsplit]
            rfl
        · cases h

theorem decimal_reads (value n : Nat) (cs : List Char) :
    ∃ digits, cs = digits ++ (decimal value n cs).2 ∧ digits.length ≤ n ∧
      ∀ c ∈ digits, c.isDigit = true := by
  induction n generalizing value cs with
  | zero => exact ⟨[], rfl, Nat.le_refl 0, nofun⟩
  | succ n ih =>
      cases cs with
      | nil => exact ⟨[], rfl, Nat.zero_le _, nofun⟩
      | cons c cs =>
          unfold decimal
          split
          · next hc =>
              obtain ⟨digits, hread, hlen, hdigits⟩ := ih (10 * value + (c.toNat - '0'.toNat)) cs
              exact ⟨c :: digits, congrArg (c :: ·) hread, Nat.succ_le_succ hlen,
                List.forall_mem_cons.mpr ⟨hc, hdigits⟩⟩
          · exact ⟨[], rfl, Nat.zero_le _, nofun⟩

theorem decode_escape_of_ok {cs value rest : List Char} (h : escape cs = .ok (value, rest)) :
    decode ('\\' :: cs) = (decode rest).map (value ++ ·) := by
  rw [decode_escape, h]
  rfl

def IsPlain (piece : List Char) : Prop :=
  ∃ c, c ≠ '\\' ∧ piece = [c]

/-- A text that the grammar reads as one escape, to its end. -/
def IsEscape (piece : List Char) : Prop :=
  Spans (.rule .escaped) piece []

/-- Hexadecimal digits with a plus sign in front of them. -/
inductive IsSigned : List Char → Prop
  | byte {d : Char} (hd : isHexDigit d = true) : IsSigned ['\\', 'x', '+', d]
  | unicode {digits : List Char} (hne : digits ≠ []) (h : ∀ d ∈ digits, isHexDigit d = true) :
      IsSigned ('\\' :: 'u' :: '\x7b' :: '+' :: (digits ++ ['\x7d']))

def IsHalved (piece : List Char) : Prop :=
  ∃ d, isHexDigit d = true ∧ piece = ['\\', 'x', d]

/-- The pieces into which the decoder cuts a body. -/
inductive Accepted : List (List Char) → List Char → Prop
  | nil : Accepted [] []
  | plain {c : Char} {ps : List (List Char)} {rest : List Char} (hc : c ≠ '\\')
      (h : Accepted ps rest) : Accepted ([c] :: ps) (c :: rest)
  | proper {p : List Char} {ps : List (List Char)} {rest : List Char} (hp : IsEscape p)
      (h : Accepted ps rest) : Accepted (p :: ps) (p ++ rest)
  | signed {p : List Char} {ps : List (List Char)} {rest : List Char} (hp : IsSigned p)
      (h : Accepted ps rest) : Accepted (p :: ps) (p ++ rest)
  | halved {p : List Char} (hp : IsHalved p) : Accepted [p] p

theorem isEscape_iff {p : List Char} :
    IsEscape p ↔ ∃ i : Item, p = i.text ∧ i.SpelledBefore [] ∧ ∀ c, i ≠ .plain c := by
  constructor
  · intro h
    have hcharacter : Spans (.rule .character) p [] := .rule (.alt_left h)
    obtain ⟨i, rfl, hi⟩ := takes_character (hcharacter 0)
    refine ⟨i, rfl, hi, ?_⟩
    rintro c rfl
    obtain ⟨s₁, c₁, s₂, hs, h₁, -⟩ := Grammar.takes_seq.mp (Grammar.takes_rule.mp (h 0))
    obtain ⟨rfl, -⟩ := Grammar.takes_text.mp h₁
    exact hi.1 (List.cons.inj hs).1
  · rintro ⟨i, rfl, hi, hne⟩ offset
    rcases Grammar.takes_alt.mp (Grammar.takes_rule.mp (spans_character hi offset)) with h | ⟨-, h⟩
    · exact h
    · obtain ⟨y, hy, htext, -⟩ := isClass_regular.takes.mp h
      cases i with
      | plain c => exact absurd rfl (hne c)
      | _ =>
          obtain ⟨rfl, -⟩ := List.cons.inj htext
          exact absurd hy (by decide)

namespace Accepted

variable {ps : List (List Char)} {rest : List Char}

theorem plains {s : List Char} (hs : ∀ c ∈ s, c ≠ '\\') (h : Accepted ps rest) :
    Accepted (s.map ([·]) ++ ps) (s ++ rest) := by
  induction s with
  | nil => exact h
  | cons c s ih =>
      rw [List.forall_mem_cons] at hs
      exact .plain hs.1 (ih hs.2)

theorem item {i : Item} (hi : i.SpelledBefore []) (hne : ∀ c, i ≠ .plain c)
    (h : Accepted ps rest) : Accepted (i.text :: ps) (i.text ++ rest) :=
  .proper (isEscape_iff.mpr ⟨i, rfl, hi, hne⟩) h

theorem exists_of_byteEscape {cs value : List Char} (hread : byteEscape cs = .ok (value, rest))
    (h : Accepted ps rest) : ∃ qs, Accepted qs ('\\' :: 'x' :: cs) := by
  unfold byteEscape at hread
  split at hread
  · next n hhex =>
      split at hread
      · obtain ⟨-, rfl⟩ := Prod.mk.inj (Except.ok.inj hread)
        obtain ⟨sign, digits, hsame, hsign, hne, hdigits⟩ := hex?_eq_some hhex
        match cs, digits with
        | _, [] => exact absurd rfl hne
        | [], d :: ds => simp at hsame
        | [a], d :: ds =>
            rcases hsign with rfl | rfl
            · cases hsame
              exact ⟨_, .halved ⟨a, hdigits a List.mem_cons_self, rfl⟩⟩
            · simp at hsame
        | a :: b :: cs, d :: ds =>
            rcases hsign with rfl | rfl
            · cases hsame
              exact ⟨_, h.item (i := .byte a b) ⟨hdigits a (by simp), hdigits b (by simp)⟩ (by simp)⟩
            · cases hsame
              exact ⟨_, .signed (.byte (hdigits b (by simp))) h⟩
      · cases hread
  · cases hread

theorem exists_of_unicodeEscape {cs value : List Char}
    (hread : unicodeEscape cs = .ok (value, rest)) (h : Accepted ps rest) :
    ∃ qs, Accepted qs ('\\' :: 'u' :: cs) := by
  unfold unicodeEscape at hread
  split at hread
  · next cs =>
      split at hread
      · cases hread
      · next inner after hsplit =>
          split at hread
          · next c hvalue =>
              obtain ⟨-, rfl⟩ := Prod.mk.inj (Except.ok.inj hread)
              obtain ⟨n, hhex, -⟩ := Option.bind_eq_some_iff.mp hvalue
              obtain ⟨sign, digits, rfl, hsign, hne, hdigits⟩ := hex?_eq_some hhex
              rw [untilBrace_eq_some hsplit]
              rcases hsign with rfl | rfl
              · have hitem := h.item (i := .unicode digits) ⟨hne, hdigits⟩ (by simp)
                exact ⟨_, by simpa [Item.text] using hitem⟩
              · have hsigned := signed (.unicode hne hdigits) h
                exact ⟨_, by simpa using hsigned⟩
          · cases hread
  · cases hread

theorem exists_of_escape {cs value : List Char} (hread : escape cs = .ok (value, rest))
    (h : Accepted ps rest) : ∃ qs, Accepted qs ('\\' :: cs) := by
  cases cs with
  | nil => cases hread
  | cons c cs =>
      simp only [escape] at hread
      split at hread
      · next d hsimple =>
          obtain ⟨-, rfl⟩ := Prod.mk.inj (Except.ok.inj hread)
          exact ⟨_, h.item (i := .single c) (by rw [Item.SpelledBefore, hsimple]; rfl) (by simp)⟩
      split at hread
      · next hc =>
          subst hc
          exact exists_of_byteEscape hread h
      split at hread
      · next hc =>
          subst hc
          obtain ⟨-, rfl⟩ := Prod.mk.inj (Except.ok.inj hread)
          -- The blanks that are skipped may have a form feed among them, so each is a piece.
          have hblanks : ∀ b ∈ cs.takeWhile isBlank, b ≠ '\\' := by
            rintro b hb rfl
            exact absurd (List.all_eq_true.mp List.all_takeWhile _ hb) (by decide)
          have hitem := (h.plains hblanks).item (i := .spaces []) ⟨by simp, by simp⟩ (by simp)
          rw [List.takeWhile_append_dropWhile] at hitem
          exact ⟨_, hitem⟩
      split at hread
      · next hc =>
          subst hc
          exact exists_of_unicodeEscape hread h
      split at hread
      · next hc =>
          split at hread
          · obtain ⟨-, rfl⟩ := Prod.mk.inj (Except.ok.inj hread)
            obtain ⟨digits, hsame, hlen, hdigits⟩ := decimal_reads (c.toNat - '0'.toNat) 2 cs
            rw [hsame]
            refine ⟨_, h.item (i := .decimal (c :: digits)) ⟨⟨List.cons_ne_nil c digits, ?_, ?_⟩, by simp⟩ (by simp)⟩
            · exact Nat.succ_le_succ hlen
            · exact List.forall_mem_cons.mpr ⟨hc, hdigits⟩
          · cases hread
      · cases hread

theorem exists_of_decode {body text : List Char} (h : decode body = .ok text) :
    ∃ ps, Accepted ps body := by
  fun_induction decode body generalizing text with
  | case1 => exact ⟨[], .nil⟩
  | case2 | case3 | case5 => exact nomatch h
  | case4 cs value rest hread others hrest ih =>
      obtain ⟨ps, hps⟩ := ih hrest
      exact exists_of_escape hread hps
  | case6 c cs hc others hrest ih =>
      obtain ⟨ps, hps⟩ := ih hrest
      exact ⟨_, .plain hc hps⟩

theorem eq_flatten {body : List Char} (h : Accepted ps body) : body = ps.flatten := by
  induction h with
  | nil => rfl
  | plain hc _ ih => rw [List.flatten_cons, ← ih]; rfl
  | proper hp _ ih => rw [List.flatten_cons, ← ih]
  | signed hp _ ih => rw [List.flatten_cons, ← ih]
  | halved hp => exact (List.append_nil _).symm

theorem sound {body : List Char} (h : Accepted ps body) (hplus : '+' ∉ body)
    (hend : ∀ d, ¬['\\', 'x', d] <:+ body) : ∀ p ∈ ps, IsPlain p ∨ IsEscape p := by
  induction h with
  | nil => exact nofun
  | @plain c ps rest hc _ ih =>
      refine List.forall_mem_cons.mpr ⟨.inl ⟨c, hc, rfl⟩, ih ?_ fun d hd => ?_⟩
      · exact fun hmem => hplus (List.mem_cons_of_mem c hmem)
      · exact hend d (hd.trans (List.suffix_cons c rest))
  | @proper p ps rest hp _ ih =>
      refine List.forall_mem_cons.mpr ⟨.inr hp, ih ?_ fun d hd => ?_⟩
      · exact fun hmem => hplus (List.mem_append_right p hmem)
      · exact hend d (hd.trans (List.suffix_append p rest))
  | signed hp _ _ =>
      refine absurd (List.mem_append_left _ ?_) hplus
      cases hp <;> simp
  | halved hp =>
      obtain ⟨d, -, rfl⟩ := hp
      exact absurd List.suffix_rfl (hend d)

end Accepted

/-- A body that is decoded falls into characters and escapes of the grammar, with two exceptions:
hexadecimal digits may have a plus sign in front of them, and the last byte may lack a digit. -/
theorem decode_accepts {body text : List Char} (h : decode body = .ok text) :
    ∃ pieces, body = pieces.flatten ∧ Accepted pieces body ∧
      ('+' ∉ body → (∀ d, ¬['\\', 'x', d] <:+ body) →
        ∀ p ∈ pieces, IsPlain p ∨ IsEscape p) := by
  obtain ⟨pieces, hpieces⟩ := Accepted.exists_of_decode h
  exact ⟨pieces, hpieces.eq_flatten, hpieces, hpieces.sound⟩

/-- A line break behind a backslash, a form feed behind a `z`, and a byte cut short. -/
theorem decode_accepts_halved :
    decode ['\\', '\n', '\\', 'z', '\x0c', '\\', 'x', '4'] = .ok ['\n', '\x04'] ∧
      ∃ pieces, ['\\', '\n', '\\', 'z', '\x0c', '\\', 'x', '4'] = pieces.flatten ∧
        Accepted pieces ['\\', '\n', '\\', 'z', '\x0c', '\\', 'x', '4'] := by
  have hdecode : decode ['\\', '\n', '\\', 'z', '\x0c', '\\', 'x', '4'] = .ok ['\n', '\x04'] := by
    have hbreak : escape ['\n', '\\', 'z', '\x0c', '\\', 'x', '4'] =
        .ok (['\n'], ['\\', 'z', '\x0c', '\\', 'x', '4']) := rfl
    have hblanks : escape ['z', '\x0c', '\\', 'x', '4'] = .ok ([], ['\\', 'x', '4']) := rfl
    have hbyte : escape ['x', '4'] = .ok (['\x04'], []) := rfl
    rw [decode_escape_of_ok hbreak, decode_escape_of_ok hblanks, decode_escape_of_ok hbyte, decode_nil]
    rfl
  obtain ⟨pieces, hflatten, haccepted, -⟩ := decode_accepts hdecode
  exact ⟨hdecode, pieces, hflatten, haccepted⟩

theorem IsEscape.digits_of_byte {q r cs : List Char} (hq : IsEscape q)
    (h : '\\' :: 'x' :: cs = q ++ r) :
    ∃ high low rest, cs = high :: low :: rest ∧ isHexDigit high = true ∧ isHexDigit low = true := by
  obtain ⟨i, rfl, hi, hne⟩ := isEscape_iff.mp hq
  cases i with
  | plain c => exact absurd rfl (hne c)
  | single c =>
      cases h
      exact nomatch hi
  | byte high low =>
      cases h
      exact ⟨high, low, r, rfl, hi⟩
  | decimal digits =>
      obtain ⟨d, ds, rfl⟩ := List.exists_cons_of_ne_nil hi.1.1
      cases h
      exact nomatch hi.1.2.2 'x' List.mem_cons_self
  | unicode digits => exact nomatch (List.cons.inj (List.cons.inj h).2).1
  | spaces blanks => exact nomatch (List.cons.inj (List.cons.inj h).2).1

/-- A body with a plus sign before its digits is decoded, but falls into no escapes of the grammar. -/
theorem decode_accepts_sign :
    decode ['\\', 'x', '+', 'f'] = .ok ['\x0f'] ∧
      ¬∃ pieces : List (List Char), ['\\', 'x', '+', 'f'] = pieces.flatten ∧
        ∀ p ∈ pieces, IsPlain p ∨ IsEscape p := by
  constructor
  · have hbyte : escape ['x', '+', 'f'] = .ok (['\x0f'], []) := rfl
    rw [decode_escape_of_ok hbyte, decode_nil]
    rfl
  rintro ⟨pieces, hflatten, hsound⟩
  cases pieces with
  | nil => exact nomatch hflatten
  | cons p ps =>
      rw [List.flatten_cons] at hflatten
      rcases hsound p List.mem_cons_self with ⟨c, hc, rfl⟩ | hescape
      · exact hc (List.cons.inj hflatten).1.symm
      · obtain ⟨high, low, rest, hdigits, hhigh, -⟩ := hescape.digits_of_byte hflatten
        cases hdigits
        exact absurd hhigh (by decide)

end Escape

end XiFront

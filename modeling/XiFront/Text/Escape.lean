namespace XiFront.Escape

inductive Fault where
  /-- Nothing follows the backslash. -/
  | unterminated
  | byte (digits : List Char)
  | braceMissing
  | unicodeUnterminated
  | unicode (digits : List Char)
  | decimalTooLarge (value : Nat)
  | unknown (c : Char)
  deriving DecidableEq, Repr

def Fault.message : Fault → String
  | unterminated => "unterminated escape sequence"
  | byte digits => "invalid escape '\\x" ++ String.ofList digits ++ "'"
  | braceMissing => "expected '\x7b' after '\\u'"
  | unicodeUnterminated => "unterminated unicode escape"
  | unicode digits => "invalid escape '\\u\x7b" ++ String.ofList digits ++ "\x7d'"
  | decimalTooLarge value => "decimal escape '\\" ++ toString value ++ "' too large"
  | unknown c => "invalid escape '\\" ++ String.singleton c ++ "'"

def hexDigit? (c : Char) : Option Nat :=
  if c.isDigit then some (c.toNat - '0'.toNat)
  else if 'a' ≤ c ∧ c ≤ 'f' then some (c.toNat - 'a'.toNat + 10)
  else if 'A' ≤ c ∧ c ≤ 'F' then some (c.toNat - 'A'.toNat + 10)
  else none

def hexDigits? (value : Nat) : List Char → Option Nat
  | [] => some value
  | c :: cs =>
      match hexDigit? c with
      | some d => hexDigits? (16 * value + d) cs
      | none => none

/-- The value of one or more hexadecimal digits, which a plus sign may precede. -/
def hex? : List Char → Option Nat
  | [] => none
  | '+' :: c :: cs => hexDigits? 0 (c :: cs)
  | cs => hexDigits? 0 cs

def scalar? (n : Nat) : Option Char :=
  if h : n.isValidChar then some (.ofNatAux n h) else none

def untilBrace : List Char → Option (List Char × List Char)
  | [] => none
  | c :: cs =>
      if c = '\x7d' then some ([], cs)
      else
        match untilBrace cs with
        | some (digits, rest) => some (c :: digits, rest)
        | none => none

def decimal (value : Nat) : Nat → List Char → Nat × List Char
  | 0, cs => (value, cs)
  | _ + 1, [] => (value, [])
  | n + 1, c :: cs =>
      if c.isDigit then decimal (10 * value + (c.toNat - '0'.toNat)) n cs
      else (value, c :: cs)

def isBlank (c : Char) : Bool :=
  c = ' ' || c = '\t' || c = '\n' || c = '\x0c' || c = '\r'

/-- The character that an escape of a single letter or sign stands for. -/
def simple? : Char → Option Char
  | 'a' => some '\x07'
  | 'b' => some '\x08'
  | 'f' => some '\x0c'
  | 'n' => some '\n'
  | '\n' => some '\n'
  | 'r' => some '\r'
  | 't' => some '\t'
  | 'v' => some '\x0b'
  | '\\' => some '\\'
  | '"' => some '"'
  | '\'' => some '\''
  | _ => none

def byteEscape (cs : List Char) : Except Fault (List Char × List Char) :=
  match hex? (cs.take 2) with
  | some n => if n < 256 then .ok ([.ofNat n], cs.drop 2) else .error (.byte (cs.take 2))
  | none => .error (.byte (cs.take 2))

def unicodeEscape : List Char → Except Fault (List Char × List Char)
  | '\x7b' :: cs =>
      match untilBrace cs with
      | none => .error .unicodeUnterminated
      | some (digits, rest) =>
          match (hex? digits).bind scalar? with
          | some c => .ok ([c], rest)
          | none => .error (.unicode digits)
  | _ => .error .braceMissing

/-- What follows a backslash: the characters it stands for, and what is left. -/
def escape : List Char → Except Fault (List Char × List Char)
  | [] => .error .unterminated
  | c :: cs =>
      match simple? c with
      | some d => .ok ([d], cs)
      | none =>
          if c = 'x' then byteEscape cs
          else if c = 'z' then .ok ([], cs.dropWhile isBlank)
          else if c = 'u' then unicodeEscape cs
          else if c.isDigit then
            match decimal (c.toNat - '0'.toNat) 2 cs with
            | (value, rest) =>
                if value < 256 then .ok ([.ofNat value], rest)
                else .error (.decimalTooLarge value)
          else .error (.unknown c)

theorem length_untilBrace {cs digits rest : List Char}
    (h : untilBrace cs = some (digits, rest)) : rest.length < cs.length := by
  induction cs generalizing digits with
  | nil => simp [untilBrace] at h
  | cons c cs ih =>
      unfold untilBrace at h
      split at h
      · simp_all
      · split at h
        · next d r hs =>
            obtain ⟨_, rfl⟩ := Prod.mk.inj (Option.some.inj h)
            have := ih hs
            simp only [List.length_cons]
            omega
        · exact nomatch h

theorem length_decimal (value n : Nat) (cs : List Char) :
    (decimal value n cs).2.length ≤ cs.length := by
  induction n generalizing value cs with
  | zero => simp [decimal]
  | succ n ih =>
      cases cs with
      | nil => simp [decimal]
      | cons c cs =>
          unfold decimal
          split
          · have := ih (10 * value + (c.toNat - '0'.toNat)) cs
            simp only [List.length_cons]
            omega
          · exact Nat.le_refl _

theorem length_dropWhile_le (p : Char → Bool) (cs : List Char) :
    (cs.dropWhile p).length ≤ cs.length := by
  induction cs with
  | nil => simp
  | cons c cs ih =>
      rw [List.dropWhile_cons]
      split
      · simp only [List.length_cons]
        omega
      · exact Nat.le_refl _

theorem length_byteEscape {cs value rest : List Char}
    (h : byteEscape cs = .ok (value, rest)) : rest.length ≤ cs.length := by
  unfold byteEscape at h
  split at h
  · split at h
    · obtain ⟨_, rfl⟩ := Prod.mk.inj (Except.ok.inj h)
      simp only [List.length_drop]
      omega
    · exact nomatch h
  · exact nomatch h

theorem length_unicodeEscape {cs value rest : List Char}
    (h : unicodeEscape cs = .ok (value, rest)) : rest.length ≤ cs.length := by
  unfold unicodeEscape at h
  split at h
  · split at h
    · exact nomatch h
    · next hs =>
        split at h
        · obtain ⟨_, rfl⟩ := Prod.mk.inj (Except.ok.inj h)
          have := length_untilBrace hs
          simp only [List.length_cons]
          omega
        · exact nomatch h
  · exact nomatch h

theorem length_escape {cs value rest : List Char}
    (h : escape cs = .ok (value, rest)) : rest.length < cs.length := by
  cases cs with
  | nil => exact nomatch h
  | cons c cs =>
      apply Nat.lt_succ_of_le
      simp only [escape] at h
      split at h
      · obtain ⟨_, rfl⟩ := Prod.mk.inj (Except.ok.inj h)
        exact Nat.le_refl _
      · split at h
        · exact length_byteEscape h
        · split at h
          · obtain ⟨_, rfl⟩ := Prod.mk.inj (Except.ok.inj h)
            exact length_dropWhile_le isBlank cs
          · split at h
            · exact length_unicodeEscape h
            · split at h
              · split at h
                · obtain ⟨_, rfl⟩ := Prod.mk.inj (Except.ok.inj h)
                  exact length_decimal (c.toNat - '0'.toNat) 2 cs
                · exact nomatch h
              · exact nomatch h

def decode (body : List Char) : Except Fault (List Char) :=
  match body with
  | [] => .ok []
  | c :: cs =>
      if c = '\\' then
        match _h : escape cs with
        | .error e => .error e
        | .ok (value, rest) =>
            match decode rest with
            | .error e => .error e
            | .ok others => .ok (value ++ others)
      else
        match decode cs with
        | .error e => .error e
        | .ok others => .ok (c :: others)
termination_by body.length
decreasing_by
  · have := length_escape _h
    simp only [List.length_cons]
    omega
  · simp

def isQuote (c : Char) : Bool :=
  c = '"' || c = '\''

def stripQuotes (literal : List Char) : List Char :=
  let inner :=
    match literal with
    | c :: cs => if isQuote c then cs else c :: cs
    | [] => []
  match inner.getLast? with
  | some c => if isQuote c then inner.dropLast else inner
  | none => inner

end XiFront.Escape

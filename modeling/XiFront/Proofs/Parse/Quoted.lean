import XiFront.Ast.Describe
import XiFront.Proofs.Grammar.Literal
import XiFront.Proofs.Lowering.Literal
import XiFront.Proofs.Lowering.Meaning
import XiFront.Proofs.Parse.Constant
import XiFront.Proofs.Precedence.Reading
import XiFront.Proofs.Text.Quoted

namespace XiFront

open Peg Escape Quoted

namespace Escape

theorem spans_items {is : List Item} {inner : List Char} (h : Spelled is inner)
    (hfree : .plain '"' ∉ is) (rest : List Char) :
    Spans (.star (.seq (.neg (Rule.symbol '"')) (.rule .character))) inner ('"' :: rest) := by
  induction h with
  | nil => exact .star_nil (.of_neg (s := ['"']) .text)
  | @cons i is inner hi _ ih =>
      rw [List.mem_cons, not_or] at hfree
      have hbefore : i.SpelledBefore (inner ++ '"' :: rest) := by
        refine (hi.append_quote (show isQuote '"' = true from rfl)).congr ?_
        cases inner <;> rfl
      have hopen : Misses (Rule.symbol '"') (i.text ++ (inner ++ '"' :: rest)) := by
        refine .symbol fun c hc => ?_
        cases i with
        | plain d =>
            rintro rfl
            cases Option.some.inj hc
            exact hfree.1 rfl
        | _ =>
            cases Option.some.inj hc
            decide
      exact .star_cons (.seq (s := []) (.neg hopen) (spans_character hbefore)) (ih hfree.2)

theorem spans_string {is : List Item} {inner : List Char} (h : Spelled is inner)
    (hfree : .plain '"' ∉ is) (rest : List Char) :
    Spans (.rule .strLiteral) ('"' :: inner ++ ['"']) rest :=
  .rule (.seq (s := ['"']) .text (.seq (spans_items h hfree rest) .text))

theorem spans_char {i : Item} (h : i.SpelledBefore []) (rest : List Char) :
    Spans (.rule .charLiteral) ('\'' :: i.text ++ ['\'']) rest := by
  have hbefore : i.SpelledBefore ('\'' :: rest) :=
    (h.append_quote (show isQuote '\'' = true from rfl)).congr rfl
  exact .rule (.seq (s := ['\'']) .text (.seq (spans_character hbefore) .text))

end Escape

variable {source : Source} {r : Rule} {w rest : List Char}

theorem Scans.of_spans {a : Expr Rule} (hr : Rule.production r = .token a)
    (hstore : r.selection = .store) (h : Spans (.rule r) w rest) :
    Scans source (.rule r) w rest (Becomes source r fun n => n.text source = w) := by
  have hbody (offset : Nat) : grammar.answer true a ⟨w ++ rest, offset⟩ =
      .ok [] ⟨rest, offset + Source.byteLength w⟩ := by
    have hanswer := (h offset).1
    have hr' : grammar.production r = .token a := hr
    rwa [Grammar.answer_rule_tight, hr'] at hanswer
  refine (Scans.token hr hbody).mono ?_
  rintro qs ⟨start, stop, hslice, rfl⟩
  rw [hstore]
  exact ⟨.node r start stop [], rfl, rfl, fun next => hslice⟩

def beforeQuoted : List (Expr Rule) :=
  [.rule (.kw .null), .rule (.kw .true_), .rule (.kw .false_), .rule .floatLiteral,
    .rule .intLiteral, anyUnary, .rule (.kw .continue_), .rule .breakExpr, .rule .returnExpr]

theorem avoids_quote {quote : Char} (hr : r.quote? = some quote) :
    ∀ e ∈ beforeQuoted, e.avoids 2 (.sign quote) = true := by
  obtain ⟨-, rfl⟩ | ⟨-, rfl⟩ := Rule.quote?_eq_some_iff.mp hr <;> decide +kernel

def Node.Spells (source : Source) (r : Rule) (w : List Char) (n : Node) : Prop :=
  n.rule = r ∧ n.text source = w

/-- One pair stays, and its node has the rule and the text. -/
def Spells (source : Source) (r : Rule) (w : List Char) (qs : List (Pair Rule)) : Prop :=
  ∃ q, qs = [q] ∧ ∀ next, (Node.ofPair source next q).Spells source r w

theorem scans_literal {quote : Char} (hr : r.quote? = some quote) {body : List Char}
    (h : ∀ rest, Spans (.rule r) (quote :: body) rest) (rest : List Char) :
    Scans source (.rule .expr) (quote :: body) (';' :: rest) (Spells source r (quote :: body)) := by
  have hsign : isWordChar quote = false ∧ isBlank quote = false ∧ quote ≠ '/' := by
    obtain ⟨-, rfl⟩ | ⟨-, rfl⟩ := Rule.quote?_eq_some_iff.mp hr <;> decide
  have hfirm : IsFirm (quote :: body ++ ';' :: rest) := .cons hsign.2.1 hsign.2.2
  have hlead : Lead.ofText? (quote :: body ++ ';' :: rest) = some (.sign quote) :=
    Lead.ofText?_sign hsign.1 _
  have hfails {e : Expr Rule} (havoids : e.avoids 2 (.sign quote) = true) :
      Fails e (quote :: body ++ ';' :: rest) :=
    .of_avoids 2 havoids hfirm hlead
  have havoids := avoids_quote hr
  have hliteral : Scans source (.rule .literalExpr) (quote :: body) (';' :: rest)
      (Spells source r (quote :: body)) := by
    have htoken {qs : List (Pair Rule)}
        (hqs : Becomes source r (fun n => n.text source = quote :: body) qs) :
        Spells source r (quote :: body) qs := by
      obtain ⟨q, rfl, hrule, hq⟩ := hqs
      exact ⟨q, rfl, fun next => ⟨(Node.rule_ofPair ..).trans hrule, hq next⟩⟩
    refine .fold_only rfl rfl ?_
    iterate 5 refine .alt_right (hfails (havoids _ (by simp [beforeQuoted]))) ?_
    obtain ⟨rfl, rfl⟩ | ⟨rfl, rfl⟩ := Rule.quote?_eq_some_iff.mp hr
    · have hchar : (Expr.rule Rule.charLiteral).avoids 2 (.sign '"') = true := by decide
      refine .alt_right (hfails hchar) ?_
      exact (Scans.of_spans rfl rfl (h _)).mono fun _ => htoken
    · exact ((Scans.of_spans rfl rfl (h _)).mono fun _ => htoken).alt_left _
  have hprimary : Scans source (.rule .primaryExpr) (quote :: body) (';' :: rest)
      (Spells source r (quote :: body)) :=
    .fold_only rfl rfl (hliteral.alt_left _)
  have hchain := hprimary.logOr hfirm (hfails (havoids _ (by simp [beforeQuoted])))
  exact hchain.expr hfirm hlead fun e he => havoids e (List.mem_append_right (beforeQuoted.take 6) he)

/-- The source is one constant, and its value is a node of the rule that is lowered to the literal. -/
def ReadsAs (source : Source) (r : Rule) (l : Literal) : Prop :=
  ∃ t n d v, Tree.parse source = .ok t ∧ t.root.children = [n] ∧
    t.meaning n = .ok (.global d) ∧ t.node? d.value.id = some v ∧ v.rule = r ∧
    t.meaning v = .ok (.expr (.literal l))

theorem readsAs_of_spans {quote : Char} (hr : r.quote? = some quote) {body : List Char}
    (h : ∀ rest, Spans (.rule r) (quote :: body) rest) {l : Literal}
    (hl : ∀ (t : Tree) (v : Node), v.Spells t.source r (quote :: body) →
      t.meaning v = .ok (.expr (.literal l))) :
    ReadsAs (constantSource .string (quote :: body)) r l := by
  have hfirm : IsFirm (quote :: body ++ [';']) := by
    obtain ⟨-, rfl⟩ | ⟨-, rfl⟩ := Rule.quote?_eq_some_iff.mp hr <;> exact .cons rfl (by decide)
  obtain ⟨t, n, v, type, hof, hsize, hroot, hmeaning, hv, hspells⟩ :=
    Tree.exists_isOf_constant .string hfirm (scans_literal hr h [])
  have ht := hof.wellFormed
  rw [← hof.source_eq] at hspells
  have htight : (Rule.production v.rule).tight = true := by
    rw [hspells.1]
    obtain ⟨rfl, -⟩ | ⟨rfl, -⟩ := Rule.quote?_eq_some_iff.mp hr <;> rfl
  have hlimit : t.size ≤ Node.limit := by
    rw [hsize, ht.size_of_token hv htight, Node.limit_eq]
    decide
  exact ⟨t, n, _, v, hof.parse_eq_ok hlimit, hroot, hmeaning, ht.node?_eq_some_iff.mpr ⟨hv, rfl⟩,
    hspells.1, hl t v hspells⟩

theorem constantSource_describe (w : List Char) :
    ("const X: string = " ++ String.ofList w ++ ";").toList = constantSource .string w := by
  have hhead : "const X: string = ".toList =
      "const X: ".toList ++ Scalar.string.keyword.spelling ++ " = ".toList := by
    decide
  have hend : ";".toList = [';'] := by decide
  have happend (a b : String) : (a ++ String.ofList w ++ b).toList = a.toList ++ w ++ b.toList := by
    rw [String.toList_append, String.toList_append, String.toList_ofList]
  exact (happend _ _).trans (congrArg₂ (· ++ w ++ ·) hhead hend)

theorem meaning_strLiteral {t : Tree} {v : Node} {body read : List Char}
    (hv : v.Spells t.source .strLiteral ('"' :: (body ++ ['"'])))
    (h : Escape.decode body = .ok read) : t.meaning v = .ok (.expr (.literal (.str read))) := by
  obtain ⟨hr, htext⟩ := hv
  rw [Tree.meaning, Lowering.lower_of_isExpr t.source (by rw [hr]; rfl), Lowering.expr, hr]
  simp only [Lowering.strLiteral, Lowering.decoded_eq htext rfl, h]
  rfl

theorem meaning_charLiteral {t : Tree} {v : Node} {body : List Char} {c : Char}
    (hv : v.Spells t.source .charLiteral ('\'' :: (body ++ ['\''])))
    (h : Escape.decode body = .ok [c]) : t.meaning v = .ok (.expr (.literal (.char c))) := by
  obtain ⟨hr, htext⟩ := hv
  rw [Tree.meaning, Lowering.lower_of_isExpr t.source (by rw [hr]; rfl), Lowering.expr, hr]
  simp only [Lowering.charLiteral, Lowering.decoded_eq htext rfl, h]
  rfl

/-- However a string or a character is described, it is accepted as the value of a constant.  The
string is read back as it was just if no zero comes right before a digit; the character always is. -/
theorem parse_rereads_described :
    (∀ text : List Char, ∃ read,
      ReadsAs ("const X: string = " ++ (Literal.str text).describe ++ ";").toList .strLiteral
        (.str read) ∧
      (read = text ↔ ¬ZeroBeforeDigit text)) ∧
    ∀ c : Char,
      ReadsAs ("const X: string = " ++ (Literal.char c).describe ++ ";").toList .charLiteral
        (.char c) := by
  refine ⟨fun text => ?_, fun c => ?_⟩
  · obtain ⟨is, his⟩ := exists_writes (show isQuote '"' = true from rfl) text
    obtain ⟨read, hdecode, hiff⟩ := his.decode
    refine ⟨read, ?_, hiff⟩
    rw [Literal.describe, constantSource_describe]
    have hfree : .plain '"' ∉ is := fun hmem => (his.sound _ hmem).2.1 rfl
    refine readsAs_of_spans (by rfl) (spans_string his.spelled hfree) fun t v hv => ?_
    exact meaning_strLiteral hv hdecode
  · obtain ⟨i, hi⟩ := exists_writes_char (show isQuote '\'' = true from rfl) c
    obtain ⟨read, hdecode, hiff⟩ := hi.decode
    rw [hiff.mpr (not_zeroBeforeDigit_singleton c)] at hdecode
    obtain ⟨hbody, hbefore⟩ := spelled_singleton_iff.mp hi.spelled
    rw [Literal.describe, constantSource_describe]
    refine readsAs_of_spans (by rfl) (fun rest => ?_) fun t v hv => meaning_charLiteral hv hdecode
    rw [hbody]
    exact spans_char hbefore rest

end XiFront

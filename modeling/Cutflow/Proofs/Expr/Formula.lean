import Cutflow.Proofs.Decimal.Layout
import Cutflow.Proofs.Expr.Reading
import Cutflow.Proofs.Name

/-!
# Formulas

The names of composed functions are texts in which every operand stands in parentheses. Wherever
one of them ends, a bracket or the end of the text follows, and no lexeme runs on into a bracket: so
the name of an operand is cut into the same lexemes inside of a longer name as it is alone.

## What is proved

* `Scans.append`: a text in front of a delimiter is cut as it is alone.
* `Stands.parse`: a text that stands for a tree in front of brackets is read as this tree.
* `Stands.unary`, `binary`, `index`: the name of a composed function stands for the composed tree.
* `stands_ident`, `spells_shortest`: the operands in the end, identifiers and numbers without a sign.
-/

namespace Cutflow

open Token Text

namespace Token

/-- Whatever lexeme comes before the text, the text does not continue it. -/
def Delimited (rest : List Char) : Prop := ∀ d ∈ rest.head?, ∀ k, endsBefore k d = true

theorem delimited_nil : Delimited [] := by
  rintro d ⟨⟩

theorem delimited_cons {c : Char} (h : continuesNumber c = false) (h' : c ≠ '=') (rest : List Char) :
    Delimited (c :: rest) := by
  rintro d ⟨⟩ k
  cases k <;> simp [endsBefore, h, h']

/-- In front of a delimiter the text is cut into lexemes of these kinds, and there are no gaps. -/
structure Cuts (w : List Char) (ks : List Kind) : Prop where
  solid : ∀ c ∈ w, isBlank c = false
  before : ∀ ⦃rest : List Char⦄ ⦃js : List Kind⦄, Delimited rest → Scans rest js →
    Scans (w ++ rest) (ks ++ js)

variable {w rest : List Char} {k : Kind} {ks js : List Kind}

theorem Spells.cuts (h : Spells w k) : Cuts w [k] :=
  ⟨h.not_isBlank, fun _ _ hr hs => .word h (fun d hd => hr d hd k) hs⟩

theorem Cuts.scans (h : Cuts w ks) : Scans w ks := by
  have hs := h.before delimited_nil .nil
  rwa [List.append_nil, List.append_nil] at hs

/-- A lexeme of one character that nothing can continue. -/
theorem Scans.mark {c : Char} (hc : Token.lexeme c [] = .ok ⟨k, 0⟩)
    (hk : ∀ d, Token.endsBefore k d = true) (h : Scans rest js) : Scans (c :: rest) (k :: js) := by
  have hw : Spells [c] k := ⟨c, [], rfl, hc⟩
  exact Scans.word hw (fun d _ => hk d) h

/-- A text that is cut into lexemes alone is cut in the same way in front of a delimiter. -/
theorem Scans.append (h : Scans w ks) (hr : Delimited rest) (hs : Scans rest js) :
    Scans (w ++ rest) (ks ++ js) := by
  induction h with
  | nil => exact hs
  | gap hc h ih => exact .gap hc ih
  | @lexeme c cs k more ks hc hl h ih =>
    rw [← List.drop_append_of_le_length (lexeme_length hl)] at ih
    exact .lexeme hc (lexeme_append hl fun d hd => hr d hd k) ih

/-- A closed pair of parentheses ends its text whatever follows. -/
theorem Scans.parens (h : Scans w ks) (hs : Scans rest js) :
    Scans ('(' :: (w ++ ')' :: rest)) (.lparen :: (ks ++ .rparen :: js)) := by
  have hclose : Scans (')' :: rest) (.rparen :: js) := .mark rfl (fun _ => rfl) hs
  exact .mark rfl (fun _ => rfl) (h.append (delimited_cons rfl (by decide) rest) hclose)

theorem Scans.brackets (h : Scans w ks) (hs : Scans rest js) :
    Scans ('[' :: (w ++ ']' :: rest)) (.lbracket :: (ks ++ .rbracket :: js)) := by
  have hclose : Scans (']' :: rest) (.rbracket :: js) := .mark rfl (fun _ => rfl) hs
  exact .mark rfl (fun _ => rfl) (h.append (delimited_cons rfl (by decide) rest) hclose)

theorem Cuts.minus (h : Cuts w ks) : Cuts ('-' :: w) (.minus :: ks) := by
  refine ⟨List.forall_mem_cons.mpr ⟨by decide, h.solid⟩, ?_⟩
  intro rest js hr hs
  exact .mark rfl (fun _ => rfl) (h.before hr hs)

end Token

theorem UnaryOp.exists_kind (op : UnaryOp) :
    ∃ k, Expr.unaryOp? k = some op ∧ Spells op.symbol.toList k := by
  cases op
  · exact ⟨.minus, rfl, '-', [], rfl, by decide⟩
  · exact ⟨.plus, rfl, '+', [], rfl, by decide⟩
  · exact ⟨.bang, rfl, '!', [], rfl, by decide⟩

theorem BinaryOp.exists_kind (op : BinaryOp) :
    ∃ k, Expr.binaryOp? k = some op ∧ Spells op.symbol.toList k := by
  rcases op with op | op <;> cases op
  · exact ⟨.plus, rfl, '+', [], rfl, by decide⟩
  · exact ⟨.minus, rfl, '-', [], rfl, by decide⟩
  · exact ⟨.star, rfl, '*', [], rfl, by decide⟩
  · exact ⟨.slash, rfl, '/', [], rfl, by decide⟩
  · exact ⟨.percent, rfl, '%', [], rfl, by decide⟩
  · exact ⟨.eqEq, rfl, '=', ['='], rfl, by decide⟩
  · exact ⟨.ne, rfl, '!', ['='], rfl, by decide⟩
  · exact ⟨.lt, rfl, '<', [], rfl, by decide⟩
  · exact ⟨.le, rfl, '<', ['='], rfl, by decide⟩
  · exact ⟨.gt, rfl, '>', [], rfl, by decide⟩
  · exact ⟨.ge, rfl, '>', ['='], rfl, by decide⟩
  · exact ⟨.andAnd, rfl, '&', ['&'], rfl, by decide⟩
  · exact ⟨.orOr, rfl, '|', ['|'], rfl, by decide⟩

namespace Expr

theorem level_le (op : BinaryOp) : level op ≤ topLevel := by
  rcases op with op | op <;> cases op <;> decide

theorem Derives.chain {ks : List Kind} {e : Expr} (h : Derives .signed ks e) (n : Nat) :
    Derives (.chain n) ks e := by
  induction n with
  | zero => exact .signed h
  | succ n ih => exact .raise ih

theorem Derives.mono {ks : List Kind} {e : Expr} {m n : Nat} (h : Derives (.chain m) ks e)
    (hmn : m ≤ n) : Derives (.chain n) ks e := by
  induction n, hmn using Nat.le_induction with
  | base => exact h
  | succ n _ ih => exact .raise ih

/-- In front of a delimiter the text reads as the tree. -/
def Stands (s : String) (e : Expr) : Prop :=
  ∃ ks, Derives (.chain topLevel) ks e ∧ Cuts s.toList ks

variable {s t : String} {a b : Expr}

theorem Stands.blankless (h : Stands s a) : Blankless s := by
  obtain ⟨ks, -, hc⟩ := h
  exact blankless_iff.mpr hc.solid

theorem Stands.parse (h : Stands s a) : parse s = .ok a := by
  obtain ⟨ks, hd, hc⟩ := h
  exact parse_eq_ok_iff.mpr ⟨ks, hc.scans, hd⟩

theorem Stands.unary (op : UnaryOp) (h : Stands s a) :
    Stands (Func.unaryName op.symbol s) (.unary op a) := by
  have hn := blankless_iff.mp (Func.blankless_unaryName op h.blankless)
  obtain ⟨ks, hd, hc⟩ := h
  obtain ⟨k, hk, hw⟩ := op.exists_kind
  refine ⟨k :: .lparen :: (ks ++ [.rparen]), ?_, hn, ?_⟩
  · exact .chain (.unary hk (.indexed (.primary (.parens hd)))) topLevel
  · intro rest js hr hs
    have hw := hw.cuts.before (delimited_cons rfl (by decide) _) (hc.scans.parens hs)
    simpa [Func.unaryName] using hw

theorem Stands.binary (op : BinaryOp) (ha : Stands s a) (hb : Stands t b) :
    Stands (Func.joinedName s op.symbol t) (.binary op a b) := by
  have hn := blankless_iff.mp (Func.blankless_joinedName op ha.blankless hb.blankless)
  obtain ⟨ks, hd, hc⟩ := ha
  obtain ⟨js, hd', hc'⟩ := hb
  obtain ⟨k, hk, hw⟩ := op.exists_kind
  obtain ⟨n, hl⟩ := exists_level op
  refine ⟨(.lparen :: (ks ++ [.rparen])) ++ k :: .lparen :: (js ++ [.rparen]), ?_, hn, ?_⟩
  · -- both operands are primaries, so they are operands of whatever level
    have hs : Derives .signed (.lparen :: (ks ++ [.rparen])) a := .indexed (.primary (.parens hd))
    have ht : Derives .signed (.lparen :: (js ++ [.rparen])) b := .indexed (.primary (.parens hd'))
    exact (Derives.binary hk hl (hs.chain _) (ht.chain _)).mono (hl ▸ level_le op)
  · intro rest ls hr hs
    have hw := hc.scans.parens (hw.cuts.before (delimited_cons rfl (by decide) _) (hc'.scans.parens hs))
    simpa [Func.joinedName] using hw

theorem Stands.index (ha : Stands s a) (hb : Stands t b) :
    Stands (Func.entryName s t) (.index a b) := by
  have hn := blankless_iff.mp (Func.blankless_entryName ha.blankless hb.blankless)
  obtain ⟨ks, hd, hc⟩ := ha
  obtain ⟨js, hd', hc'⟩ := hb
  refine ⟨(.lparen :: (ks ++ [.rparen])) ++ .lbracket :: (js ++ [.rbracket]), ?_, hn, ?_⟩
  · exact .chain (.indexed (.index (.primary (.parens hd)) hd')) topLevel
  · intro rest ls hr hs
    have hw := hc.scans.parens (hc'.scans.brackets hs)
    simpa [Func.entryName] using hw

/-! ### Identifiers -/

theorem stands_ident (h : isIdentifier s = true) (ht : s ≠ "true") (hf : s ≠ "false") :
    Stands s (.ident s) := by
  refine ⟨[.ident s], .chain (.indexed (.primary (.ident s))) topLevel, Spells.cuts ?_⟩
  rw [isIdentifier] at h
  cases hs : s.toList with
  | nil => simp [hs] at h
  | cons c cs =>
    rw [hs, Bool.and_eq_true, List.all_eq_true] at h
    have htail : cs.takeWhile isWordTail = cs := List.takeWhile_eq_self_iff.mpr h.2
    have hword : String.ofList (c :: cs) = s := by rw [← hs, String.ofList_toList]
    have hb := beginsNumber_of_isWordHead h.1 cs
    refine ⟨c, cs, rfl, lexeme_eq_ok.mpr (.inr (.inl ⟨hb, h.1, ?_, by rw [htail]⟩))⟩
    rw [htail, hword, wordKind, if_neg ht, if_neg hf]

/-! ### Numbers -/

/-- A number is written as one lexeme, which reads as the double nearest to it. -/
theorem spells_chars (l : Decimal.Layout) (d : Decimal) :
    Spells (l.chars d) (.number d.toFloat) := by
  obtain ⟨d', hn, hv⟩ := l.number_chars d
  obtain ⟨c, cs, hc, hd⟩ := l.exists_cons_chars d
  rw [hc] at hn ⊢
  have hb : beginsNumber c cs = true := by
    rw [beginsNumber_of_ne _ cs, hd]
    rintro rfl
    cases hd
  refine ⟨c, cs, rfl, lexeme_eq_ok.mpr (.inl ⟨hb, d', _, hn, ?_, rfl⟩)⟩
  rw [Decimal.toFloat_eq_of_toRat_eq hv]

theorem spells_shortest (l : Decimal.Layout) {x : Float} (h : x.isFinite = true) :
    Spells (l.chars (.shortest l.tie x)) (.number x.abs) :=
  Decimal.toFloat_shortest h ▸ spells_chars l _

end Expr

end Cutflow

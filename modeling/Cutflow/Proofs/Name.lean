import Cutflow.Func
import Cutflow.Proofs.Outcome

/-!
# Names without blanks

The operators put names together out of the names of their operands, and take the blanks out of
what they get. As the names of the operands hold none, there is nothing to take out: the name of
a composed function is the text it was put together as.
-/

namespace Cutflow

namespace Text

/-- A text that holds no blank. -/
def Blankless (s : String) : Prop := withoutBlanks s = s

instance (s : String) : Decidable (Blankless s) := inferInstanceAs (Decidable (_ = _))

theorem withoutBlanks_append (s t : String) :
    withoutBlanks (s ++ t) = withoutBlanks s ++ withoutBlanks t := by
  simp [withoutBlanks, String.ofList_append]

theorem blankless_withoutBlanks (s : String) : Blankless (withoutBlanks s) := by
  rw [Blankless, withoutBlanks, toList_withoutBlanks, List.filter_filter]
  simp [withoutBlanks]

theorem blankless_iff {s : String} : Blankless s ↔ ∀ c ∈ s.toList, isBlank c = false := by
  rw [Blankless, ← String.toList_inj, toList_withoutBlanks, List.filter_eq_self]
  simp

theorem Blankless.append {s t : String} (hs : Blankless s) (ht : Blankless t) :
    Blankless (s ++ t) := by
  rw [Blankless, withoutBlanks_append, hs, ht]

end Text

open Text

theorem UnaryOp.blankless_symbol (op : UnaryOp) : Blankless op.symbol := by
  cases op <;> decide

theorem BinaryOp.blankless_symbol (op : BinaryOp) : Blankless op.symbol := by
  rcases op with op | op <;> cases op <;> decide

namespace Func

/-- The name of an operator before an operand. -/
def unaryName (symbol operand : String) : String := symbol ++ "(" ++ operand ++ ")"

/-- The name of an entry. -/
def entryName (base index : String) : String := "(" ++ base ++ ")[" ++ index ++ "]"

theorem blankless_unaryName (op : UnaryOp) {a : String} (ha : Blankless a) :
    Blankless (unaryName op.symbol a) :=
  ((op.blankless_symbol.append (by decide)).append ha).append (by decide)

theorem blankless_joinedName (op : BinaryOp) {a b : String} (ha : Blankless a)
    (hb : Blankless b) : Blankless (joinedName a op.symbol b) :=
  (((((Blankless.append (by decide) ha).append (by decide)).append op.blankless_symbol).append
    (by decide)).append hb).append (by decide)

theorem blankless_entryName {a b : String} (ha : Blankless a) (hb : Blankless b) :
    Blankless (entryName a b) :=
  (((Blankless.append (by decide) ha).append (by decide)).append hb).append (by decide)

theorem blankless_name_constant (x : Float) : Blankless (constant x).name :=
  blankless_withoutBlanks _

variable {f g h : Func}

theorem name_unary (op : UnaryOp) (hf : Blankless f.name) :
    (unary op f).name = unaryName op.symbol f.name :=
  blankless_unaryName op hf

theorem name_binary (op : BinaryOp) (hf : Blankless f.name) (hg : Blankless g.name) :
    (binary op f g).name = joinedName f.name op.symbol g.name :=
  blankless_joinedName op hf hg

/-- Indexing is building the index evaluator, under the name of the entry. -/
theorem index_eq_ok (hf : Blankless f.name) (hg : Blankless g.name) :
    f.index g = .ok h ↔ h.name = entryName f.name g.name ∧
      Evaluator.index (entryName f.name g.name) f.evaluator g.evaluator = .ok h.evaluator := by
  have hn : withoutBlanks (entryName f.name g.name) = entryName f.name g.name :=
    blankless_entryName hf hg
  unfold entryName at hn ⊢
  simp only [index, bind_eq_ok, pure_eq_ok, ofEvaluator, hn]
  constructor
  · rintro ⟨e, he, rfl⟩
    exact ⟨rfl, he⟩
  · rintro ⟨hh, he⟩
    exact ⟨_, he, by rw [← hh]⟩

end Func

end Cutflow

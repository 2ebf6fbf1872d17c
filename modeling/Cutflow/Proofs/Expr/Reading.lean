import Cutflow.Proofs.Expr.Grammar
import Cutflow.Proofs.Token.Scan

/-!
# Texts as trees

A text stands for a tree if the lexemes it is cut into derive it. Which lexemes stand side by side
in a phrase is settled by how phrases begin and end: between two operands there is an operator or a
bracket, and no operator begins with an equals sign that could run into the one before it. So the
lexemes of a phrase may touch, and its text needs no blanks.

## What is proved

* `parse_eq_ok_iff`: a text is read as a tree if its lexemes derive the tree.
* `Derives.isChain`: the tokens of a phrase may stand side by side.
* `parse_withoutBlanks_of_eq_ok`: a text that is read stands for the same tree without its blanks.
-/

namespace Cutflow.Expr

open Token Text

theorem eq_of_append_eof {ks us rs : List Kind} (h : Kind.eof ∉ ks)
    (heq : ks ++ [.eof] = us ++ .eof :: rs) : us = ks := by
  rcases List.append_eq_append_iff.mp heq with ⟨as, rfl, has⟩ | ⟨bs, rfl, hbs⟩
  · cases as with
    | nil => exact List.append_nil ks
    | cons a as => simp at has
  · cases bs with
    | nil => exact (List.append_nil us).symm
    | cons b bs =>
      obtain ⟨rfl, -⟩ := List.cons.inj hbs
      exact absurd (by simp) h

theorem parse_eq_ok_iff {text : String} {e : Expr} :
    parse text = .ok e ↔ ∃ ks, Scans text.toList ks ∧ Derives (.chain topLevel) ks e := by
  rw [parse, bind_eq_ok]
  constructor
  · rintro ⟨ts, hts, he⟩
    obtain ⟨ks, hs, hk⟩ := scans_of_scan hts
    obtain ⟨used, t, rest, rfl, ht, hd⟩ := ofTokens_eq_ok_iff.mp he
    rw [List.map_append, List.map_cons, ht] at hk
    rw [eq_of_append_eof hs.ne_eof hk.symm] at hd
    exact ⟨ks, hs, hd⟩
  · rintro ⟨ks, hs, hd⟩
    obtain ⟨ts, hts, hk⟩ := hs.scan 0
    obtain ⟨used, last, rfl, hu, hl⟩ := List.map_eq_append_iff.mp hk
    obtain ⟨t, rfl, ht⟩ := List.map_eq_singleton_iff.mp hl
    exact ⟨_, hts, ofTokens_eq_ok_iff.mpr ⟨used, t, [], rfl, ht, hu ▸ hd⟩⟩

/-! ### Neighbours in a phrase -/

/-- Whether a phrase may end with a token of this kind. -/
def closes : Kind → Bool
  | .number _ | .bool _ | .ident _ | .rparen | .rbracket => true
  | _ => false

theorem Derives.getLast {s : Stratum} {ks : List Kind} {e : Expr} (h : Derives s ks e) :
    ∀ k ∈ ks.getLast?, closes k = true := by
  induction h with
  | number x => simp [closes]
  | bool b => simp [closes]
  | ident name => simp [closes]
  | parens h ih => simp [List.getLast?_cons, closes]
  | primary h ih => exact ih
  | index h hi ih ihi => simp [List.getLast?_cons, closes]
  | indexed h ih => exact ih
  | unary hop h ih =>
    obtain ⟨k, js, rfl, -⟩ := h.head
    rwa [List.getLast?_cons_cons]
  | signed h ih => exact ih
  | raise h ih => exact ih
  | binary hop hl ha hb iha ihb =>
    obtain ⟨k, js, rfl, -⟩ := hb.head
    rwa [List.getLast?_append_cons, List.getLast?_cons_cons]

theorem touches_of_closes {k k' : Kind} (h : closes k = true) (h' : isAtom k' = false) :
    touches k k' = true := by
  cases k <;> cases h <;> simp [touches, h']

theorem touches_of_begins {s : Stratum} {k k' : Kind} (h : isAtom k = false)
    (h' : s.begins k' = true) : touches k k' = true := by
  have hne : k' ≠ .eqEq := by
    rintro rfl
    cases s <;> cases h'
  cases k <;> simp_all [touches, isAtom]

theorem not_isAtom_of_unaryOp? {k : Kind} {op : UnaryOp} (h : unaryOp? k = some op) :
    isAtom k = false := by
  cases k <;> first | rfl | cases h

theorem not_isAtom_of_binaryOp? {k : Kind} {op : BinaryOp} (h : binaryOp? k = some op) :
    isAtom k = false := by
  cases k <;> first | rfl | cases h

theorem Derives.isChain {s : Stratum} {ks : List Kind} {e : Expr} (h : Derives s ks e) :
    ks.IsChain fun k k' => touches k k' = true := by
  induction h with
  | number x => exact List.isChain_singleton _
  | bool b => exact List.isChain_singleton _
  | ident name => exact List.isChain_singleton _
  | parens h ih =>
    refine List.isChain_cons.mpr ⟨?_, List.isChain_append.mpr ⟨ih, List.isChain_singleton _, ?_⟩⟩
    · obtain ⟨k, js, rfl, hk⟩ := h.head
      rintro k' ⟨⟩
      exact touches_of_begins rfl hk
    · rintro k hk k' ⟨⟩
      exact touches_of_closes (h.getLast k hk) rfl
  | primary h ih => exact ih
  | index h hi ih ihi =>
    refine List.isChain_append.mpr ⟨ih, List.isChain_cons.mpr
      ⟨?_, List.isChain_append.mpr ⟨ihi, List.isChain_singleton _, ?_⟩⟩, ?_⟩
    · obtain ⟨k, js, rfl, hk⟩ := hi.head
      rintro k' ⟨⟩
      exact touches_of_begins rfl hk
    · rintro k hk k' ⟨⟩
      exact touches_of_closes (hi.getLast k hk) rfl
    · rintro k hk k' ⟨⟩
      exact touches_of_closes (h.getLast k hk) rfl
  | indexed h ih => exact ih
  | unary hop h ih =>
    refine List.isChain_cons.mpr ⟨?_, ih⟩
    obtain ⟨k, js, rfl, hk⟩ := h.head
    rintro k' ⟨⟩
    exact touches_of_begins (not_isAtom_of_unaryOp? hop) hk
  | signed h ih => exact ih
  | raise h ih => exact ih
  | binary hop hl ha hb iha ihb =>
    have hk := not_isAtom_of_binaryOp? hop
    refine List.isChain_append.mpr ⟨iha, List.isChain_cons.mpr ⟨?_, ihb⟩, ?_⟩
    · obtain ⟨k, js, rfl, hk'⟩ := hb.head
      rintro k' ⟨⟩
      exact touches_of_begins hk hk'
    · rintro k' hk' k ⟨⟩
      exact touches_of_closes (ha.getLast k' hk') hk

/-- **Blanks do not matter**: a text that is read stands for the same tree without them. -/
theorem parse_withoutBlanks_of_eq_ok {text : String} {e : Expr} (h : parse text = .ok e) :
    parse (withoutBlanks text) = .ok e := by
  obtain ⟨ks, hs, hd⟩ := parse_eq_ok_iff.mp h
  refine parse_eq_ok_iff.mpr ⟨ks, ?_, hd⟩
  rw [toList_withoutBlanks]
  exact hs.withoutBlanks hd.isChain

end Cutflow.Expr

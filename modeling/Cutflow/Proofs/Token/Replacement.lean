import Cutflow.Proofs.Expr.Formula

/-!
# Replacing identifiers in texts

An identifier is replaced by a text in parentheses, wherever the tokens of the whole text say that it
stands. What is around it keeps its lexemes: the lexeme before it may have been ended by the first
character of the identifier, but it is ended by a parenthesis as well, and a parenthesis ends itself.
This holds for all texts that are cut into tokens, readable or not, with gaps or without.

## What is proved

* `Scans.replaceIdent`: the text with an identifier replaced is cut into the same tokens, with those of
  the other text in parentheses in place of the identifier.
-/

namespace Cutflow.Token

open Text

/-- The text `cs`, whose first character is byte `offset` of a whole text, with the text `w` in
parentheses in place of the identifier `x` among its tokens. As a text that is cut into tokens holds
ASCII characters only, bytes are counted by characters. -/
def replaceIdent (x : String) (w : List Char) (offset : Nat) (cs : List Char) :
    List Token → List Char
  | [] => cs
  | t :: ts =>
    let rest := cs.drop (t.start - offset)
    let lexeme := rest.take (t.stop - t.start)
    cs.take (t.start - offset) ++
      (if t.kind = .ident x then '(' :: (w ++ [')']) else lexeme) ++
      replaceIdent x w t.stop (rest.drop (t.stop - t.start)) ts

/-- A token, or the tokens `js` in parentheses in place of the identifier `x`. -/
def Kind.replaceIdent (x : String) (js : List Kind) (k : Kind) : List Kind :=
  if k = .ident x then .lparen :: (js ++ [.rparen]) else [k]

variable {x : String} {c : Char} {w cs : List Char} {k : Kind} {ks js : List Kind} {offset : Nat}
  {ts : List Token}

theorem Kind.replaceIdent_self : (Kind.ident x).replaceIdent x js = .lparen :: (js ++ [.rparen]) :=
  if_pos rfl

theorem Kind.replaceIdent_of_ne (h : k ≠ .ident x) : k.replaceIdent x js = [k] := if_neg h

/-- A gap stays where it is. -/
theorem replaceIdent_gap (h : ∀ t ∈ ts.head?, offset + 1 ≤ t.start) :
    replaceIdent x w offset (c :: cs) ts = c :: replaceIdent x w (offset + 1) cs ts := by
  cases ts with
  | nil => rfl
  | cons t ts =>
    have hs : t.start - offset = (t.start - (offset + 1)) + 1 := by
      have := h t rfl
      omega
    simp only [replaceIdent, hs, List.take_succ_cons, List.drop_succ_cons, List.cons_append]

/-- A lexeme stays what it is, unless it is the identifier. -/
theorem replaceIdent_lexeme (more : Nat) :
    replaceIdent x w offset (c :: cs) (⟨k, offset, offset + more + 1⟩ :: ts) =
      (if k = .ident x then '(' :: (w ++ [')']) else c :: cs.take more) ++
        replaceIdent x w (offset + more + 1) (cs.drop more) ts := by
  have hl : offset + more + 1 - offset = more + 1 := by omega
  simp only [replaceIdent, Nat.sub_self, hl, List.take_zero, List.drop_zero, List.nil_append,
    List.take_succ_cons, List.drop_succ_cons]

theorem le_start_of_scan (h : scan offset cs = .ok ts) : ∀ t ∈ ts.head?, offset ≤ t.start := by
  induction cs generalizing offset with
  | nil =>
    rw [scan] at h
    cases h
    rintro t ⟨⟩
    exact Nat.le_refl _
  | cons c cs ih =>
    cases hc : isGap c with
    | true =>
      rw [scan_gap hc] at h
      exact fun t ht => Nat.le_of_succ_le (ih h t ht)
    | false =>
      obtain ⟨k, more, ts, -, -, rfl⟩ := (scan_lexeme_eq_ok hc).mp h
      rintro t ⟨⟩
      exact Nat.le_refl _

/-- The text with the identifier replaced begins as before, or with a parenthesis. -/
theorem replaces_replaceIdent (h : scan offset cs = .ok ts) :
    Replaces (fun d => ∀ k, endsBefore k d = true) cs (replaceIdent x w offset cs ts) := by
  intro d hd
  cases cs with
  | nil =>
    rw [scan] at h
    cases h
    simp [replaceIdent] at hd
  | cons c cs =>
    cases hc : isGap c with
    | true =>
      rw [scan_gap hc] at h
      rw [replaceIdent_gap (le_start_of_scan h)] at hd
      exact .inl hd
    | false =>
      obtain ⟨k, more, ts, -, -, rfl⟩ := (scan_lexeme_eq_ok hc).mp h
      rw [replaceIdent_lexeme] at hd
      split at hd
      next =>
        cases hd
        exact .inr fun k => delimited_cons rfl (by decide) [] '(' rfl k
      next => exact .inl hd

/-- **Identifiers are replaced token by token**: the text with an identifier replaced by a text in
parentheses is cut into the same tokens, but for the tokens of that text in place of the identifier. -/
theorem Scans.replaceIdent (h : Scans cs ks) (hw : Scans w js) (hts : Token.scan offset cs = .ok ts) :
    Scans (Token.replaceIdent x w offset cs ts) (ks.flatMap (Kind.replaceIdent x js)) := by
  induction h generalizing offset ts with
  | nil =>
    rw [Token.scan] at hts
    cases hts
    simpa [Token.replaceIdent] using Scans.nil
  | gap hc h ih =>
    rw [scan_gap hc] at hts
    rw [replaceIdent_gap (le_start_of_scan hts)]
    exact .gap hc (ih hts)
  | @lexeme c cs k more ks hc hl h ih =>
    obtain ⟨k', more', ts', hl', hts', rfl⟩ := (scan_lexeme_eq_ok hc).mp hts
    cases hl.symm.trans hl'
    have hrest := ih hts'
    rw [replaceIdent_lexeme, List.flatMap_cons]
    by_cases hk : k = .ident x
    · subst hk
      rw [if_pos rfl, Kind.replaceIdent_self]
      simpa using hw.parens hrest
    · rw [if_neg hk, Kind.replaceIdent_of_ne hk, List.cons_append, List.singleton_append]
      have hr : Replaces (fun d => Token.endsBefore k d = true) (cs.drop more)
          (Token.replaceIdent x w (offset + more + 1) (cs.drop more) ts') :=
        (replaces_replaceIdent hts').imp fun d hd => hd k
      refine .lexeme hc (lexeme_take_append hl hr) ?_
      rwa [List.drop_left' (List.length_take_of_le (lexeme_length hl))]

end Cutflow.Token

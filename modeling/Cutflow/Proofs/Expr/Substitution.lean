import Cutflow.Proofs.Expr.Phrase
import Cutflow.Proofs.Token.Replacement

/-!
# Substitution in texts and trees

To put a text in parentheses in place of an identifier is to put its tree in place of the identifier in
the tree of the text around it: the parentheses make it a primary, which is what the identifier was.

The way back is harder, as nothing marks the parentheses that were put in. They are told from those of
the text around by what is between them: where a phrase of the new text begins with a parenthesis that
was put in, it goes as far as the text that was put in and stands for its tree, because there is one
phrase only between that parenthesis and the next one that closes it.

## What is proved

* `Derives.substitute`: a phrase with an identifier replaced stands for the tree with it replaced.
* `Derives.comesFrom`: nothing else is a phrase among such tokens.
* `parse_replaceIdent`: a text with an identifier replaced is read if the text is, as its tree with
  the identifier replaced.
-/

namespace Cutflow.Expr

open Token (Kind)

/-- The tree with the tree `a` in place of the identifier `x`. -/
def substitute (e : Expr) (x : String) (a : Expr) : Expr :=
  match e with
  | .number y => .number y
  | .bool b => .bool b
  | .ident name => if name = x then a else .ident name
  | .unary op e => .unary op (e.substitute x a)
  | .binary op e₁ e₂ => .binary op (e₁.substitute x a) (e₂.substitute x a)
  | .index base i => .index (base.substitute x a) (i.substitute x a)

variable {s : Stratum} {x : String} {k : Kind} {ks js us vs : List Kind} {a e : Expr}

theorem ne_ident_of_unaryOp? {op : UnaryOp} (h : unaryOp? k = some op) : k ≠ .ident x := by
  rintro rfl
  cases h

theorem ne_ident_of_binaryOp? {op : BinaryOp} (h : binaryOp? k = some op) : k ≠ .ident x := by
  rintro rfl
  cases h

/-- A token that is not the identifier stays among the tokens. -/
theorem flatMap_replaceIdent_cons (h : k ≠ .ident x) (ks : List Kind) :
    (k :: ks).flatMap (Kind.replaceIdent x js) = k :: ks.flatMap (Kind.replaceIdent x js) := by
  rw [List.flatMap_cons, Kind.replaceIdent_of_ne h, List.singleton_append]

/-- A phrase with an identifier replaced stands for the tree with the identifier replaced. -/
theorem Derives.substitute (h : Derives s ks e) (ha : Derives (.chain topLevel) js a) :
    Derives s (ks.flatMap (Kind.replaceIdent x js)) (e.substitute x a) := by
  induction h with
  | number y => exact .number y
  | bool b => exact .bool b
  | ident name =>
    rw [List.flatMap_singleton, Expr.substitute]
    by_cases hn : name = x
    · subst hn
      rw [Kind.replaceIdent_self, if_pos rfl]
      exact .parens ha
    · rw [Kind.replaceIdent_of_ne fun hk => hn (Kind.ident.inj hk), if_neg hn]
      exact .ident name
  | parens h ih =>
    rw [flatMap_replaceIdent_cons Kind.noConfusion, List.flatMap_append,
      flatMap_replaceIdent_cons Kind.noConfusion, List.flatMap_nil]
    exact .parens ih
  | primary h ih => exact .primary ih
  | index h hi ih ihi =>
    rw [List.flatMap_append, flatMap_replaceIdent_cons Kind.noConfusion, List.flatMap_append,
      flatMap_replaceIdent_cons Kind.noConfusion, List.flatMap_nil]
    exact .index ih ihi
  | indexed h ih => exact .indexed ih
  | unary hop h ih =>
    rw [flatMap_replaceIdent_cons (ne_ident_of_unaryOp? hop)]
    exact .unary hop ih
  | signed h ih => exact .signed ih
  | raise h ih => exact .raise ih
  | binary hop hl h h' ih ih' =>
    rw [List.flatMap_append, flatMap_replaceIdent_cons (ne_ident_of_binaryOp? hop)]
    exact .binary hop hl ih ih'

/-! ### The way back -/

/-- The first of the new tokens is the first of the old ones, unless that is the identifier. -/
theorem eq_cons_of_flatMap (h : ks.flatMap (Kind.replaceIdent x js) = k :: us) :
    (∃ ls, ks = k :: ls ∧ ls.flatMap (Kind.replaceIdent x js) = us ∧ k ≠ .ident x) ∨
      ∃ ls, ks = .ident x :: ls ∧ k = .lparen ∧
        js ++ .rparen :: ls.flatMap (Kind.replaceIdent x js) = us := by
  cases ks with
  | nil => cases h
  | cons l ls =>
    by_cases hl : l = .ident x
    · subst hl
      rw [List.flatMap_cons, Kind.replaceIdent_self] at h
      obtain ⟨rfl, rfl⟩ := List.cons.inj h
      exact .inr ⟨ls, rfl, rfl, by simp⟩
    · rw [flatMap_replaceIdent_cons hl] at h
      obtain ⟨rfl, rfl⟩ := List.cons.inj h
      exact .inl ⟨ls, rfl, rfl, hl⟩

/-- What is not a parenthesis was there before. -/
theorem eq_cons_of_flatMap_of_ne (h : ks.flatMap (Kind.replaceIdent x js) = k :: us)
    (hk : k ≠ .lparen) :
    ∃ ls, ks = k :: ls ∧ ls.flatMap (Kind.replaceIdent x js) = us ∧ k ≠ .ident x := by
  rcases eq_cons_of_flatMap h with h | ⟨-, -, h, -⟩
  · exact h
  · exact absurd h hk

/-- The tokens begin with a phrase for a tree that becomes `e` when `a` takes the place of `x`; when `js`
in parentheses take the place of `x`, what follows that phrase becomes `vs`. -/
def ComesFrom (x : String) (js : List Kind) (a : Expr) (s : Stratum) (ks vs : List Kind) (e : Expr) :
    Prop :=
  ∃ used rest b, ks = used ++ rest ∧ rest.flatMap (Kind.replaceIdent x js) = vs ∧ Derives s used b ∧
    b.substitute x a = e

theorem ComesFrom.imp {s' : Stratum} (h : ∀ {ks e}, Derives s ks e → Derives s' ks e) :
    ComesFrom x js a s ks vs e → ComesFrom x js a s' ks vs e
  | ⟨used, rest, b, hks, hrest, hd, hb⟩ => ⟨used, rest, b, hks, hrest, h hd, hb⟩

theorem ComesFrom.token {b : Expr} (hd : Derives s [k] b) (hb : b.substitute x a = e) (ls : List Kind) :
    ComesFrom x js a s (k :: ls) (ls.flatMap (Kind.replaceIdent x js)) e :=
  ⟨[k], ls, b, rfl, rfl, hd, hb⟩

/-- The new tokens begin with a phrase only if the old ones begin with a phrase that becomes it. -/
theorem Derives.comesFrom (h : Derives s us e) (ha : Derives (.chain topLevel) js a)
    (hks : ks.flatMap (Kind.replaceIdent x js) = us ++ vs) : ComesFrom x js a s ks vs e := by
  induction h generalizing ks vs with
  | number y =>
    obtain ⟨ls, rfl, rfl, -⟩ := eq_cons_of_flatMap_of_ne hks Kind.noConfusion
    exact .token (.number y) rfl ls
  | bool b =>
    obtain ⟨ls, rfl, rfl, -⟩ := eq_cons_of_flatMap_of_ne hks Kind.noConfusion
    exact .token (.bool b) rfl ls
  | ident name =>
    obtain ⟨ls, rfl, rfl, hn⟩ := eq_cons_of_flatMap_of_ne hks Kind.noConfusion
    exact .token (.ident name) (if_neg fun h => hn (congrArg Kind.ident h)) ls
  | @parens us e h ih =>
    have hks : ks.flatMap (Kind.replaceIdent x js) = .lparen :: (us ++ .rparen :: vs) := by
      simpa using hks
    rcases eq_cons_of_flatMap hks with ⟨ls, rfl, hls, -⟩ | ⟨ls, rfl, -, hls⟩
    · obtain ⟨used, rest, b, rfl, hrest, hd, rfl⟩ := ih hls
      obtain ⟨rest, rfl, hrest, -⟩ := eq_cons_of_flatMap_of_ne hrest Kind.noConfusion
      exact ⟨.lparen :: (used ++ [.rparen]), rest, b, by simp, hrest, .parens hd, rfl⟩
    · -- between parentheses that were put in there is one phrase only
      obtain ⟨rfl, rfl, rfl⟩ := Derives.eq_of_append_rparen ha h hls
      exact .token (.ident x) (if_pos rfl) ls
  | primary h ih => exact (ih hks).imp .primary
  | @index us us' e i h hi ih ihi =>
    have hks : ks.flatMap (Kind.replaceIdent x js) = us ++ .lbracket :: (us' ++ .rbracket :: vs) := by
      simpa using hks
    obtain ⟨used, rest, b, rfl, hrest, hd, rfl⟩ := ih hks
    obtain ⟨ls, rfl, hls, -⟩ := eq_cons_of_flatMap_of_ne hrest Kind.noConfusion
    obtain ⟨used', rest, b', rfl, hrest, hd', rfl⟩ := ihi hls
    obtain ⟨rest, rfl, hrest, -⟩ := eq_cons_of_flatMap_of_ne hrest Kind.noConfusion
    exact ⟨used ++ .lbracket :: (used' ++ [.rbracket]), rest, .index b b', by simp, hrest,
      .index hd hd', rfl⟩
  | indexed h ih => exact (ih hks).imp .indexed
  | @unary k op us e hop h ih =>
    have hk : k ≠ .lparen := by
      rintro rfl
      cases hop
    obtain ⟨ls, rfl, hls, -⟩ := eq_cons_of_flatMap_of_ne hks hk
    obtain ⟨used, rest, b, rfl, hrest, hd, rfl⟩ := ih hls
    exact ⟨k :: used, rest, .unary op b, rfl, hrest, .unary hop hd, rfl⟩
  | signed h ih => exact (ih hks).imp .signed
  | raise h ih => exact (ih hks).imp .raise
  | @binary n k op us us' e e' hop hl h h' ih ih' =>
    have hk : k ≠ .lparen := by
      rintro rfl
      cases hop
    have hks : ks.flatMap (Kind.replaceIdent x js) = us ++ k :: (us' ++ vs) := by
      simpa using hks
    obtain ⟨used, rest, b, rfl, hrest, hd, rfl⟩ := ih hks
    obtain ⟨ls, rfl, hls, -⟩ := eq_cons_of_flatMap_of_ne hrest hk
    obtain ⟨used', rest, b', rfl, hrest, hd', rfl⟩ := ih' hls
    exact ⟨used ++ k :: used', rest, .binary op b b', by simp, hrest, .binary hop hl hd hd', rfl⟩

theorem eq_nil_of_flatMap_replaceIdent (h : ks.flatMap (Kind.replaceIdent x js) = []) : ks = [] := by
  cases ks with
  | nil => rfl
  | cons k ks =>
    rw [List.flatMap_cons, List.append_eq_nil_iff, Kind.replaceIdent] at h
    split at h <;> cases h.1

/-- **Texts are substituted like trees**: with a text in parentheses in place of an identifier, a text
that is cut into tokens is read if it was before, as its tree with the tree of that text in place of the
identifier. -/
theorem parse_replaceIdent {t u : String} {ts : List Token} (hu : Token.lex u = .ok ts)
    (ha : parse t = .ok a) :
    parse (String.ofList (Token.replaceIdent x t.toList 0 u.toList ts)) = .ok e ↔
      ∃ b, parse u = .ok b ∧ b.substitute x a = e := by
  obtain ⟨ks, hks, -⟩ := Token.scans_of_scan hu
  obtain ⟨js, hjs, ha⟩ := parse_eq_ok_iff.mp ha
  have hs := hks.replaceIdent (x := x) hjs hu
  rw [parse_eq_ok_iff, String.toList_ofList]
  constructor
  · rintro ⟨us, hus, hd⟩
    cases hus.unique hs
    obtain ⟨used, rest, b, rfl, hrest, hb, rfl⟩ := hd.comesFrom ha (List.append_nil _).symm
    rw [eq_nil_of_flatMap_replaceIdent hrest, List.append_nil] at hks
    exact ⟨b, parse_eq_ok_iff.mpr ⟨used, hks, hb⟩, rfl⟩
  · rintro ⟨b, hb, rfl⟩
    obtain ⟨us, hus, hd⟩ := parse_eq_ok_iff.mp hb
    cases hus.unique hks
    exact ⟨_, hs, hd.substitute ha⟩

end Cutflow.Expr

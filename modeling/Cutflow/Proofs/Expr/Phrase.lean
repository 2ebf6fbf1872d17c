import Cutflow.Proofs.Expr.Reading

/-!
# Phrases

The grammar of expressions as a reader would write it down: nine tiers, from what binds least to
what binds most, with the operators of each tier and the tokens they are written with. Nothing in it
is taken from the parser, which knows operators by the number of their level.

```
disjunction ::= disjunction || conjunction | conjunction
conjunction ::= conjunction && equality | equality
equality    ::= equality (== | !=) comparison | comparison
comparison  ::= comparison (< | <= | > | >=) sum | sum
sum         ::= sum (+ | -) product | product
product     ::= product (* | / | %) signed | signed
signed      ::= (- | + | !) signed | indexed
indexed     ::= indexed [ disjunction ] | primary
primary     ::= number | true | false | identifier | ( disjunction )
```

## What is proved

* `phrase_iff_derives`: these are the phrases of the grammar with numbered levels.
* `Phrase.eq_of_append_rparen`: where a closing parenthesis follows a phrase, the tokens tell how far
  it goes and which tree it stands for.
* `parse_eq_ok_iff_phrase`: a text is read as a tree if its tokens before the end are a phrase for
  this tree, and they are a phrase for one tree at most.
-/

namespace Cutflow.Expr

open Token (Kind)

/-- The tiers of the grammar, from what binds least to what binds most. -/
inductive Tier where
  /-- What `||` joins. -/
  | disjunction
  /-- What `&&` joins. -/
  | conjunction
  /-- What `==` and `!=` join. -/
  | equality
  /-- What the orderings join. -/
  | comparison
  /-- What `+` and `-` join. -/
  | sum
  /-- What `*`, `/` and `%` join. -/
  | product
  /-- What may have operators before it. -/
  | signed
  /-- What may have indices behind it. -/
  | indexed
  /-- What stands alone. -/
  | primary

namespace Tier

/-- The tier of the right operands, which binds more. -/
def next : Tier → Tier
  | disjunction => conjunction
  | conjunction => equality
  | equality => comparison
  | comparison => sum
  | sum => product
  | product => signed
  | signed => indexed
  | indexed | primary => primary

/-- The operators between operands of a tier, and how they are written. -/
def operators : Tier → List (Kind × BinaryOp)
  | disjunction => [(.orOr, .connective .or)]
  | conjunction => [(.andAnd, .connective .and)]
  | equality => [(.eqEq, .pointwise .eq), (.ne, .pointwise .ne)]
  | comparison =>
    [(.lt, .pointwise .lt), (.le, .pointwise .le), (.gt, .pointwise .gt), (.ge, .pointwise .ge)]
  | sum => [(.plus, .pointwise .add), (.minus, .pointwise .sub)]
  | product => [(.star, .pointwise .mul), (.slash, .pointwise .div), (.percent, .pointwise .rem)]
  | signed | indexed | primary => []

end Tier

/-- The operators before an operand, and how they are written. -/
def signs : List (Kind × UnaryOp) := [(.minus, .neg), (.plus, .plus), (.bang, .not)]

/-- `Phrase t ks e`: the tokens `ks` are a phrase of the tier `t` for the tree `e`. -/
inductive Phrase : Tier → List Kind → Expr → Prop where
  | number (x : Float) : Phrase .primary [.number x] (.number x)
  | bool (b : Bool) : Phrase .primary [.bool b] (.bool b)
  | ident (name : String) : Phrase .primary [.ident name] (.ident name)
  /-- `(e)` -/
  | parens {ks : List Kind} {e : Expr} : Phrase .disjunction ks e →
      Phrase .primary (.lparen :: (ks ++ [.rparen])) e
  /-- `e[i]` -/
  | index {ks js : List Kind} {e i : Expr} : Phrase .indexed ks e → Phrase .disjunction js i →
      Phrase .indexed (ks ++ .lbracket :: (js ++ [.rbracket])) (.index e i)
  /-- An operator before its operand. -/
  | sign {k : Kind} {op : UnaryOp} {ks : List Kind} {e : Expr} : (k, op) ∈ signs →
      Phrase .signed ks e → Phrase .signed (k :: ks) (.unary op e)
  /-- An operator between its operands; those of one tier group to the left. -/
  | binary {t : Tier} {k : Kind} {op : BinaryOp} {ks js : List Kind} {a b : Expr} :
      (k, op) ∈ t.operators → Phrase t ks a → Phrase t.next js b →
      Phrase t (ks ++ k :: js) (.binary op a b)
  /-- What binds more. -/
  | next {t : Tier} {ks : List Kind} {e : Expr} : Phrase t.next ks e → Phrase t ks e

/-! ### The same phrases by numbered levels -/

/-- The stratum with the phrases of a tier. -/
def Tier.stratum : Tier → Stratum
  | disjunction => .chain 6
  | conjunction => .chain 5
  | equality => .chain 4
  | comparison => .chain 3
  | sum => .chain 2
  | product => .chain 1
  | signed => .signed
  | indexed => .indexed
  | primary => .primary

/-- The tier with the phrases of a stratum; above the level of whole expressions there are no more
operators. -/
def Stratum.tier : Stratum → Tier
  | primary => .primary
  | indexed => .indexed
  | signed | chain 0 => .signed
  | chain 1 => .product
  | chain 2 => .sum
  | chain 3 => .comparison
  | chain 4 => .equality
  | chain 5 => .conjunction
  | chain _ => .disjunction

variable {t : Tier} {k : Kind} {ks js us vs : List Kind} {e a b : Expr}

theorem unaryOp?_eq_some_iff {op : UnaryOp} : unaryOp? k = some op ↔ (k, op) ∈ signs := by
  cases k <;> cases op <;> simp [unaryOp?, signs]

theorem derives_of_next (h : Derives t.next.stratum ks e) : Derives t.stratum ks e := by
  cases t with
  | disjunction | conjunction | equality | comparison | sum => exact .raise h
  | product => exact .raise (.signed h)
  | signed => exact .indexed h
  | indexed => exact .primary h
  | primary => exact h

/-- An operator of a tier is one of the level of that tier, and the tier below is a level less. -/
theorem level_of_mem_operators {op : BinaryOp} (h : (k, op) ∈ t.operators) :
    ∃ n, binaryOp? k = some op ∧ level op = n + 1 ∧ t.stratum = .chain (n + 1) ∧
      ∀ {ks e}, Derives t.next.stratum ks e → Derives (.chain n) ks e := by
  cases t <;> simp only [Tier.operators, List.mem_cons, List.not_mem_nil, or_false,
    Prod.mk.injEq] at h
  case disjunction =>
    obtain ⟨rfl, rfl⟩ := h
    exact ⟨5, rfl, rfl, rfl, id⟩
  case conjunction =>
    obtain ⟨rfl, rfl⟩ := h
    exact ⟨4, rfl, rfl, rfl, id⟩
  case equality =>
    rcases h with ⟨rfl, rfl⟩ | ⟨rfl, rfl⟩ <;> exact ⟨3, rfl, rfl, rfl, id⟩
  case comparison =>
    rcases h with ⟨rfl, rfl⟩ | ⟨rfl, rfl⟩ | ⟨rfl, rfl⟩ | ⟨rfl, rfl⟩ <;>
      exact ⟨2, rfl, rfl, rfl, id⟩
  case sum =>
    rcases h with ⟨rfl, rfl⟩ | ⟨rfl, rfl⟩ <;> exact ⟨1, rfl, rfl, rfl, id⟩
  case product =>
    rcases h with ⟨rfl, rfl⟩ | ⟨rfl, rfl⟩ | ⟨rfl, rfl⟩ <;> exact ⟨0, rfl, rfl, rfl, .signed⟩

theorem Phrase.derives (h : Phrase t ks e) : Derives t.stratum ks e := by
  induction h with
  | number x => exact .number x
  | bool b => exact .bool b
  | ident name => exact .ident name
  | parens h ih => exact .parens ih
  | index h hi ih ihi => exact .index ih ihi
  | sign hk h ih => exact .unary (unaryOp?_eq_some_iff.mpr hk) ih
  | binary hk ha hb iha ihb =>
    obtain ⟨n, hop, hl, hs, hn⟩ := level_of_mem_operators hk
    rw [hs] at iha ⊢
    exact .binary hop hl iha (hn ihb)
  | next h ih => exact derives_of_next ih

theorem tier_chain_succ (n : Nat) :
    (Stratum.chain (n + 1)).tier.next = (Stratum.chain n).tier ∨
      (Stratum.chain (n + 1)).tier = (Stratum.chain n).tier := by
  match n with
  | 0 | 1 | 2 | 3 | 4 | 5 => exact .inl rfl
  | n + 6 => exact .inr rfl

/-- An operator of a level is one of the tier of that level. -/
theorem mem_operators_of_level {n : Nat} {op : BinaryOp} (hop : binaryOp? k = some op)
    (hl : level op = n + 1) : (k, op) ∈ (Stratum.chain (n + 1)).tier.operators ∧
      (Stratum.chain (n + 1)).tier.next = (Stratum.chain n).tier := by
  cases k <;> cases hop <;> cases hl <;> exact ⟨by simp [Stratum.tier, Tier.operators], rfl⟩

theorem Derives.phrase {s : Stratum} (h : Derives s ks e) : Phrase s.tier ks e := by
  induction h with
  | number x => exact .number x
  | bool b => exact .bool b
  | ident name => exact .ident name
  | parens h ih => exact .parens ih
  | primary h ih => exact .next ih
  | index h hi ih ihi => exact .index ih ihi
  | indexed h ih => exact .next ih
  | unary hop h ih => exact .sign (unaryOp?_eq_some_iff.mp hop) ih
  | signed h ih => exact ih
  | @raise n ks e h ih =>
    rcases tier_chain_succ n with hn | hn
    · exact .next (hn ▸ ih)
    · exact hn ▸ ih
  | binary hop hl ha hb iha ihb =>
    obtain ⟨hk, hn⟩ := mem_operators_of_level hop hl
    exact .binary hk iha (hn ▸ ihb)

theorem phrase_iff_derives : Phrase .disjunction ks e ↔ Derives (.chain topLevel) ks e :=
  ⟨Phrase.derives, Derives.phrase⟩

/-! ### One tree for a list of tokens -/

/-- A token of the kind; the place where it stands does not matter to the parser. -/
def unplaced (k : Kind) : Token := ⟨k, 0, 0⟩

theorem map_kind_unplaced (ks : List Kind) : (ks.map unplaced).map Token.kind = ks := by
  rw [List.map_map]
  exact List.map_id ks

/-- Phrases of whole expressions that begin alike and end at a closing parenthesis are the same. -/
theorem Derives.eq_of_append_rparen (ha : Derives (.chain topLevel) ks a)
    (hb : Derives (.chain topLevel) js b) (h : ks ++ .rparen :: us = js ++ .rparen :: vs) :
    ks = js ∧ us = vs ∧ a = b := by
  -- the parser reads both phrases off one list
  have hclosed (us : List Kind) : Closed topLevel (unplaced .rparen :: us.map unplaced) :=
    closed_of_binaryOp?_eq_none rfl Kind.noConfusion
  have hts : (ks ++ .rparen :: us).map unplaced =
      js.map unplaced ++ unplaced .rparen :: vs.map unplaced := by
    rw [h, List.map_append, List.map_cons]
  rw [List.map_append, List.map_cons] at hts
  obtain ⟨_, hp⟩ := (complete ha).parseLevel rfl (map_kind_unplaced ks) (hclosed us)
  obtain ⟨_, hq⟩ := (complete hb).parseLevel hts (map_kind_unplaced js) (hclosed vs)
  obtain ⟨rfl, hrest⟩ := Parsed.mk.inj (Except.ok.inj (hp.symm.trans hq))
  have huv : us = vs := by
    have hm := congrArg (List.map Token.kind) (List.cons.inj hrest).2
    rwa [map_kind_unplaced, map_kind_unplaced] at hm
  subst huv
  exact ⟨List.append_cancel_right h, rfl, rfl⟩

theorem Phrase.disjunction (h : Phrase t ks e) : Phrase .disjunction ks e := by
  cases t with
  | disjunction => exact h
  | conjunction => exact .next h
  | equality => exact .next (.next h)
  | comparison => exact .next (.next (.next h))
  | sum => exact .next (.next (.next (.next h)))
  | product => exact .next (.next (.next (.next (.next h))))
  | signed => exact .next (.next (.next (.next (.next (.next h)))))
  | indexed => exact .next (.next (.next (.next (.next (.next (.next h))))))
  | primary => exact .next (.next (.next (.next (.next (.next (.next (.next h)))))))

/-- A list of tokens is a phrase of a tier for one tree at most. -/
theorem Phrase.tree_unique (ha : Phrase t ks a) (hb : Phrase t ks b) : a = b :=
  (ha.disjunction.derives.eq_of_append_rparen hb.disjunction.derives
    (rfl : ks ++ .rparen :: [] = ks ++ .rparen :: [])).2.2

/-- **The parser reads exactly the grammar**: the tokens of a text before its end are a phrase for the
tree that is read, and if they are a phrase for a tree, this tree is read. No tokens are a phrase for
two trees. -/
theorem parse_eq_ok_iff_phrase {text : String} {ts : List Token} (h : Token.lex text = .ok ts) :
    ∃ ks, ts.map Token.kind = ks ++ [.eof] ∧ .eof ∉ ks ∧
      (∀ e, parse text = .ok e ↔ Phrase .disjunction ks e) ∧
      ∀ {t js a b}, Phrase t js a → Phrase t js b → a = b := by
  obtain ⟨ks, hs, hk⟩ := Token.scans_of_scan h
  refine ⟨ks, hk, hs.ne_eof, fun e => ?_, Phrase.tree_unique⟩
  rw [parse_eq_ok_iff, phrase_iff_derives]
  constructor
  · rintro ⟨js, hs', hd⟩
    exact hs.unique hs' ▸ hd
  · intro hd
    exact ⟨ks, hs, hd⟩

/-- Operators of one tier group to the left, and a sign is taken after the indices behind it. -/
theorem parse_eq_ok_iff_phrase_mixed :
    ∃ ts ks, Token.lex "a||b - -c[i]- d" = .ok ts ∧ ts.map Token.kind = ks ++ [.eof] ∧
      Phrase .disjunction ks (.binary (.connective .or) (.ident "a") (.binary (.pointwise .sub)
        (.binary (.pointwise .sub) (.ident "b") (.unary .neg (.index (.ident "c") (.ident "i"))))
        (.ident "d"))) := by
  have hp : parse "a||b - -c[i]- d" = .ok (.binary (.connective .or) (.ident "a")
      (.binary (.pointwise .sub) (.binary (.pointwise .sub) (.ident "b")
        (.unary .neg (.index (.ident "c") (.ident "i")))) (.ident "d"))) := by cbv
  obtain ⟨ts, hts, -⟩ := bind_eq_ok.mp hp
  obtain ⟨ks, hk, -, hiff, -⟩ := parse_eq_ok_iff_phrase hts
  exact ⟨ts, ks, hts, hk, (hiff _).mp hp⟩

end Cutflow.Expr

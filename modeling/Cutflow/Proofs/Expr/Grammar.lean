import Cutflow.Expr
import Cutflow.Proofs.Outcome

/-!
# The grammar of expressions

Which lists of tokens stand for which trees, said without a parser: one relation for all strata of
the grammar, from primaries to chains of binary operators.

## The model

`Derives s ks e` says that the token kinds `ks` form a phrase of the stratum `s` that stands for the
tree `e`. A chain of level `n` holds binary operators of level `n` at most; the right operand of an
operator is a chain of the level below, so operators of one level group to the left.

## What is proved

* `ofTokens_eq_ok_iff`: reading a list of tokens succeeds if a phrase stands before its end, and
  gives the tree of that phrase.
-/

namespace Cutflow.Expr

open Token (Kind)

/-- The strata of the grammar. -/
inductive Stratum where
  /-- A number, a truth value, an identifier or an expression in parentheses. -/
  | primary
  /-- A primary with indices behind it. -/
  | indexed
  /-- The same with operators before it. -/
  | signed
  /-- Signed phrases joined by binary operators of level `n` at most. -/
  | chain (n : Nat)

/-- The phrases of a stratum and the trees they stand for. -/
inductive Derives : Stratum → List Kind → Expr → Prop where
  | number (x : Float) : Derives .primary [.number x] (.number x)
  | bool (b : Bool) : Derives .primary [.bool b] (.bool b)
  | ident (name : String) : Derives .primary [.ident name] (.ident name)
  /-- `(e)` -/
  | parens {ks : List Kind} {e : Expr} : Derives (.chain topLevel) ks e →
      Derives .primary (.lparen :: (ks ++ [.rparen])) e
  | primary {ks : List Kind} {e : Expr} : Derives .primary ks e → Derives .indexed ks e
  /-- `e[i]` -/
  | index {ks js : List Kind} {e i : Expr} : Derives .indexed ks e → Derives (.chain topLevel) js i →
      Derives .indexed (ks ++ .lbracket :: (js ++ [.rbracket])) (.index e i)
  | indexed {ks : List Kind} {e : Expr} : Derives .indexed ks e → Derives .signed ks e
  /-- An operator before its operand. -/
  | unary {k : Kind} {op : UnaryOp} {ks : List Kind} {e : Expr} : unaryOp? k = some op →
      Derives .signed ks e → Derives .signed (k :: ks) (.unary op e)
  | signed {ks : List Kind} {e : Expr} : Derives .signed ks e → Derives (.chain 0) ks e
  | raise {n : Nat} {ks : List Kind} {e : Expr} : Derives (.chain n) ks e →
      Derives (.chain (n + 1)) ks e
  /-- An operator between its operands. -/
  | binary {n : Nat} {k : Kind} {op : BinaryOp} {ks js : List Kind} {a b : Expr} :
      binaryOp? k = some op → level op = n + 1 → Derives (.chain (n + 1)) ks a →
      Derives (.chain n) js b → Derives (.chain (n + 1)) (ks ++ k :: js) (.binary op a b)

/-! ### The parser, one step at a time -/

section Steps

variable {n : Nat} {ts rest : List Token} {t : Token}

theorem operatorAt?_eq_some {op : BinaryOp} :
    operatorAt? n ts = some op ↔
      ∃ t rest, ts = t :: rest ∧ binaryOp? t.kind = some op ∧ level op = n := by
  cases ts with
  | nil => simp [operatorAt?]
  | cons t rest =>
    simp only [operatorAt?, List.head?_cons, Option.bind_some, Option.filter_eq_some_iff]
    simp

theorem exists_level (op : BinaryOp) : ∃ n, level op = n + 1 := by
  rcases op with op | op <;> cases op <;> exact ⟨_, rfl⟩

theorem expect_eq_ok {k : Kind} {rest : { rest : List Token // rest.length < ts.length }} :
    expect k ts = .ok rest ↔ ∃ t, ts = t :: rest.val ∧ t.kind = k := by
  obtain ⟨rest, h⟩ := rest
  cases ts with
  | nil => simp [expect]
  | cons t ts =>
    by_cases hk : t.kind = k
    · simp [expect, hk]
    · simp [expect, hk]

theorem parseChain_of_none {left : Parsed ts} (h : operatorAt? (n + 1) left.rest = none) :
    parseChain n left = .ok left := by
  rw [parseChain]
  split
  next => rfl
  next h' => cases h.symm.trans h'

theorem parseChain_of_some {left : Parsed ts} {op : BinaryOp}
    (h : operatorAt? (n + 1) left.rest = some op) :
    parseChain n left = (do
      let right ← parseLevel n left.rest.tail
      parseChain n ⟨.binary op left.expr right.expr, right.rest,
        Nat.lt_trans right.shorter (Nat.lt_trans (length_of_operatorAt? h) left.shorter)⟩) := by
  rw [parseChain]
  split
  next h' => cases h.symm.trans h'
  next h' =>
    cases h.symm.trans h'
    rfl

theorem parseUnary_of_none (h : unaryOp? t.kind = none) :
    parseUnary (t :: rest) = parseIndexed (t :: rest) := by
  rw [parseUnary]
  split
  next => rfl
  next h' => cases h.symm.trans h'

theorem parseUnary_of_some {op : UnaryOp} (h : unaryOp? t.kind = some op) :
    parseUnary (t :: rest) = do
      let p ← parseUnary rest
      return ⟨.unary op p.expr, p.rest, Nat.lt_succ_of_lt p.shorter⟩ := by
  rw [parseUnary]
  split
  next h' => cases h.symm.trans h'
  next h' =>
    cases h.symm.trans h'
    rfl

theorem parseIndices_of_ne {base : Parsed ts} (h : ∀ t ∈ base.rest.head?, t.kind ≠ .lbracket) :
    parseIndices base = .ok base := by
  rw [parseIndices]
  split
  next => rfl
  next t rest hr => rw [if_neg (h t (by rw [hr]; rfl))]

theorem parseIndices_of_lbracket {base : Parsed ts} (hr : base.rest = t :: rest)
    (ht : t.kind = .lbracket) :
    parseIndices base = (do
      let entry ← parseLevel topLevel rest
      let close ← expect .rbracket entry.rest
      parseIndices ⟨.index base.expr entry.expr, close.val, by
        have hb := base.shorter
        rw [hr] at hb
        exact Nat.lt_trans close.property
          (Nat.lt_trans entry.shorter (Nat.lt_of_succ_lt hb))⟩) := by
  rw [parseIndices]
  split
  next h => cases h.symm.trans hr
  next h =>
    cases h.symm.trans hr
    rw [if_pos ht]

theorem parsePrimary_of_lparen (h : t.kind = .lparen) :
    parsePrimary (t :: rest) = do
      let inner ← parseLevel topLevel rest
      let close ← expect .rparen inner.rest
      return ⟨inner.expr, close.val,
        Nat.lt_succ_of_lt (Nat.lt_trans close.property inner.shorter)⟩ := by
  rw [parsePrimary, h]

end Steps

/-! ### What the parser reads is derived -/

/-- The tokens up to what follows `p` are a phrase of the stratum, and `p` holds its tree. -/
def Parsed.Reads {ts : List Token} (s : Stratum) (p : Parsed ts) : Prop :=
  ∃ used, ts = used ++ p.rest ∧ Derives s (used.map Token.kind) p.expr

theorem Parsed.Reads.imp {ts : List Token} {s s' : Stratum} {p : Parsed ts}
    (h : ∀ {ks e}, Derives s ks e → Derives s' ks e) : p.Reads s → p.Reads s'
  | ⟨used, hu, hd⟩ => ⟨used, hu, h hd⟩

theorem append_cons_append {ts u r r' u' q : List Token} {t : Token} (hu : ts = u ++ r)
    (hr : r = t :: r') (hr' : r' = u' ++ q) : ts = (u ++ t :: u') ++ q := by
  rw [hu, hr, hr', List.append_assoc, List.cons_append]

theorem append_singleton_append {r u v q : List Token} {t : Token} (hr : r = u ++ v)
    (hv : v = t :: q) : r = (u ++ [t]) ++ q := by
  rw [hr, hv, List.append_assoc, List.singleton_append]

/-- An operator and its right operand are read behind a chain. -/
theorem Parsed.Reads.binary {n : Nat} {ts : List Token} {left : Parsed ts} {op : BinaryOp}
    (hl : left.Reads (.chain (n + 1))) (h : operatorAt? (n + 1) left.rest = some op)
    {right : Parsed left.rest.tail} (hr : right.Reads (.chain n))
    {shorter : right.rest.length < ts.length} :
    (⟨.binary op left.expr right.expr, right.rest, shorter⟩ : Parsed ts).Reads (.chain (n + 1)) := by
  obtain ⟨t, rest, ht, hop, hlevel⟩ := operatorAt?_eq_some.mp h
  obtain ⟨used, hu, hd⟩ := hl
  obtain ⟨used', hu', hd'⟩ := hr
  refine ⟨used ++ t :: used', ?_, ?_⟩
  · exact append_cons_append hu ht ((congrArg List.tail ht).symm.trans hu')
  · rw [List.map_append, List.map_cons]
    exact .binary hop hlevel hd hd'

/-- An index in brackets is read behind what it is an index of. -/
theorem Parsed.Reads.index {ts rest : List Token} {t : Token} {base : Parsed ts}
    (hb : base.Reads .indexed) (h : base.rest = t :: rest) (ht : t.kind = .lbracket)
    {entry : Parsed rest} (he : entry.Reads (.chain topLevel))
    {close : { r : List Token // r.length < entry.rest.length }}
    (hc : expect .rbracket entry.rest = .ok close) {shorter : close.val.length < ts.length} :
    (⟨.index base.expr entry.expr, close.val, shorter⟩ : Parsed ts).Reads .indexed := by
  obtain ⟨t', hc, ht'⟩ := expect_eq_ok.mp hc
  obtain ⟨used, hu, hd⟩ := hb
  obtain ⟨used', hu', hd'⟩ := he
  refine ⟨used ++ t :: (used' ++ [t']), ?_, ?_⟩
  · exact append_cons_append hu h (append_singleton_append hu' hc)
  · rw [List.map_append, List.map_cons, List.map_append, List.map_singleton, ht, ht']
    exact .index hd hd'

theorem reads_of_parse :
    (∀ n ts, ∀ p, parseLevel n ts = .ok p → p.Reads (.chain n)) ∧
    (∀ n ts, ∀ left : Parsed ts, left.Reads (.chain (n + 1)) →
      ∀ p, parseChain n left = .ok p → p.Reads (.chain (n + 1))) ∧
    (∀ ts, ∀ p, parseUnary ts = .ok p → p.Reads .signed) ∧
    (∀ ts, ∀ p, parseIndexed ts = .ok p → p.Reads .indexed) ∧
    (∀ ts, ∀ base : Parsed ts, base.Reads .indexed →
      ∀ p, parseIndices base = .ok p → p.Reads .indexed) ∧
    (∀ ts, ∀ p, parsePrimary ts = .ok p → p.Reads .primary) := by
  apply parseLevel.mutual_induct
  case case1 => -- level 0
    intro ts ih p hp
    rw [parseLevel] at hp
    exact (ih p hp).imp .signed
  case case2 => -- a level above
    intro ts n ih ihChain p hp
    rw [parseLevel, bind_eq_ok] at hp
    obtain ⟨first, hf, hp⟩ := hp
    exact ihChain first ((ih first hf).imp .raise) p hp
  case case3 => -- the end of a chain
    intro n ts left h hl p hp
    rw [parseChain_of_none h] at hp
    cases hp
    exact hl
  case case4 => -- one more operator in a chain
    intro n ts left op h ih ihChain hl p hp
    rw [parseChain_of_some h, bind_eq_ok] at hp
    obtain ⟨right, hr, hp⟩ := hp
    exact ihChain right (hl.binary h (ih right hr)) p hp
  case case5 => -- nothing to read
    intro ih p hp
    rw [parseUnary] at hp
    exact (ih p hp).imp .indexed
  case case6 => -- no operator before the operand
    intro t rest h ih p hp
    rw [parseUnary_of_none h] at hp
    exact (ih p hp).imp .indexed
  case case7 => -- an operator before the operand
    intro t rest op h ih p hp
    simp only [parseUnary_of_some h, bind_eq_ok, pure_eq_ok] at hp
    obtain ⟨q, hq, rfl⟩ := hp
    obtain ⟨used, hu, hd⟩ := ih q hq
    exact ⟨t :: used, congrArg (t :: ·) hu, .unary h hd⟩
  case case8 => -- a primary and its indices
    intro ts ih ihIndices p hp
    rw [parseIndexed, bind_eq_ok] at hp
    obtain ⟨base, hb, hp⟩ := hp
    exact ihIndices base ((ih base hb).imp .primary) p hp
  case case9 => -- no token left
    intro ts base h hb p hp
    rw [parseIndices_of_ne (by simp [h])] at hp
    cases hp
    exact hb
  case case10 => -- one more index
    intro ts base t rest h ht ih ihIndices hb p hp
    simp only [parseIndices_of_lbracket h ht, bind_eq_ok] at hp
    obtain ⟨entry, he, close, hc, hp⟩ := hp
    exact ihIndices entry close.val close.property (hb.index h ht (ih entry he) hc) p hp
  case case11 => -- no index
    intro ts base t rest h ht hb p hp
    rw [parseIndices_of_ne (by simpa [h] using ht)] at hp
    cases hp
    exact hb
  case case12 => -- nothing to read
    intro p hp
    simp [parsePrimary] at hp
  case case13 => -- a number
    intro t rest x h p hp
    simp only [parsePrimary, h] at hp
    cases hp
    exact ⟨[t], rfl, by rw [List.map_singleton, h]; exact .number x⟩
  case case14 => -- a truth value
    intro t rest b h p hp
    simp only [parsePrimary, h] at hp
    cases hp
    exact ⟨[t], rfl, by rw [List.map_singleton, h]; exact .bool b⟩
  case case15 => -- an identifier
    intro t rest name h p hp
    simp only [parsePrimary, h] at hp
    cases hp
    exact ⟨[t], rfl, by rw [List.map_singleton, h]; exact .ident name⟩
  case case16 => -- parentheses
    intro t rest h ih p hp
    simp only [parsePrimary_of_lparen h, bind_eq_ok, pure_eq_ok] at hp
    obtain ⟨inner, hi, close, hc, rfl⟩ := hp
    obtain ⟨t', hc, ht'⟩ := expect_eq_ok.mp hc
    obtain ⟨used, hu, hd⟩ := ih inner hi
    refine ⟨t :: (used ++ [t']), ?_, ?_⟩
    · exact congrArg (t :: ·) (append_singleton_append hu hc)
    · rw [List.map_cons, List.map_append, List.map_singleton, h, ht']
      exact .parens hd
  case case17 => -- the end of the text
    intro t rest h p hp
    simp [parsePrimary, h] at hp
  case case18 => -- no primary
    intro t rest h1 h2 h3 h4 h5 p hp
    rw [parsePrimary] at hp
    split at hp
    next h => exact absurd h (h1 _)
    next h => exact absurd h (h2 _)
    next h => exact absurd h (h3 _)
    next h => exact absurd h h4
    next => cases hp
    next => cases hp

/-! ### What is derived the parser reads -/

/-- Whether a primary may begin with a token of this kind. -/
def opens : Kind → Bool
  | .number _ | .bool _ | .ident _ | .lparen => true
  | _ => false

/-- Whether a phrase of the stratum may begin with a token of this kind. -/
def Stratum.begins : Stratum → Kind → Bool
  | .primary, k | .indexed, k => opens k
  | .signed, k | .chain _, k => opens k || (unaryOp? k).isSome

theorem unaryOp?_of_opens {k : Kind} (h : opens k = true) : unaryOp? k = none := by
  cases k <;> first | rfl | cases h

theorem Derives.head {s : Stratum} {ks : List Kind} {e : Expr} (h : Derives s ks e) :
    ∃ k js, ks = k :: js ∧ s.begins k = true := by
  induction h with
  | number x => exact ⟨_, _, rfl, rfl⟩
  | bool b => exact ⟨_, _, rfl, rfl⟩
  | ident name => exact ⟨_, _, rfl, rfl⟩
  | parens h ih => exact ⟨_, _, rfl, rfl⟩
  | primary h ih => exact ih
  | index h hi ih ihi =>
    obtain ⟨k, js, rfl, hk⟩ := ih
    exact ⟨k, _, rfl, hk⟩
  | indexed h ih =>
    obtain ⟨k, js, rfl, hk⟩ := ih
    exact ⟨k, js, rfl, Bool.or_eq_true_iff.mpr (.inl hk)⟩
  | unary hop h ih =>
    refine ⟨_, _, rfl, Bool.or_eq_true_iff.mpr (.inr ?_)⟩
    rw [hop]
    rfl
  | signed h ih => exact ih
  | raise h ih => exact ih
  | binary hop hl ha hb iha ihb =>
    obtain ⟨k, js, rfl, hk⟩ := iha
    exact ⟨k, _, rfl, hk⟩

/-- No operator of level `n` or below and no index follows. -/
def Closed (n : Nat) (rest : List Token) : Prop :=
  ∀ t ∈ rest.head?, t.kind ≠ .lbracket ∧ ∀ op, binaryOp? t.kind = some op → n < level op

theorem Closed.operatorAt? {n m : Nat} {rest : List Token} (h : Closed n rest) (hm : m ≤ n) :
    operatorAt? m rest = none := by
  rw [Option.eq_none_iff_forall_ne_some]
  intro op hop
  obtain ⟨t, rest, rfl, hop', rfl⟩ := operatorAt?_eq_some.mp hop
  exact absurd ((h t rfl).2 op hop') (Nat.not_lt.mpr hm)

theorem Closed.mono {n m : Nat} {rest : List Token} (h : Closed n rest) (hm : m ≤ n) :
    Closed m rest :=
  fun t ht => ⟨(h t ht).1, fun op hop => Nat.lt_of_le_of_lt hm ((h t ht).2 op hop)⟩

theorem closed_cons {n : Nat} {t : Token} {rest : List Token} {op : BinaryOp}
    (h : binaryOp? t.kind = some op) (hn : n < level op) : Closed n (t :: rest) := by
  intro t' ht
  cases ht
  constructor
  · intro hk
    rw [hk] at h
    cases h
  · intro op' hop
    cases h.symm.trans hop
    exact hn

theorem closed_of_binaryOp?_eq_none {n : Nat} {t : Token} {rest : List Token}
    (h : binaryOp? t.kind = none) (hk : t.kind ≠ .lbracket) : Closed n (t :: rest) := by
  intro t' ht
  cases ht
  refine ⟨hk, ?_⟩
  intro op hop
  cases h.symm.trans hop

/-- What the parser makes of a phrase with something behind it. It reads a primary whatever follows,
and goes on with indices and operators as long as there are any: of the indexed phrases and of the
chains only the part up to that loop is told. -/
def Complete : Stratum → List Kind → Expr → Prop
  | .primary, ks, e => ∀ ⦃ts used rest : List Token⦄, ts = used ++ rest →
    used.map Token.kind = ks → ∃ h, parsePrimary ts = .ok ⟨e, rest, h⟩
  | .indexed, ks, e => ∀ ⦃ts used rest : List Token⦄, ts = used ++ rest →
    used.map Token.kind = ks → ∃ h, parseIndexed ts = parseIndices (⟨e, rest, h⟩ : Parsed ts)
  | .signed, ks, e => ∀ ⦃ts used rest : List Token⦄, ts = used ++ rest →
    used.map Token.kind = ks → Closed 0 rest → ∃ h, parseUnary ts = .ok ⟨e, rest, h⟩
  | .chain 0, ks, e => ∀ ⦃ts used rest : List Token⦄, ts = used ++ rest →
    used.map Token.kind = ks → Closed 0 rest → ∃ h, parseLevel 0 ts = .ok ⟨e, rest, h⟩
  | .chain (n + 1), ks, e => ∀ ⦃ts used rest : List Token⦄, ts = used ++ rest →
    used.map Token.kind = ks → Closed n rest →
      ∃ h, parseLevel (n + 1) ts = parseChain n (⟨e, rest, h⟩ : Parsed ts)

theorem Complete.parseLevel {n : Nat} {ks : List Kind} {e : Expr} (h : Complete (.chain n) ks e)
    {ts used rest : List Token} (hts : ts = used ++ rest) (hks : used.map Token.kind = ks)
    (hr : Closed n rest) : ∃ h, parseLevel n ts = .ok ⟨e, rest, h⟩ := by
  cases n with
  | zero => exact h hts hks hr
  | succ n =>
    obtain ⟨hs, h⟩ := h hts hks (hr.mono (Nat.le_succ n))
    exact ⟨hs, h.trans (parseChain_of_none (hr.operatorAt? (Nat.le_refl _)))⟩

theorem expect_cons {t : Token} {k : Kind} (rest : List Token) (h : t.kind = k) :
    expect k (t :: rest) = .ok ⟨rest, Nat.lt_succ_self _⟩ :=
  expect_eq_ok.mpr ⟨t, rfl, h⟩

theorem complete_token {k : Kind} {e : Expr} (h : ∀ {t : Token} {rest : List Token}, t.kind = k →
    parsePrimary (t :: rest) = .ok ⟨e, rest, Nat.lt_succ_self _⟩) : Complete .primary [k] e := by
  intro ts used rest hts hks
  obtain ⟨t, rfl, ht⟩ := List.map_eq_singleton_iff.mp hks
  subst hts
  exact ⟨Nat.lt_succ_self _, h ht⟩

theorem complete {s : Stratum} {ks : List Kind} {e : Expr} (h : Derives s ks e) :
    Complete s ks e := by
  induction h with
  | number x => exact complete_token fun ht => by rw [parsePrimary, ht]
  | bool b => exact complete_token fun ht => by rw [parsePrimary, ht]
  | ident name => exact complete_token fun ht => by rw [parsePrimary, ht]
  | parens h ih =>
    intro ts used rest hts hks
    obtain ⟨t, inner, rfl, ht, hks⟩ := List.map_eq_cons_iff.mp hks
    obtain ⟨used, close, rfl, hu, hc⟩ := List.map_eq_append_iff.mp hks
    obtain ⟨t', rfl, ht'⟩ := List.map_eq_singleton_iff.mp hc
    have hts : ts = t :: (used ++ t' :: rest) := by simpa using hts
    subst hts
    have hclosed : Closed topLevel (t' :: rest) :=
      closed_of_binaryOp?_eq_none (by rw [ht']; rfl) (by rw [ht']; simp)
    obtain ⟨hi, hp⟩ := ih.parseLevel rfl hu hclosed
    refine ⟨Nat.lt_succ_of_lt (Nat.lt_trans (Nat.lt_succ_self _) hi), ?_⟩
    simp only [parsePrimary_of_lparen ht, hp, bind, Except.bind, expect_cons rest ht']
    rfl
  | primary h ih =>
    intro ts used rest hts hks
    obtain ⟨hr, hp⟩ := ih hts hks
    refine ⟨hr, ?_⟩
    rw [parseIndexed, hp]
    rfl
  | index h hi ih ihi =>
    intro ts used rest hts hks
    obtain ⟨used, more, rfl, hu, hm⟩ := List.map_eq_append_iff.mp hks
    obtain ⟨t, inner, rfl, ht, hm⟩ := List.map_eq_cons_iff.mp hm
    obtain ⟨used', close, rfl, hu', hc⟩ := List.map_eq_append_iff.mp hm
    obtain ⟨t', rfl, ht'⟩ := List.map_eq_singleton_iff.mp hc
    have hts : ts = used ++ t :: (used' ++ t' :: rest) := by simpa using hts
    have hclosed : Closed topLevel (t' :: rest) :=
      closed_of_binaryOp?_eq_none (by rw [ht']; rfl) (by rw [ht']; simp)
    obtain ⟨hb, hp⟩ := ih hts hu
    obtain ⟨hi, hq⟩ := ihi.parseLevel rfl hu' hclosed
    refine ⟨Nat.lt_trans (Nat.lt_succ_self _) (Nat.lt_trans hi (Nat.lt_of_succ_lt hb)), ?_⟩
    rw [hp, parseIndices_of_lbracket rfl ht]
    simp only [hq, bind, Except.bind, expect_cons rest ht']
  | indexed h ih =>
    intro ts used rest hts hks hclosed
    obtain ⟨hr, hp⟩ := ih hts hks
    refine ⟨hr, ?_⟩
    obtain ⟨k, js, rfl, hk⟩ := h.head
    obtain ⟨t, used, rfl, rfl, -⟩ := List.map_eq_cons_iff.mp hks
    subst hts
    show parseUnary (t :: (used ++ rest)) = _
    rw [parseUnary_of_none (unaryOp?_of_opens hk)]
    exact hp.trans (parseIndices_of_ne fun t ht => (hclosed t ht).1)
  | unary hop h ih =>
    intro ts used rest hts hks hclosed
    obtain ⟨t, used, rfl, rfl, hu⟩ := List.map_eq_cons_iff.mp hks
    obtain ⟨hr, hp⟩ := ih rfl hu hclosed
    subst hts
    refine ⟨Nat.lt_succ_of_lt hr, ?_⟩
    show parseUnary (t :: (used ++ rest)) = _
    simp only [parseUnary_of_some hop, hp, bind, Except.bind]
    rfl
  | signed h ih =>
    intro ts used rest hts hks hclosed
    obtain ⟨hr, hp⟩ := ih hts hks hclosed
    refine ⟨hr, ?_⟩
    rw [parseLevel, hp]
  | raise h ih =>
    intro ts used rest hts hks hclosed
    obtain ⟨hr, hp⟩ := ih.parseLevel hts hks hclosed
    refine ⟨hr, ?_⟩
    rw [parseLevel, hp]
    rfl
  | binary hop hl ha hb iha ihb =>
    intro ts used rest hts hks hclosed
    obtain ⟨used, more, rfl, hu, hm⟩ := List.map_eq_append_iff.mp hks
    obtain ⟨t, used', rfl, rfl, hu'⟩ := List.map_eq_cons_iff.mp hm
    have hts : ts = used ++ t :: (used' ++ rest) := by simpa using hts
    obtain ⟨hr, hp⟩ := iha hts hu (closed_cons hop (by omega))
    obtain ⟨hr', hq⟩ := ihb.parseLevel rfl hu' hclosed
    refine ⟨Nat.lt_trans hr' (Nat.lt_of_succ_lt hr), ?_⟩
    rw [hp, parseChain_of_some (operatorAt?_eq_some.mpr ⟨_, _, rfl, hop, hl⟩)]
    simp only [List.tail_cons, hq, bind, Except.bind]

/-- **The parser reads the grammar**: a list of tokens stands for a tree if a phrase that derives the
tree stands before the first end in it. -/
theorem ofTokens_eq_ok_iff {ts : List Token} {e : Expr} :
    ofTokens ts = .ok e ↔ ∃ used t rest, ts = used ++ t :: rest ∧ t.kind = .eof ∧
      Derives (.chain topLevel) (used.map Token.kind) e := by
  simp only [ofTokens, bind_eq_ok, pure_eq_ok]
  constructor
  · rintro ⟨p, hp, close, hc, rfl⟩
    obtain ⟨used, hu, hd⟩ := reads_of_parse.1 topLevel ts p hp
    obtain ⟨t, hr, ht⟩ := expect_eq_ok.mp hc
    exact ⟨used, t, close.val, hu.trans (congrArg (used ++ ·) hr), ht, hd⟩
  · rintro ⟨used, t, rest, rfl, ht, hd⟩
    have hclosed : Closed topLevel (t :: rest) :=
      closed_of_binaryOp?_eq_none (by rw [ht]; rfl) (by rw [ht]; simp)
    obtain ⟨hr, hp⟩ := (complete hd).parseLevel rfl rfl hclosed
    exact ⟨_, hp, _, expect_cons rest ht, rfl⟩

end Cutflow.Expr

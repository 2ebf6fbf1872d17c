import Cutflow.Proofs.Expr.Cursor
import Cutflow.Proofs.Expr.Stuck

/-!
# Reading stays inside the text

Read by position, an expression is the one that the parser takes off the list of tokens. As the end of
the text is the last token, and no step goes behind it, the reader never looks where no token is. A call
has fewer tokens ahead than the one it is made from, or as many and a tier that binds more, so calls are
nested only so deep.

## What is proved

* `agrees_of_parse`: the reader makes of the tokens ahead what the parser makes of them, with fuel for
  nine calls for each of them.
* `exists_reaches`, `exists_reaches_phrase`: from every place every task comes to an end. The cursor goes
  forward only, stays on the tokens, and has gone on where a phrase is read.
* `read_stays_inside`: so it is for every text, and a text that is read is read up to its end.
-/

namespace Cutflow.Expr

open Token (Kind)

variable {tokens : List Token} {c c' : Cursor} {α : Type}

/-! ### The reader does what the parser does -/

/-- The place of a tier in the order of calls: a phrase of a tier may begin with one of the tier below. -/
def Tier.rank : Tier → Nat
  | primary => 0
  | indexed => 1
  | signed => 2
  | product => 3
  | sum => 4
  | comparison => 5
  | equality => 6
  | conjunction => 7
  | disjunction => 8

/-- The function that reads the phrases of a tier. -/
def Tier.parse : Tier → (ts : List Token) → Except Error (Parsed ts)
  | disjunction => parseLevel 6
  | conjunction => parseLevel 5
  | equality => parseLevel 4
  | comparison => parseLevel 3
  | sum => parseLevel 2
  | product => parseLevel 1
  | signed => parseUnary
  | indexed => parseIndexed
  | primary => parsePrimary

/-- The rank of the function that does a task. -/
def Task.rank : Task → Nat
  | phrase t | operators t _ => t.rank
  | indices _ => Tier.rank .indexed

/-- How deep calls are nested for a task, with `n` tokens ahead. A call has fewer tokens ahead than the
one it is made from, or as many and less rank. -/
def Task.depth (n : Nat) (task : Task) : Nat := 9 * n + task.rank + 1

/-- Given as much fuel as `depth`, a part of reading that begins at `c` does what the parser does with the
tokens ahead, which is `result`. -/
def Follows (tokens : List Token) (depth : Nat) (m : Nat → Walk Expr) (c : Cursor) {ts : List Token}
    (result : Except Error (Parsed ts)) : Prop :=
  ∃ c', (∀ fuel, depth ≤ fuel → Reaches tokens (m fuel) c (result.map Parsed.expr) c') ∧
    ∀ p, result = .ok p → tokens.drop c'.pos = p.rest

namespace Follows

variable {d d' : Nat} {m : Nat → Walk Expr} {ts ts' : List Token} {result : Except Error (Parsed ts)}

theorem mono (h : Follows tokens d m c result) (hd : d ≤ d') : Follows tokens d' m c result := by
  obtain ⟨c', hm, hrest⟩ := h
  exact ⟨c', fun fuel hf => hm fuel (hd.trans hf), hrest⟩

/-- A call takes one unit of fuel. -/
theorem call {task : Task} (h : Follows tokens d m c result)
    (hm : ∀ fuel, read tokens (fuel + 1) task = m fuel) :
    Follows tokens (d + 1) (read tokens · task) c result := by
  obtain ⟨c', hm', hrest⟩ := h
  refine ⟨c', fun fuel hf => ?_, hrest⟩
  obtain ⟨fuel, rfl⟩ : ∃ n, fuel = n + 1 := ⟨fuel - 1, by omega⟩
  show Reaches tokens (read tokens (fuel + 1) task) c _ c'
  rw [hm]
  exact hm' fuel (by omega)

/-- Something is done before that takes no fuel. -/
theorem after {first : Walk α} {a : α} {k : Nat → α → Walk Expr} (hfirst : Reaches tokens first c (.ok a) c')
    (h : Follows tokens d (k · a) c' result) :
    Follows tokens d (fun fuel => first >>= k fuel) c result := by
  obtain ⟨c'', hm, hrest⟩ := h
  exact ⟨c'', fun fuel hf => hfirst.bind (hm fuel hf), hrest⟩

theorem ok (h : c.pos < tokens.length) (p : Parsed ts) (hp : tokens.drop c.pos = p.rest) :
    Follows tokens d (fun _ => pure p.expr) c (.ok p) :=
  ⟨c, fun _ _ => .pure h p.expr, fun _ hq => Except.ok.inj hq ▸ hp⟩

theorem error (h : c.pos < tokens.length) (e : Error) :
    Follows tokens d (fun _ => throw (.error e)) c (.error e : Except Error (Parsed ts)) :=
  ⟨c, fun _ _ => .throw h e, by rintro _ ⟨⟩⟩

theorem bind {first : Except Error (Parsed ts')} {k : Nat → Expr → Walk Expr}
    {f : Parsed ts' → Except Error (Parsed ts)} (h : Follows tokens d m c first)
    (hok : ∀ p c', c'.pos < tokens.length → tokens.drop c'.pos = p.rest →
      Follows tokens d (k · p.expr) c' (f p)) :
    Follows tokens d (fun fuel => m fuel >>= k fuel) c (first >>= f) := by
  obtain ⟨c', hm, hrest⟩ := h
  cases first with
  | error e => exact ⟨c', fun fuel hf => (hm fuel hf).bind_error _, by rintro _ ⟨⟩⟩
  | ok p =>
    obtain ⟨c'', hk, hrest'⟩ := hok p c' (hm d le_rfl).moves.inside (hrest p rfl)
    exact ⟨c'', fun fuel hf => (hm fuel hf).bind (hk fuel hf), hrest'⟩

/-- An expression and the token that has to close it. -/
theorem bind_demand (hend : Terminated tokens) {close : Kind} (hclose : close ≠ .eof)
    {k : Nat → Expr → Walk Expr} {first : Except Error (Parsed ts')}
    {f : (p : Parsed ts') → { rest : List Token // rest.length < p.rest.length } →
      Except Error (Parsed ts)} (h : Follows tokens d m c first)
    (hok : ∀ p r c', c'.pos < tokens.length → tokens.drop c'.pos = r.val →
      Follows tokens d (k · p.expr) c' (f p r)) :
    Follows tokens d (fun fuel => m fuel >>= fun e => demand tokens close >>= fun _ => k fuel e) c
      (first >>= fun p => expect close p.rest >>= f p) := by
  refine h.bind fun ⟨e, r, shorter⟩ c' hlt hr => ?_
  obtain ⟨t, rest, hahead⟩ := exists_ahead hlt
  obtain rfl : t :: rest = r := hahead.symm.trans hr
  by_cases hk : t.kind = close
  · have hd := reaches_demand_of_eq hahead hend hclose hk
    refine .after hd ?_
    simp only [expect_cons rest hk]
    exact hok ⟨e, t :: rest, shorter⟩ ⟨rest, _⟩ _ hd.moves.inside (drop_of_ahead hahead)
  · have he : expect close (t :: rest) = .error _ := expect_eq_error.mpr ⟨hk, rfl⟩
    simp only [he]
    exact ⟨_, fun _ _ => (reaches_demand_of_ne hahead hk).bind_error _, by rintro _ ⟨⟩⟩

end Follows

/-- Begun with `ahead` before the cursor, the task is done as the parser does it. -/
def Agrees (tokens : List Token) (task : Task) (ahead : List Token) {ts : List Token}
    (result : Except Error (Parsed ts)) : Prop :=
  ∀ c : Cursor, c.pos < tokens.length → tokens.drop c.pos = ahead →
    Follows tokens (task.depth ahead.length) (read tokens · task) c result

variable {n : Nat}

theorem rank_chain_succ (h : n < topLevel) :
    (Stratum.chain (n + 1)).tier.rank = (Stratum.chain n).tier.rank + 1 := by
  unfold topLevel at h
  interval_cases n <;> rfl

theorem read_chain (h : n < topLevel) (fuel : Nat) :
    read tokens (fuel + 1) (.phrase (Stratum.chain (n + 1)).tier) = (do
      let first ← read tokens fuel (.phrase (Stratum.chain n).tier)
      read tokens fuel (.operators (Stratum.chain (n + 1)).tier first)) := by
  unfold topLevel at h
  interval_cases n <;> rfl

theorem read_operators (h : n < topLevel) (left : Expr) (fuel : Nat) :
    read tokens (fuel + 1) (.operators (Stratum.chain (n + 1)).tier left) = (do
      match ← consumeOne tokens (Stratum.chain (n + 1)).tier.operators with
      | some op => do
        let right ← read tokens fuel (.phrase (Stratum.chain n).tier)
        read tokens fuel (.operators (Stratum.chain (n + 1)).tier (.binary op left right))
      | none => return left) := by
  unfold topLevel at h
  interval_cases n <;> rfl

/-- The reader goes through tables; the parser asks which operator a token stands for. -/
theorem lookup_signs (k : Kind) : signs.lookup k = unaryOp? k := by
  cases k <;> rfl

theorem lookup_operators (h : n < topLevel) (t : Token) (rest : List Token) :
    (Stratum.chain (n + 1)).tier.operators.lookup t.kind = operatorAt? (n + 1) (t :: rest) := by
  unfold topLevel at h
  obtain ⟨k, start, stop⟩ := t
  interval_cases n <;> cases k <;> rfl

theorem ne_eof_of_mem_signs : ∀ p ∈ signs, p.1 ≠ .eof := by simp [signs]

theorem ne_eof_of_mem_operators (t : Tier) : ∀ p ∈ t.operators, p.1 ≠ .eof := by
  cases t <;> simp [Tier.operators]

theorem Tier.rank_le (t : Tier) : t.rank ≤ 8 := by
  cases t <;> decide

theorem Task.rank_le : ∀ task : Task, task.rank ≤ 8
  | phrase t | operators t _ => t.rank_le
  | indices _ => Tier.rank_le .indexed

theorem Task.depth_le_of_lt (task : Task) {i j : Nat} (h : i < j) (r : Nat) :
    task.depth i ≤ 9 * j + r := by
  have := task.rank_le
  unfold depth
  omega

theorem Task.depth_le_of_rank_lt {task : Task} {r : Nat} (h : task.rank < r) (i : Nat) :
    task.depth i ≤ 9 * i + r := Nat.add_le_add_left h _

/-- **The reader does what the parser does**, function by function and loop by loop. -/
theorem agrees_of_parse (hend : Terminated tokens) :
    (∀ n ts, n ≤ topLevel → Agrees tokens (.phrase (Stratum.chain n).tier) ts (parseLevel n ts)) ∧
    (∀ n ts, ∀ left : Parsed ts, n < topLevel →
      Agrees tokens (.operators (Stratum.chain (n + 1)).tier left.expr) left.rest
        (parseChain n left)) ∧
    (∀ ts, Agrees tokens (.phrase .signed) ts (parseUnary ts)) ∧
    (∀ ts, Agrees tokens (.phrase .indexed) ts (parseIndexed ts)) ∧
    (∀ ts, ∀ base : Parsed ts, Agrees tokens (.indices base.expr) base.rest (parseIndices base)) ∧
    (∀ ts, Agrees tokens (.phrase .primary) ts (parsePrimary ts)) := by
  -- by the recursion of the parser; the calls the reader makes have fewer tokens ahead or less rank,
  -- so one unit of fuel less is enough for them
  apply parseLevel.mutual_induct
  case case1 => -- level 0
    intro ts ih _
    rw [parseLevel]
    exact ih
  case case2 => -- a level above
    intro ts n ih ihChain (hn : n < topLevel) c hc hahead
    rw [parseLevel]
    have hrank := (rank_chain_succ hn).ge
    refine .call (((ih hn.le c hc hahead).mono ?_).bind ?_) (read_chain hn)
    · exact Task.depth_le_of_rank_lt hrank _
    · intro first c' hc' hahead'
      exact (ihChain first hn c' hc' hahead').mono (Task.depth_le_of_lt _ first.shorter _)
  case case3 => -- the end of a chain
    intro n ts left h hn c hc hahead
    rw [parseChain_of_none h]
    obtain ⟨t, rest, hcons⟩ := exists_ahead hc
    obtain ⟨c', hm, hc'⟩ := reaches_consumeOne hcons hend (ne_eof_of_mem_operators _)
    rw [lookup_operators hn t rest, ← hcons, hahead, h] at hm hc'
    exact .call (.after hm (.ok hm.moves.inside left hc')) (read_operators hn _)
  case case4 => -- one more operator in a chain
    intro n ts left op h ih ihChain hn c hc hahead
    rw [parseChain_of_some h]
    obtain ⟨t, rest, hrest, -⟩ := operatorAt?_eq_some.mp h
    rw [hrest] at hahead
    obtain ⟨c', hm, hc'⟩ := reaches_consumeOne hahead hend (ne_eof_of_mem_operators _)
    rw [lookup_operators hn t rest, ← hrest, h] at hm hc'
    have hahead' : tokens.drop c'.pos = left.rest.tail := by
      rw [hrest]
      exact hc'
    have hlt := length_of_operatorAt? h
    refine .call (.after hm ?_) (read_operators hn _)
    refine ((ih hn.le c' hm.moves.inside hahead').mono (Task.depth_le_of_lt _ hlt _)).bind ?_
    intro right c'' hc'' hahead''
    exact (ihChain right hn c'' hc'' hahead'').mono
      (Task.depth_le_of_lt _ (right.shorter.trans hlt) _)
  case case5 => -- nothing to read
    intro ih c hc hahead
    exact absurd hc (Nat.not_lt.mpr (List.drop_eq_nil_iff.mp hahead))
  case case6 => -- no operator before the operand
    intro t rest h ih c hc hahead
    rw [parseUnary_of_none h]
    obtain ⟨c', hm, hc'⟩ := reaches_consumeOne hahead hend ne_eof_of_mem_signs
    rw [lookup_signs, h] at hm hc'
    refine .call (.after hm ?_) fun _ => by rw [read]
    exact (ih c' hm.moves.inside hc').mono (Task.depth_le_of_rank_lt Nat.one_lt_two _)
  case case7 => -- an operator before the operand
    intro t rest op h ih c hc hahead
    rw [parseUnary_of_some h]
    obtain ⟨c', hm, hc'⟩ := reaches_consumeOne hahead hend ne_eof_of_mem_signs
    rw [lookup_signs, h] at hm hc'
    refine .call (.after hm ?_) fun _ => by rw [read]
    refine ((ih c' hm.moves.inside hc').mono
      (Task.depth_le_of_lt _ (Nat.lt_succ_self _) _)).bind ?_
    intro p c'' hc'' hahead''
    exact .ok hc'' ⟨.unary op p.expr, p.rest, _⟩ hahead''
  case case8 => -- a primary and its indices
    intro ts ih ihIndices c hc hahead
    rw [parseIndexed]
    refine .call (((ih c hc hahead).mono ?_).bind ?_) fun _ => by rw [read]
    · exact Task.depth_le_of_rank_lt Nat.one_pos _
    · intro base c' hc' hahead'
      exact (ihIndices base c' hc' hahead').mono (Task.depth_le_of_lt _ base.shorter _)
  case case9 => -- no token left
    intro ts base h c hc hahead
    exact absurd hc (Nat.not_lt.mpr (List.drop_eq_nil_iff.mp (hahead.trans h)))
  case case10 => -- one more index
    intro ts base t rest h ht ih ihIndices c hc hahead
    rw [parseIndices_of_lbracket h ht]
    rw [h] at hahead
    have hm := reaches_consume_of_eq hahead hend Kind.noConfusion ht
    have hlt : rest.length < base.rest.length := h ▸ Nat.lt_succ_self _
    refine .call (.after hm ?_) fun _ => by rw [read]
    refine Follows.bind_demand hend Kind.noConfusion
      ((ih le_rfl _ hm.moves.inside (drop_of_ahead hahead)).mono (Task.depth_le_of_lt _ hlt _)) ?_
    intro entry close c' hc' hahead'
    exact (ihIndices entry close.val close.property c' hc' hahead').mono
      (Task.depth_le_of_lt _ (close.property.trans (entry.shorter.trans hlt)) _)
  case case11 => -- no index
    intro ts base t rest h ht c hc hahead
    rw [parseIndices_of_ne (by simpa [h] using ht)]
    have hm := reaches_consume_of_ne (hahead.trans h) ht
    refine .call (.after hm ?_) fun _ => by rw [read]
    exact .ok hm.moves.inside base hahead
  case case12 => -- nothing to read
    intro c hc hahead
    exact absurd hc (Nat.not_lt.mpr (List.drop_eq_nil_iff.mp hahead))
  case case13 | case14 | case15 => -- a number, a truth value, an identifier
    intro t rest _ h c hc hahead
    have hm := reaches_bump hahead hend (by simp [h])
    rw [parsePrimary, h]
    refine .call (.after hm ?_) fun _ => by rw [read]
    simp only [h]
    exact .ok hm.moves.inside ⟨_, rest, _⟩ (drop_of_ahead hahead)
  case case16 => -- parentheses
    intro t rest h ih c hc hahead
    have hm := reaches_bump hahead hend (by simp [h])
    rw [parsePrimary_of_lparen h]
    refine .call (.after hm ?_) fun _ => by rw [read]
    simp only [h]
    refine Follows.bind_demand hend Kind.noConfusion
      ((ih le_rfl _ hm.moves.inside (drop_of_ahead hahead)).mono
        (Task.depth_le_of_lt _ (Nat.lt_succ_self _) _)) ?_
    intro inner close c' hc' hahead'
    exact .ok hc' ⟨inner.expr, close.val, _⟩ hahead'
  case case17 => -- the end of the text
    intro t rest h c hc hahead
    have hm := reaches_bump_of_eof hahead h
    rw [parsePrimary, h]
    refine .call (.after hm ?_) fun _ => by rw [read]
    simp only [h]
    exact .error hm.moves.inside _
  case case18 => -- no primary
    intro t rest h1 h2 h3 h4 h5 c hc hahead
    have hm := reaches_bump hahead hend h5
    refine .call (.after hm ?_) fun _ => by rw [read]
    obtain ⟨k, start, stop⟩ := t
    rw [parsePrimary]
    cases k with
    | number x => exact absurd rfl (h1 x)
    | bool b => exact absurd rfl (h2 b)
    | ident name => exact absurd rfl (h3 name)
    | lparen => exact absurd rfl h4
    | eof => exact absurd rfl h5
    | _ => exact .error hm.moves.inside _

/-! ### On the tokens of a text -/

theorem agrees_phrase (hend : Terminated tokens) (t : Tier) (ts : List Token) :
    Agrees tokens (.phrase t) ts (t.parse ts) := by
  obtain ⟨hLevel, -, hUnary, hIndexed, -, hPrimary⟩ := agrees_of_parse hend
  cases t with
  | disjunction => exact hLevel 6 ts (by decide)
  | conjunction => exact hLevel 5 ts (by decide)
  | equality => exact hLevel 4 ts (by decide)
  | comparison => exact hLevel 3 ts (by decide)
  | sum => exact hLevel 2 ts (by decide)
  | product => exact hLevel 1 ts (by decide)
  | signed => exact hUnary ts
  | indexed => exact hIndexed ts
  | primary => exact hPrimary ts

/-- A loop that takes on `e` goes on as the parser does with a phrase that is read as `e`. -/
theorem exists_agrees_operators (hend : Terminated tokens) (t : Tier) (e : Expr) (ahead : List Token) :
    ∃ ts, ∃ result : Except Error (Parsed ts), Agrees tokens (.operators t e) ahead result := by
  obtain ⟨-, hChain, -⟩ := agrees_of_parse hend
  let left : Parsed (unplaced .eof :: ahead) := ⟨e, ahead, Nat.lt_succ_self _⟩
  cases t with
  | disjunction => exact ⟨_, _, hChain 5 _ left (by decide)⟩
  | conjunction => exact ⟨_, _, hChain 4 _ left (by decide)⟩
  | equality => exact ⟨_, _, hChain 3 _ left (by decide)⟩
  | comparison => exact ⟨_, _, hChain 2 _ left (by decide)⟩
  | sum => exact ⟨_, _, hChain 1 _ left (by decide)⟩
  | product => exact ⟨_, _, hChain 0 _ left (by decide)⟩
  | signed | indexed | primary =>
    -- there are no operators of these tiers
    refine ⟨_, .ok left, fun c hc hahead => ?_⟩
    exact .call (.ok hc left hahead) fun _ => rfl

/-- From every place every task comes to an end, with fuel that depends on the number of tokens only. -/
theorem exists_reaches (hend : Terminated tokens) (task : Task) (hc : c.pos < tokens.length) :
    ∃ result c', ∀ fuel, 9 * (tokens.length + 1) ≤ fuel →
      Reaches tokens (read tokens fuel task) c result c' := by
  obtain ⟨ts, result, h⟩ : ∃ ts, ∃ result : Except Error (Parsed ts),
      Agrees tokens task (tokens.drop c.pos) result := by
    cases task with
    | phrase t => exact ⟨_, _, agrees_phrase hend t _⟩
    | operators t e => exact exists_agrees_operators hend t e _
    | indices e =>
      obtain ⟨-, -, -, -, hIndices, -⟩ := agrees_of_parse hend
      exact ⟨_, _, hIndices (unplaced .eof :: tokens.drop c.pos) ⟨e, _, Nat.lt_succ_self _⟩⟩
  obtain ⟨c', hm, -⟩ := (h c hc rfl).mono
    (Task.depth_le_of_lt task (Nat.lt_succ_of_le (List.drop_sublist ..).length_le) 0)
  exact ⟨_, c', hm⟩

theorem exists_reaches_phrase (hend : Terminated tokens) (t : Tier) (hc : c.pos < tokens.length) :
    ∃ c', (∀ fuel, 9 * (tokens.length + 1) ≤ fuel →
        Reaches tokens (read tokens fuel (.phrase t)) c
          ((t.parse (tokens.drop c.pos)).map Parsed.expr) c') ∧
      ∀ p, t.parse (tokens.drop c.pos) = .ok p → c.pos < c'.pos ∧ tokens.drop c'.pos = p.rest := by
  obtain ⟨c', hm, hrest⟩ := (agrees_phrase hend t _ c hc rfl).mono
    (Task.depth_le_of_lt _ (Nat.lt_succ_of_le (List.drop_sublist ..).length_le) 0)
  refine ⟨c', hm, fun p hp => ⟨?_, hrest p hp⟩⟩
  have hshort := p.shorter
  rw [← hrest p hp, List.length_drop, List.length_drop] at hshort
  omega

/-- What is read of a text is followed by its end, and there the reader stops. -/
theorem exists_reaches_readText (hend : Terminated tokens) :
    ∃ c', (∀ fuel, 9 * (tokens.length + 1) ≤ fuel →
        Reaches tokens (readText tokens fuel) ⟨0, []⟩ (ofTokens tokens) c') ∧
      ∀ e, ofTokens tokens = .ok e → c'.pos + 1 = tokens.length := by
  have hpos : 0 < tokens.length := by
    obtain ⟨front, stop, rfl, -⟩ := hend
    simp
  obtain ⟨c', hm, hrest⟩ := exists_reaches_phrase (c := ⟨0, []⟩) hend .disjunction hpos
  have hinside := (hm _ le_rfl).moves.inside
  change ∀ fuel, _ → Reaches tokens _ _ ((parseLevel topLevel tokens).map _) c' at hm
  change ∀ p, parseLevel topLevel tokens = .ok p → _ at hrest
  rw [ofTokens]
  cases hp : parseLevel topLevel tokens with
  | error e =>
    rw [hp] at hm
    exact ⟨c', fun fuel hf => (hm fuel hf).bind_error _, by rintro _ ⟨⟩⟩
  | ok p =>
    rw [hp] at hm
    obtain ⟨t, rest, hahead⟩ := exists_ahead hinside
    have hr := (hrest p hp).2
    obtain ⟨e, r, shorter⟩ := p
    obtain rfl : t :: rest = r := hahead.symm.trans hr
    by_cases hk : t.kind = .eof
    · have hd := reaches_demand_of_eof hahead hk
      have he : expect .eof (t :: rest) = .ok _ := expect_cons rest hk
      simp only [bind, Except.bind, he]
      refine ⟨_, fun fuel hf => (hm fuel hf).bind (hd.bind (.pure hd.moves.inside e)), ?_⟩
      exact fun _ _ => (hend.kind_eq_eof_iff (getElem?_of_ahead hahead)).mp hk
    · have hd := reaches_demand_of_ne hahead hk
      have he : expect .eof (t :: rest) = .error _ := expect_eq_error.mpr ⟨hk, rfl⟩
      simp only [bind, Except.bind, he]
      exact ⟨_, fun fuel hf => (hm fuel hf).bind (hd.bind_error _), by rintro _ ⟨⟩⟩

/-- **Reading stays inside the text and comes to an end**. The tokens of a text have one end, the last
of them. Wherever among them the reader begins a task, a fixed amount of fuel is enough, the cursor moves
forward only and looks at tokens only. Where a phrase is read the cursor has gone on, and what is read is
what the parser reads. A whole text is read as the parser reads it, and where this succeeds the cursor
stands on the end. -/
theorem read_stays_inside {text : String} (h : Token.lex text = .ok tokens) :
    Terminated tokens ∧
    (∀ task (c : Cursor), c.pos < tokens.length → ∃ result c', ∀ fuel,
      9 * (tokens.length + 1) ≤ fuel → Reaches tokens (read tokens fuel task) c result c') ∧
    (∀ (t : Tier) (c : Cursor), c.pos < tokens.length → ∃ c',
      (∀ fuel, 9 * (tokens.length + 1) ≤ fuel → Reaches tokens (read tokens fuel (.phrase t)) c
        ((t.parse (tokens.drop c.pos)).map Parsed.expr) c') ∧
      ∀ p, t.parse (tokens.drop c.pos) = .ok p → c.pos < c'.pos ∧ tokens.drop c'.pos = p.rest) ∧
    ∃ c', (∀ fuel, 9 * (tokens.length + 1) ≤ fuel →
        Reaches tokens (readText tokens fuel) ⟨0, []⟩ (parse text) c') ∧
      ∀ e, parse text = .ok e → c'.pos + 1 = tokens.length := by
  obtain ⟨ls, hls, hts⟩ := Token.exists_lossless_of_lex h
  have hend : Terminated tokens := ⟨ls, _, hts, rfl, hls.ne_eof⟩
  have hparse : parse text = ofTokens tokens := by rw [parse, h]; rfl
  rw [hparse]
  exact ⟨hend, fun task c hc => exists_reaches hend task hc, fun t c hc => exists_reaches_phrase hend t hc,
    exists_reaches_readText hend⟩

/-- Signs, an index, parentheses and an operator between; the end is the eleventh token. -/
theorem read_stays_inside_signs :
    ∃ tokens c', Token.lex "-v[i]&&!(w)" = .ok tokens ∧ Terminated tokens ∧
      (∀ fuel, 108 ≤ fuel → Reaches tokens (readText tokens fuel) ⟨0, []⟩
        (.ok (.binary (.connective .and) (.unary .neg (.index (.ident "v") (.ident "i")))
          (.unary .not (.ident "w")))) c') ∧ c'.pos = 10 := by
  have hp : parse "-v[i]&&!(w)" = .ok (.binary (.connective .and)
      (.unary .neg (.index (.ident "v") (.ident "i"))) (.unary .not (.ident "w"))) := by cbv
  obtain ⟨tokens, hl, hlen⟩ : ∃ tokens, Token.lex "-v[i]&&!(w)" = .ok tokens ∧ tokens.length = 11 :=
    ⟨_, by cbv, rfl⟩
  obtain ⟨hend, -, -, c', hread, hstop⟩ := read_stays_inside hl
  rw [hp, hlen] at hread hstop
  exact ⟨tokens, c', hl, hend, hread, Nat.succ.inj (hstop _ rfl)⟩

end Cutflow.Expr

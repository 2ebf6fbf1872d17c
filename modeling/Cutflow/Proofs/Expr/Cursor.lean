import Cutflow.Proofs.Expr.Phrase

/-!
# Reading by position

The parser takes tokens off the front of a list, and the list tells that it comes to an end. Here
expressions are read with a cursor: the list stays as it is, and the reader looks up the token at its
place without asking whether there is one. Its loops go on until a token ends them, and behind a
parenthesis or a bracket it begins again with a whole expression. Nothing in the reader itself keeps it
among the tokens or makes it end.

## The model

There is a function for each tier of the grammar, and one for each of the two loops, which take on what
has been read (`Task`). The cursor knows its place and all the places it has looked at. A call needs one
unit of fuel more than the calls it makes, so fuel limits how deep calls are nested and nothing else.

`Reaches` says how a part of reading ends that leaves neither the tokens nor its fuel: at a place further
on, with what is read or with an error of the text.

## What is proved

* `reaches_bump`, `reaches_bump_of_eof`: the cursor is moved behind tokens that are not the last one.
* `reaches_consume_of_eq`, `reaches_demand_of_eq`, `reaches_consumeOne`: so are all steps that take a
  token.
-/

namespace Cutflow.Expr

open Token (Kind)

/-! ### The reader -/

/-- The place of the reader among the tokens, and the places it has looked at, in their order. -/
structure Cursor where
  pos : Nat
  looked : List Nat

/-- The cursor after it has looked at its place. -/
def Cursor.look (c : Cursor) : Cursor := { c with looked := c.looked ++ [c.pos] }

/-- The cursor one token further. -/
def Cursor.next (c : Cursor) : Cursor := { c with pos := c.pos + 1 }

/-- Why the reader comes to no expression. -/
inductive Halt where
  /-- The text has an error. -/
  | error (e : Error)
  /-- There is no token at the place. -/
  | outside
  /-- The fuel is used up. -/
  | exhausted

/-- A part of reading: it moves the cursor. -/
abbrev Walk := EStateM Halt Cursor

/-- What is to be read. -/
inductive Task where
  /-- A phrase of a tier. -/
  | phrase (t : Tier)
  /-- The operators of a tier with their right operands, behind `left`. -/
  | operators (t : Tier) (left : Expr)
  /-- The indices behind `base`. -/
  | indices (base : Expr)

section Reader

variable (tokens : List Token)

/-- The token at the cursor. -/
def look : Walk Token := do
  let c ← get
  match tokens[c.pos]? with
  | some t =>
    set c.look
    return t
  | none => throw .outside

/-- The token at the cursor, which goes on unless this is the end. -/
def bump : Walk Token := do
  let t ← look tokens
  if t.kind ≠ .eof then
    modify Cursor.next
  return t

/-- Whether the token at the cursor is the one asked for; if so, it is taken. -/
def consume (k : Kind) : Walk Bool := do
  if (← look tokens).kind = k then
    let _ ← bump tokens
    return true
  else
    return false

/-- The token at the cursor has to be the one asked for. -/
def demand (k : Kind) : Walk Unit := do
  if (← look tokens).kind = k then
    let _ ← bump tokens
  else
    throw (.error (.parse (← look tokens).start (.expected k (← look tokens).kind)))

/-- The first entry of a table whose token is at the cursor; this token is taken. -/
def consumeOne {α : Type} : List (Kind × α) → Walk (Option α)
  | [] => return none
  | (k, a) :: table => do
    if ← consume tokens k then
      return some a
    else
      consumeOne table

/-- Do a task with calls nested as deep as there is fuel. -/
def read : Nat → Task → Walk Expr
  | 0, _ => throw .exhausted
  | fuel + 1, .phrase .primary => do
    let t ← bump tokens
    match t.kind with
    | .number x => return .number x
    | .bool b => return .bool b
    | .ident name => return .ident name
    | .lparen => do
      let inner ← read fuel (.phrase .disjunction)
      demand tokens .rparen
      return inner
    | .eof => throw (.error (.parse t.start .unexpectedEnd))
    | other => throw (.error (.parse t.start (.unexpectedToken other)))
  | fuel + 1, .phrase .indexed => do
    let base ← read fuel (.phrase .primary)
    read fuel (.indices base)
  | fuel + 1, .phrase .signed => do
    match ← consumeOne tokens signs with
    | some op => do
      let operand ← read fuel (.phrase .signed)
      return .unary op operand
    | none => read fuel (.phrase .indexed)
  | fuel + 1, .phrase t => do
    let first ← read fuel (.phrase t.next)
    read fuel (.operators t first)
  | fuel + 1, .operators t left => do
    match ← consumeOne tokens t.operators with
    | some op => do
      let right ← read fuel (.phrase t.next)
      read fuel (.operators t (.binary op left right))
    | none => return left
  | fuel + 1, .indices base => do
    if ← consume tokens .lbracket then
      let entry ← read fuel (.phrase .disjunction)
      demand tokens .rbracket
      read fuel (.indices (.index base entry))
    else
      return base

/-- Read a whole text. -/
def readText (fuel : Nat) : Walk Expr := do
  let e ← read tokens fuel (.phrase .disjunction)
  demand tokens .eof
  return e

end Reader

/-! ### Where the cursor goes -/

/-- The end of the text is the last token, and no other. -/
def Terminated (tokens : List Token) : Prop :=
  ∃ front stop, tokens = front ++ [stop] ∧ stop.kind = .eof ∧ ∀ t ∈ front, t.kind ≠ .eof

/-- The cursor goes forward from `c` to `c'`, to a place with a token, and looks at places from the one
to the other only, without turning back. -/
structure Moves (tokens : List Token) (c c' : Cursor) : Prop where
  forward : c.pos ≤ c'.pos
  inside : c'.pos < tokens.length
  looked : ∃ seen, c'.looked = c.looked ++ seen ∧ seen.Pairwise (· ≤ ·) ∧
    ∀ i ∈ seen, c.pos ≤ i ∧ i ≤ c'.pos

/-- How a part of reading ends that neither leaves the tokens nor uses up its fuel. -/
def outcome {α : Type} (c : Cursor) : Except Error α → EStateM.Result Halt Cursor α
  | .ok a => .ok a c
  | .error e => .error (.error e) c

/-- Begun at `c`, the part of reading ends at `c'` with a result or with an error of the text. -/
structure Reaches {α : Type} (tokens : List Token) (m : Walk α) (c : Cursor) (result : Except Error α)
    (c' : Cursor) : Prop where
  run : m.run c = outcome c' result
  moves : Moves tokens c c'

variable {tokens rest : List Token} {t : Token} {c c' c'' : Cursor} {k : Kind} {α β : Type}

theorem Terminated.kind_eq_eof_iff (h : Terminated tokens) {i : Nat} (ht : tokens[i]? = some t) :
    t.kind = .eof ↔ i + 1 = tokens.length := by
  obtain ⟨front, stop, rfl, hstop, hfront⟩ := h
  rw [List.length_append, List.length_singleton, Nat.add_right_cancel_iff]
  constructor
  · intro hk
    by_contra hne
    have hi : i < front.length := by
      have := (List.getElem?_eq_some_iff.mp ht).1
      rw [List.length_append, List.length_singleton] at this
      omega
    rw [List.getElem?_append_left hi] at ht
    exact hfront t (List.mem_of_getElem? ht) hk
  · rintro rfl
    rw [List.getElem?_concat_length] at ht
    cases ht
    exact hstop

namespace Moves

theorem refl (h : c.pos < tokens.length) : Moves tokens c c :=
  ⟨le_rfl, h, [], (List.append_nil _).symm, .nil, by simp⟩

theorem trans (h : Moves tokens c c') (h' : Moves tokens c' c'') : Moves tokens c c'' := by
  obtain ⟨seen, hs, hsorted, hbetween⟩ := h.looked
  obtain ⟨seen', hs', hsorted', hbetween'⟩ := h'.looked
  refine ⟨h.forward.trans h'.forward, h'.inside, seen ++ seen', ?_, ?_, ?_⟩
  · rw [hs', hs, List.append_assoc]
  · refine List.pairwise_append.mpr ⟨hsorted, hsorted', fun i hi j hj => ?_⟩
    exact (hbetween i hi).2.trans (hbetween' j hj).1
  · intro i hi
    rcases List.mem_append.mp hi with hi | hi
    · exact ⟨(hbetween i hi).1, (hbetween i hi).2.trans h'.forward⟩
    · exact ⟨h.forward.trans (hbetween' i hi).1, (hbetween' i hi).2⟩

theorem look (h : c.pos < tokens.length) : Moves tokens c c.look :=
  ⟨le_rfl, h, [c.pos], rfl, List.pairwise_singleton _ _, by simp [Cursor.look]⟩

theorem next (h : c.pos + 1 < tokens.length) : Moves tokens c c.next :=
  ⟨Nat.le_succ _, h, [], (List.append_nil _).symm, .nil, by simp⟩

end Moves

namespace Reaches

variable {m : Walk α} {f : α → Walk β} {a : α} {e : Error} {result : Except Error β}

theorem pure (h : c.pos < tokens.length) (a : α) : Reaches tokens (pure a) c (.ok a) c :=
  ⟨rfl, .refl h⟩

theorem throw (h : c.pos < tokens.length) (e : Error) :
    Reaches tokens (throw (.error e) : Walk α) c (.error e) c :=
  ⟨rfl, .refl h⟩

theorem bind (h : Reaches tokens m c (.ok a) c') (h' : Reaches tokens (f a) c' result c'') :
    Reaches tokens (m >>= f) c result c'' :=
  ⟨by rw [EStateM.run_bind, h.run]; exact h'.run, h.moves.trans h'.moves⟩

theorem bind_error (h : Reaches tokens m c (.error e) c') (f : α → Walk β) :
    Reaches tokens (m >>= f) c (.error e) c' :=
  ⟨by rw [EStateM.run_bind, h.run]; rfl, h.moves⟩

end Reaches

/-! ### The token at the cursor -/

theorem exists_ahead (h : c.pos < tokens.length) : ∃ t rest, tokens.drop c.pos = t :: rest :=
  ⟨_, _, List.drop_eq_getElem_cons h⟩

section Ahead

variable (hahead : tokens.drop c.pos = t :: rest)
include hahead

theorem getElem?_of_ahead : tokens[c.pos]? = some t := by
  have h := congrArg (·[0]?) hahead
  rwa [List.getElem?_drop] at h

theorem pos_lt_of_ahead : c.pos < tokens.length :=
  (List.getElem?_eq_some_iff.mp (getElem?_of_ahead hahead)).1

theorem drop_of_ahead : tokens.drop (c.pos + 1) = rest := by
  rw [← List.tail_drop, hahead, List.tail_cons]

theorem reaches_look : Reaches tokens (look tokens) c (.ok t) c.look := by
  refine ⟨?_, .look (pos_lt_of_ahead hahead)⟩
  simp only [look, EStateM.run_bind, EStateM.run_get, getElem?_of_ahead hahead]
  rfl

/-- At the end the cursor stays. -/
theorem reaches_bump_of_eof (hk : t.kind = .eof) : Reaches tokens (bump tokens) c (.ok t) c.look := by
  refine (reaches_look hahead).bind ⟨?_, .refl (pos_lt_of_ahead hahead)⟩
  rw [if_neg (not_not_intro hk)]
  rfl

/-- Behind another token than the end there is one more. -/
theorem reaches_bump (hend : Terminated tokens) (hk : t.kind ≠ .eof) :
    Reaches tokens (bump tokens) c (.ok t) c.look.next := by
  have hlt := pos_lt_of_ahead hahead
  have hne := mt (hend.kind_eq_eof_iff (getElem?_of_ahead hahead)).mpr hk
  refine (reaches_look hahead).bind ⟨?_, .next (show c.pos + 1 < _ by omega)⟩
  rw [if_pos hk]
  rfl

theorem reaches_consume_of_eq (hend : Terminated tokens) (hne : k ≠ .eof) (hk : t.kind = k) :
    Reaches tokens (consume tokens k) c (.ok true) c.look.look.next := by
  subst hk
  have hb := reaches_bump (c := c.look) hahead hend hne
  refine (reaches_look hahead).bind ?_
  rw [if_pos rfl]
  exact hb.bind (.pure hb.moves.inside true)

theorem reaches_consume_of_ne (hk : t.kind ≠ k) :
    Reaches tokens (consume tokens k) c (.ok false) c.look := by
  refine (reaches_look hahead).bind ?_
  rw [if_neg hk]
  exact .pure (pos_lt_of_ahead (c := c.look) hahead) false

theorem reaches_demand_of_eq (hend : Terminated tokens) (hne : k ≠ .eof) (hk : t.kind = k) :
    Reaches tokens (demand tokens k) c (.ok ()) c.look.look.next := by
  subst hk
  have hb := reaches_bump (c := c.look) hahead hend hne
  refine (reaches_look hahead).bind ?_
  rw [if_pos rfl]
  exact hb.bind (.pure hb.moves.inside ())

theorem reaches_demand_of_eof (hk : t.kind = .eof) :
    Reaches tokens (demand tokens .eof) c (.ok ()) c.look.look := by
  have hb := reaches_bump_of_eof (c := c.look) hahead hk
  refine (reaches_look hahead).bind ?_
  rw [if_pos hk]
  exact hb.bind (.pure hb.moves.inside ())

theorem reaches_demand_of_ne (hk : t.kind ≠ k) :
    Reaches tokens (demand tokens k) c (.error (.parse t.start (.expected k t.kind)))
      c.look.look.look := by
  refine (reaches_look hahead).bind ?_
  rw [if_neg hk]
  refine (reaches_look (c := c.look) hahead).bind ?_
  refine (reaches_look (c := c.look.look) hahead).bind ?_
  exact .throw (pos_lt_of_ahead (c := c.look.look.look) hahead) _

/-- Looking through a table for the token takes the token if it finds it. -/
theorem reaches_consumeOne (hend : Terminated tokens) {table : List (Kind × α)}
    (htable : ∀ p ∈ table, p.1 ≠ .eof) :
    ∃ c', Reaches tokens (consumeOne tokens table) c (.ok (table.lookup t.kind)) c' ∧
      tokens.drop c'.pos = if (table.lookup t.kind).isSome then rest else t :: rest := by
  induction table generalizing c with
  | nil => exact ⟨c, .pure (pos_lt_of_ahead hahead) none, hahead⟩
  | cons p table ih =>
    obtain ⟨k, a⟩ := p
    obtain ⟨hne, htable⟩ := List.forall_mem_cons.mp htable
    by_cases hk : t.kind = k
    · have hl : List.lookup t.kind ((k, a) :: table) = some a := by simp [hk]
      rw [hl]
      have h := reaches_consume_of_eq hahead hend hne hk
      exact ⟨_, h.bind (.pure h.moves.inside _), drop_of_ahead hahead⟩
    · have hl : List.lookup t.kind ((k, a) :: table) = table.lookup t.kind := by
        rw [List.lookup_cons, beq_false_of_ne hk]
      rw [hl]
      have h := reaches_consume_of_ne hahead hk
      obtain ⟨c', h', hc'⟩ := ih (c := c.look) hahead htable
      exact ⟨c', h.bind h', hc'⟩

end Ahead

end Cutflow.Expr

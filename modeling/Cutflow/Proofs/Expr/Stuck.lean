import Cutflow.Proofs.Expr.Phrase
import Cutflow.Proofs.Token.Lossless

/-!
# Where reading gets stuck

The parser decides by one token ahead what to do, and takes no decision back. So it reads on as long as
what it has read is the beginning of some expression, and fails at the first token with which it is none:
this is the token that its error points at.

## The model

`Stuck a ks k` follows the grammar down to the place where the parser fails: it has read the tokens `ks`
and cannot go on with `k`. There are two such places. Where an operand has to stand, `k` begins none; or
an expression is complete, `k` does not go on with it, and is not the token that has to close it.

## What is proved

* `settled_of_parse`: where the parser fails it is stuck, and where it succeeds nothing that follows
  belongs to the phrase.
* `Stuck.exists_derives`: what is read before the parser is stuck begins some phrase.
* `Stuck.fails`: where the parser is stuck it fails, whatever follows.
* `parse_error_at_first_misfit`: an error points at the first token that no expression goes on with.
-/

namespace Cutflow.Expr

open Token (Kind)

/-- A token of this kind does not go on with a chain of level `n`. -/
def Ends (n : Nat) (k : Kind) : Prop :=
  k ≠ .lbracket ∧ ∀ op, binaryOp? k = some op → n < level op

/-- What the parser is reading. -/
inductive Aim where
  /-- A phrase of a stratum. -/
  | phrase (s : Stratum)
  /-- An expression and the token that closes it. -/
  | closed (close : Kind)

/-- The stratum of the phrase that is read. -/
def Aim.stratum : Aim → Stratum
  | phrase s => s
  | closed _ => .chain topLevel

/-- The parser has read the tokens `ks`, which may be none, and cannot go on with `k`. -/
inductive Stuck : Aim → List Kind → Kind → Prop where
  /-- No operand begins with the token. -/
  | operand {k : Kind} : opens k = false → Stuck (.phrase .primary) [] k
  | parens {ks : List Kind} {k : Kind} : Stuck (.closed .rparen) ks k →
      Stuck (.phrase .primary) (.lparen :: ks) k
  | primary {ks : List Kind} {k : Kind} : Stuck (.phrase .primary) ks k →
      Stuck (.phrase .indexed) ks k
  | index {ks js : List Kind} {k : Kind} {e : Expr} : Derives .indexed ks e →
      Stuck (.closed .rbracket) js k → Stuck (.phrase .indexed) (ks ++ .lbracket :: js) k
  /-- There is no operator before the operand, or it would have been read. -/
  | indexed {ks : List Kind} {k : Kind} : (∀ k' ∈ (ks ++ [k]).head?, unaryOp? k' = none) →
      Stuck (.phrase .indexed) ks k → Stuck (.phrase .signed) ks k
  | unary {ks : List Kind} {k k' : Kind} {op : UnaryOp} : unaryOp? k' = some op →
      Stuck (.phrase .signed) ks k → Stuck (.phrase .signed) (k' :: ks) k
  | signed {ks : List Kind} {k : Kind} : Stuck (.phrase .signed) ks k →
      Stuck (.phrase (.chain 0)) ks k
  | raise {n : Nat} {ks : List Kind} {k : Kind} : Stuck (.phrase (.chain n)) ks k →
      Stuck (.phrase (.chain (n + 1))) ks k
  | binary {n : Nat} {ks js : List Kind} {k k' : Kind} {op : BinaryOp} {a : Expr} :
      binaryOp? k' = some op → level op = n + 1 → Derives (.chain (n + 1)) ks a →
      Stuck (.phrase (.chain n)) js k → Stuck (.phrase (.chain (n + 1))) (ks ++ k' :: js) k
  | inside {close k : Kind} {ks : List Kind} : Stuck (.phrase (.chain topLevel)) ks k →
      Stuck (.closed close) ks k
  /-- The expression is complete, and another token than the one that closes it follows. -/
  | unclosed {close k : Kind} {ks : List Kind} {e : Expr} : Derives (.chain topLevel) ks e →
      Ends topLevel k → k ≠ close → Stuck (.closed close) ks k

variable {n : Nat} {s : Stratum} {a b : Aim} {ks : List Kind} {k close : Kind}
  {ts used rest : List Token} {t : Token} {err : Error}

/-! ### What is read can be completed -/

/-- **What has been read begins some phrase**: an operand is put where one is missing, and what is open
is closed. -/
theorem Stuck.exists_derives (h : Stuck a ks k) : ∃ js e, Derives a.stratum (ks ++ js) e := by
  induction h with
  | operand hk => exact ⟨[.ident "x"], _, .ident "x"⟩
  | parens h ih =>
    obtain ⟨js, e, hd⟩ := ih
    exact ⟨js ++ [.rparen], e, by simpa [Aim.stratum] using Derives.parens hd⟩
  | primary h ih =>
    obtain ⟨js, e, hd⟩ := ih
    exact ⟨js, e, .primary hd⟩
  | index hb h ih =>
    obtain ⟨js, i, hd⟩ := ih
    exact ⟨js ++ [.rbracket], _, by simpa [Aim.stratum] using Derives.index hb hd⟩
  | indexed hk h ih =>
    obtain ⟨js, e, hd⟩ := ih
    exact ⟨js, e, .indexed hd⟩
  | unary hop h ih =>
    obtain ⟨js, e, hd⟩ := ih
    exact ⟨js, _, .unary hop hd⟩
  | signed h ih =>
    obtain ⟨js, e, hd⟩ := ih
    exact ⟨js, e, .signed hd⟩
  | raise h ih =>
    obtain ⟨js, e, hd⟩ := ih
    exact ⟨js, e, .raise hd⟩
  | binary hop hl ha h ih =>
    obtain ⟨js, e, hd⟩ := ih
    exact ⟨js, _, by simpa [Aim.stratum] using Derives.binary hop hl ha hd⟩
  | inside h ih => exact ih
  | unclosed hd hk hne => exact ⟨[], _, by simpa [Aim.stratum] using hd⟩

/-! ### Whatever follows, the parser fails -/

/-- The parser fails to read what it is to read. -/
def Aim.Fails (ts : List Token) : Aim → Prop
  | phrase .primary => ∃ err, parsePrimary ts = .error err
  | phrase .indexed => ∃ err, parseIndexed ts = .error err
  | phrase .signed => ∃ err, parseUnary ts = .error err
  | phrase (.chain n) => ∃ err, parseLevel n ts = .error err
  | closed close => (∃ err, parseLevel topLevel ts = .error err) ∨
      ∃ p err, parseLevel topLevel ts = .ok p ∧ expect close p.rest = .error err

theorem closed_cons_iff : Closed n (t :: rest) ↔ Ends n t.kind := by
  simp [Closed, Ends]

theorem expect_eq_error :
    expect k (t :: rest) = .error err ↔
      t.kind ≠ k ∧ err = .parse t.start (.expected k t.kind) := by
  by_cases hk : t.kind = k
  · simp [expect, hk]
  · simp [expect, hk, eq_comm]

theorem parsePrimary_of_not_opens (rest : List Token) (h : opens t.kind = false) :
    ∃ fault, parsePrimary (t :: rest) = .error (.parse t.start fault) := by
  rw [parsePrimary]
  split
  next hk => rw [hk] at h; cases h
  next hk => rw [hk] at h; cases h
  next hk => rw [hk] at h; cases h
  next hk => rw [hk] at h; cases h
  next => exact ⟨_, rfl⟩
  next => exact ⟨_, rfl⟩

theorem Stuck.fails (h : Stuck a ks k) : ∀ {used : List Token} {t : Token} (rest : List Token),
    used.map Token.kind = ks → t.kind = k → a.Fails (used ++ t :: rest) := by
  induction h with
  | operand hk =>
    intro used t rest hks ht
    rw [List.map_eq_nil_iff.mp hks]
    obtain ⟨fault, hp⟩ := parsePrimary_of_not_opens rest (ht ▸ hk)
    exact ⟨_, hp⟩
  | parens h ih =>
    intro used t rest hks ht
    obtain ⟨t', used, rfl, ht', hu⟩ := List.map_eq_cons_iff.mp hks
    rw [Aim.Fails, List.cons_append, parsePrimary_of_lparen ht']
    rcases ih rest hu ht with ⟨err, hp⟩ | ⟨p, err, hp, hc⟩
    · exact ⟨err, by rw [hp]; rfl⟩
    · exact ⟨err, by simp only [hp, bind, Except.bind, hc]⟩
  | primary h ih =>
    intro used t rest hks ht
    obtain ⟨err, hp⟩ := ih rest hks ht
    exact ⟨err, by rw [parseIndexed, hp]; rfl⟩
  | index hb h ih =>
    intro used t rest hks ht
    obtain ⟨used, more, rfl, hu, hm⟩ := List.map_eq_append_iff.mp hks
    obtain ⟨t', used', rfl, ht', hu'⟩ := List.map_eq_cons_iff.mp hm
    obtain ⟨hr, hp⟩ := complete hb (rfl : _ = used ++ t' :: (used' ++ t :: rest)) hu
    rw [Aim.Fails, List.append_assoc, List.cons_append, hp, parseIndices_of_lbracket rfl ht']
    rcases ih rest hu' ht with ⟨err, hq⟩ | ⟨q, err, hq, hc⟩
    · exact ⟨err, by rw [hq]; rfl⟩
    · exact ⟨err, by simp only [hq, bind, Except.bind, hc]⟩
  | indexed hk h ih =>
    intro used t rest hks ht
    obtain ⟨err, hp⟩ := ih rest hks ht
    refine ⟨err, ?_⟩
    subst hks ht
    cases used with
    | nil => rwa [List.nil_append, parseUnary_of_none (hk _ rfl)]
    | cons t' used => rwa [List.cons_append, parseUnary_of_none (hk _ rfl)]
  | unary hop h ih =>
    intro used t rest hks ht
    obtain ⟨t', used, rfl, rfl, hu⟩ := List.map_eq_cons_iff.mp hks
    obtain ⟨err, hp⟩ := ih rest hu ht
    exact ⟨err, by rw [List.cons_append, parseUnary_of_some hop, hp]; rfl⟩
  | signed h ih =>
    intro used t rest hks ht
    obtain ⟨err, hp⟩ := ih rest hks ht
    exact ⟨err, by rw [parseLevel, hp]⟩
  | raise h ih =>
    intro used t rest hks ht
    obtain ⟨err, hp⟩ := ih rest hks ht
    exact ⟨err, by rw [parseLevel, hp]; rfl⟩
  | binary hop hl ha h ih =>
    intro used t rest hks ht
    obtain ⟨used, more, rfl, hu, hm⟩ := List.map_eq_append_iff.mp hks
    obtain ⟨t', used', rfl, rfl, hu'⟩ := List.map_eq_cons_iff.mp hm
    obtain ⟨hr, hp⟩ := complete ha (rfl : _ = used ++ t' :: (used' ++ t :: rest)) hu
      (closed_cons hop (by omega))
    obtain ⟨err, hq⟩ := ih rest hu' ht
    rw [Aim.Fails, List.append_assoc, List.cons_append, hp,
      parseChain_of_some (operatorAt?_eq_some.mpr ⟨_, _, rfl, hop, hl⟩)]
    exact ⟨err, by simp only [List.tail_cons, hq, bind, Except.bind]⟩
  | inside h ih =>
    intro used t rest hks ht
    exact .inl (ih rest hks ht)
  | unclosed hd hk hne =>
    intro used t rest hks ht
    subst ht
    obtain ⟨hr, hp⟩ := (complete hd).parseLevel (rfl : _ = used ++ t :: rest) hks
      (closed_cons_iff.mpr hk)
    exact .inr ⟨_, _, hp, expect_eq_error.mpr ⟨hne, rfl⟩⟩

/-! ### Where the parser fails it is stuck -/

/-- The end of a text is among the tokens, so there is a token to look at after every phrase. -/
def Ended (ts : List Token) : Prop := ∃ t ∈ ts, t.kind = .eof

theorem Derives.not_mem_eof {e : Expr} (h : Derives s ks e) : .eof ∉ ks := by
  induction h with
  | number x => simp
  | bool b => simp
  | ident name => simp
  | parens h ih => simp [ih]
  | primary h ih => exact ih
  | index h hi ih ihi => simp [ih, ihi]
  | indexed h ih => exact ih
  | unary hop h ih =>
    rintro (⟨⟩ | ⟨_, hk⟩)
    · cases hop
    · exact ih hk
  | signed h ih => exact ih
  | raise h ih => exact ih
  | binary hop hl ha hb iha ihb =>
    intro hk
    rcases List.mem_append.mp hk with hk | ⟨⟩ | ⟨_, hk⟩
    · exact iha hk
    · cases hop
    · exact ihb hk

theorem Ended.tail (h : Ended (t :: rest)) (hk : t.kind ≠ .eof) : Ended rest := by
  obtain ⟨t', ht, hk'⟩ := h
  rcases List.mem_cons.mp ht with rfl | ht
  · exact absurd hk' hk
  · exact ⟨t', ht, hk'⟩

theorem Parsed.Reads.ended {p : Parsed ts} (h : p.Reads s) (he : Ended ts) : Ended p.rest := by
  obtain ⟨used, hu, hd⟩ := h
  obtain ⟨t, ht, hk⟩ := he
  rw [hu] at ht
  rcases List.mem_append.mp ht with ht | ht
  · exact absurd (hk ▸ List.mem_map_of_mem ht) hd.not_mem_eof
  · exact ⟨t, ht, hk⟩

/-- The error points at the token with which the parser is stuck. -/
def StuckAt (a : Aim) (ts : List Token) (err : Error) : Prop :=
  ∃ used t rest fault, ts = used ++ t :: rest ∧ err = .parse t.start fault ∧
    Stuck a (used.map Token.kind) t.kind

/-- Being stuck in a part is being stuck in the whole. -/
theorem StuckAt.within (front : List Token) (h : StuckAt a rest err) (hts : ts = front ++ rest)
    (hs : ∀ {ks k}, Stuck a ks k → Stuck b (front.map Token.kind ++ ks) k) : StuckAt b ts err := by
  obtain ⟨used, t, rest', fault, rfl, he, hk⟩ := h
  refine ⟨front ++ used, t, rest', fault, ?_, he, ?_⟩
  · rw [hts, List.append_assoc]
  · rw [List.map_append]
    exact hs hk

theorem StuckAt.imp (h : StuckAt a ts err) (hs : ∀ {ks k}, Stuck a ks k → Stuck b ks k) :
    StuckAt b ts err :=
  h.within [] (List.nil_append ts).symm hs

/-- Nothing at the front of `rest` goes on with a phrase of the stratum. -/
def Stratum.Done (rest : List Token) : Stratum → Prop
  | .primary => True
  | .indexed | .signed => ∀ t ∈ rest.head?, t.kind ≠ .lbracket
  | .chain n => Closed n rest

/-- The phrase is read as far as it goes, or the parser is stuck in it. -/
def Settled (s : Stratum) {ts : List Token} : Except Error (Parsed ts) → Prop
  | .ok p => s.Done p.rest
  | .error err => StuckAt (.phrase s) ts err

theorem Settled.imp {s' : Stratum} {result : Except Error (Parsed ts)} (h : Settled s result)
    (hd : ∀ {rest}, s.Done rest → s'.Done rest)
    (hs : ∀ {ks k}, Stuck (.phrase s) ks k → Stuck (.phrase s') ks k) : Settled s' result := by
  cases result with
  | ok p => exact hd h
  | error err => exact StuckAt.imp h hs

theorem Settled.bind {s' : Stratum} {ts' : List Token} {result : Except Error (Parsed ts')}
    {f : Parsed ts' → Except Error (Parsed ts)} (h : Settled s result)
    (herr : ∀ {err}, StuckAt (.phrase s) ts' err → StuckAt (.phrase s') ts err)
    (hok : ∀ p, result = .ok p → s.Done p.rest → Settled s' (f p)) :
    Settled s' (result >>= f) := by
  cases result with
  | ok p => exact hok p rfl h
  | error err => exact herr h

/-- Where a whole expression or the token that closes it cannot be read, the parser is stuck. -/
theorem stuckAt_closed (close : Kind) (hts : Ended ts)
    (h : Settled (.chain topLevel) (parseLevel topLevel ts)) :
    (∀ {err}, parseLevel topLevel ts = .error err → StuckAt (.closed close) ts err) ∧
      ∀ {p err}, parseLevel topLevel ts = .ok p → expect close p.rest = .error err →
        StuckAt (.closed close) ts err := by
  constructor
  · intro err he
    rw [he] at h
    exact StuckAt.imp h .inside
  · intro p err hp he
    rw [hp] at h
    have hr := reads_of_parse.1 topLevel ts p hp
    obtain ⟨t, ht, -⟩ := hr.ended hts
    obtain ⟨t, rest, hrest⟩ := List.exists_cons_of_ne_nil (List.ne_nil_of_mem ht)
    obtain ⟨used, hu, hd⟩ := hr
    rw [hrest] at he hu
    obtain ⟨hk, rfl⟩ := expect_eq_error.mp he
    have hc : Closed topLevel p.rest := h
    rw [hrest, closed_cons_iff] at hc
    exact ⟨used, t, rest, _, hu, rfl, .unclosed hd hc hk⟩

theorem Settled.bind_expect {ts' : List Token}
    {f : (p : Parsed ts') → { rest : List Token // rest.length < p.rest.length } →
      Except Error (Parsed ts)} (hts : Ended ts')
    (h : Settled (.chain topLevel) (parseLevel topLevel ts'))
    (herr : ∀ {err}, StuckAt (.closed close) ts' err → StuckAt (.phrase s) ts err)
    (hok : ∀ p rest, parseLevel topLevel ts' = .ok p → expect close p.rest = .ok rest →
      Settled s (f p rest)) :
    Settled s (parseLevel topLevel ts' >>= fun p => expect close p.rest >>= f p) := by
  obtain ⟨hl, hc⟩ := stuckAt_closed close hts h
  cases hp : parseLevel topLevel ts' with
  | error err => exact herr (hl hp)
  | ok p =>
    show Settled s (expect close p.rest >>= f p)
    cases he : expect close p.rest with
    | error err => exact herr (hc hp he)
    | ok rest => exact hok p rest hp he

theorem level_pos (op : BinaryOp) : 0 < level op := by
  obtain ⟨n, hn⟩ := exists_level op
  omega

theorem Closed.succ (h : Closed n rest) (ho : Expr.operatorAt? (n + 1) rest = none) :
    Closed (n + 1) rest := by
  intro t ht
  refine ⟨(h t ht).1, fun op hop => ?_⟩
  have hlt := (h t ht).2 op hop
  have hne : level op ≠ n + 1 := by
    intro hl
    obtain ⟨rest, rfl⟩ : ∃ rest', rest = t :: rest' := by
      cases rest with
      | nil => cases ht
      | cons t' rest =>
        cases ht
        exact ⟨rest, rfl⟩
    rw [operatorAt?_eq_some.mpr ⟨t, _, rfl, hop, hl⟩] at ho
    cases ho
  omega

theorem Settled.signed {result : Except Error (Parsed (t :: rest))} (h : Settled .indexed result)
    (ht : unaryOp? t.kind = none) : Settled .signed result := by
  cases result with
  | ok p => exact h
  | error err =>
    obtain ⟨used, t', rest', fault, hts, he, hk⟩ := h
    refine ⟨used, t', rest', fault, hts, he, .indexed ?_ hk⟩
    cases used with
    | nil =>
      obtain ⟨rfl, -⟩ := List.cons.inj hts
      rintro k ⟨⟩
      exact ht
    | cons t'' used =>
      obtain ⟨rfl, -⟩ := List.cons.inj hts
      rintro k ⟨⟩
      exact ht

theorem settled_of_not_opens (h : opens t.kind = false) :
    Settled .primary (parsePrimary (t :: rest)) := by
  obtain ⟨fault, hp⟩ := parsePrimary_of_not_opens rest h
  rw [hp]
  exact ⟨[], t, rest, fault, rfl, rfl, .operand h⟩

theorem settled_of_parse :
    (∀ n ts, Ended ts → Settled (.chain n) (parseLevel n ts)) ∧
    (∀ n ts, ∀ left : Parsed ts, left.Reads (.chain (n + 1)) → Closed n left.rest →
      Ended left.rest → Settled (.chain (n + 1)) (parseChain n left)) ∧
    (∀ ts, Ended ts → Settled .signed (parseUnary ts)) ∧
    (∀ ts, Ended ts → Settled .indexed (parseIndexed ts)) ∧
    (∀ ts, ∀ base : Parsed ts, base.Reads .indexed → Ended base.rest →
      Settled .indexed (parseIndices base)) ∧
    (∀ ts, Ended ts → Settled .primary (parsePrimary ts)) := by
  apply parseLevel.mutual_induct
  case case1 => -- level 0
    intro ts ih hts
    rw [parseLevel]
    exact (ih hts).imp (fun hd t ht => ⟨hd t ht, fun op _ => level_pos op⟩) .signed
  case case2 => -- a level above
    intro ts n ih ihChain hts
    rw [parseLevel]
    refine (ih hts).bind (StuckAt.imp · .raise) ?_
    intro first hf hc
    have hr := reads_of_parse.1 n ts first hf
    exact ihChain first (hr.imp .raise) hc (hr.ended hts)
  case case3 => -- the end of a chain
    intro n ts left h hl hc hts
    rw [parseChain_of_none h]
    exact hc.succ h
  case case4 => -- one more operator in a chain
    intro n ts left op h ih ihChain hl hc hts
    rw [parseChain_of_some h]
    obtain ⟨t, rest, hrest, hop, hlevel⟩ := operatorAt?_eq_some.mp h
    have htail : Ended left.rest.tail := by
      rw [hrest] at hts ⊢
      refine hts.tail fun hk => ?_
      rw [hk] at hop
      cases hop
    refine (ih htail).bind ?_ ?_
    · intro err he
      obtain ⟨used, hu, hd⟩ := hl
      refine he.within (used ++ [t]) ?_ ?_
      · refine hu.trans ?_
        rw [hrest, List.tail_cons, List.append_assoc, List.singleton_append]
      · intro ks k hk
        simpa using Stuck.binary hop hlevel hd hk
    · intro right hp hc'
      have hr := reads_of_parse.1 n _ right hp
      exact ihChain right (hl.binary h hr) hc' (hr.ended htail)
  case case5 => -- nothing to read
    intro ih hts
    obtain ⟨t, ht, -⟩ := hts
    cases ht
  case case6 => -- no operator before the operand
    intro t rest h ih hts
    rw [parseUnary_of_none h]
    exact (ih hts).signed h
  case case7 => -- an operator before the operand
    intro t rest op h ih hts
    have hrest : Ended rest := hts.tail fun hk => by
      rw [hk] at h
      cases h
    rw [parseUnary_of_some h]
    refine (ih hrest).bind ?_ fun p _ hd => hd
    intro err he
    exact he.within [t] rfl (.unary h)
  case case8 => -- a primary and its indices
    intro ts ih ihIndices hts
    rw [parseIndexed]
    refine (ih hts).bind (StuckAt.imp · .primary) ?_
    intro base hb _
    have hr := reads_of_parse.2.2.2.2.2 ts base hb
    exact ihIndices base (hr.imp .primary) (hr.ended hts)
  case case9 => -- no token left
    intro ts base h hb hts
    rw [h] at hts
    obtain ⟨t, ht, -⟩ := hts
    cases ht
  case case10 => -- one more index
    intro ts base t rest h ht ih ihIndices hb hts
    rw [parseIndices_of_lbracket h ht]
    have hrest : Ended rest := by
      rw [h] at hts
      exact hts.tail (by simp [ht])
    refine Settled.bind_expect hrest (ih hrest) ?_ ?_
    · intro err he
      obtain ⟨used, hu, hd⟩ := hb
      refine he.within (used ++ [t]) ?_ ?_
      · refine hu.trans ?_
        rw [h, List.append_assoc, List.singleton_append]
      · intro ks k hk
        simpa [ht] using Stuck.index hd hk
    · intro entry close he hc
      have hr := reads_of_parse.1 topLevel rest entry he
      refine ihIndices entry close.val close.property (hb.index h ht hr hc) ?_
      obtain ⟨t', hc', ht'⟩ := expect_eq_ok.mp hc
      have hend := hr.ended hrest
      rw [hc'] at hend
      exact hend.tail (by simp [ht'])
  case case11 => -- no index
    intro ts base t rest h ht hb hts
    have hne : ∀ t ∈ base.rest.head?, t.kind ≠ .lbracket := by simpa [h] using ht
    rw [parseIndices_of_ne hne]
    exact hne
  case case12 => -- nothing to read
    intro hts
    obtain ⟨t, ht, -⟩ := hts
    cases ht
  case case13 => -- a number
    intro t rest x h hts
    rw [parsePrimary, h]
    trivial
  case case14 => -- a truth value
    intro t rest b h hts
    rw [parsePrimary, h]
    trivial
  case case15 => -- an identifier
    intro t rest name h hts
    rw [parsePrimary, h]
    trivial
  case case16 => -- parentheses
    intro t rest h ih hts
    have hrest : Ended rest := hts.tail (by simp [h])
    rw [parsePrimary_of_lparen h]
    refine Settled.bind_expect hrest (ih hrest) ?_ fun _ _ _ _ => trivial
    intro err he
    exact he.within [t] rfl fun hk => by simpa [h] using Stuck.parens hk
  case case17 => -- the end of the text
    intro t rest h hts
    exact settled_of_not_opens (by rw [h]; rfl)
  case case18 => -- no primary
    intro t rest h1 h2 h3 h4 h5 hts
    refine settled_of_not_opens ?_
    cases hk : t.kind <;> first | rfl | simp_all

/-! ### Errors in texts -/

/-- The tokens begin a text that is an expression; its end counts as a token. -/
def Viable (ks : List Kind) : Prop := ∃ js e, Phrase .disjunction js e ∧ ks <+: js ++ [.eof]

theorem Stuck.viable (h : Stuck (.closed .eof) ks k) : Viable ks := by
  obtain ⟨js, e, hd⟩ := h.exists_derives
  refine ⟨ks ++ js, e, phrase_iff_derives.mpr hd, ?_⟩
  rw [List.append_assoc]
  exact List.prefix_append _ _

/-- If the tokens up to the one with which the parser is stuck began an expression, the parser would
read this expression, but it fails on everything that begins with them. -/
theorem Stuck.not_viable (h : Stuck (.closed .eof) ks k) : ¬Viable (ks ++ [k]) := by
  rintro ⟨js, e, hp, us, hus⟩
  have hts : ks.map unplaced ++ unplaced k :: us.map unplaced = js.map unplaced ++ [unplaced .eof] := by
    have hm := congrArg (List.map unplaced) hus
    simpa using hm
  have hok : ofTokens (ks.map unplaced ++ unplaced k :: us.map unplaced) = .ok e := by
    refine ofTokens_eq_ok_iff.mpr ⟨js.map unplaced, unplaced .eof, [], hts, rfl, ?_⟩
    rw [map_kind_unplaced]
    exact phrase_iff_derives.mp hp
  simp only [ofTokens, bind_eq_ok] at hok
  obtain ⟨p, hp, close, hc, -⟩ := hok
  have hk : (unplaced k).kind = k := rfl
  rcases h.fails (us.map unplaced) (map_kind_unplaced ks) hk with ⟨err, he⟩ | ⟨q, err, hq, he⟩
  · cases hp.symm.trans he
  · cases hp.symm.trans hq
    cases hc.symm.trans he

theorem stuckAt_of_ofTokens (hts : Ended ts) (h : ofTokens ts = .error err) :
    StuckAt (.closed .eof) ts err := by
  obtain ⟨hl, hc⟩ := stuckAt_closed .eof hts (settled_of_parse.1 topLevel ts hts)
  rw [ofTokens] at h
  cases hp : parseLevel topLevel ts with
  | error e =>
    rw [hp] at h
    cases h
    exact hl hp
  | ok p =>
    cases he : expect .eof p.rest with
    | error e =>
      rw [hp] at h
      simp only [bind, Except.bind, he] at h
      cases h
      exact hc hp he
    | ok rest =>
      rw [hp] at h
      simp only [bind, Except.bind, he] at h
      cases h

/-- **An error points at the first token that no expression goes on with**: if a text is cut into tokens
but not read, the offset of the error is the place of one of them, which may be the end of the text. The
tokens before it begin an expression; together with it they begin none. -/
theorem parse_error_at_first_misfit {text : String} (h : Token.lex text = .ok ts)
    (herr : parse text = .error err) :
    ∃ before t after fault, ts = before ++ t :: after ∧ err = .parse t.start fault ∧
      (t.kind = .eof → t.start = text.utf8ByteSize) ∧
      Viable (before.map Token.kind) ∧ ¬Viable (before.map Token.kind ++ [t.kind]) := by
  obtain ⟨ls, hls, rfl⟩ := Token.exists_lossless_of_lex h
  have hend : Ended (ls ++ [⟨.eof, text.utf8ByteSize, text.utf8ByteSize⟩]) :=
    ⟨_, List.mem_append_right _ List.mem_cons_self, rfl⟩
  have hof : ofTokens (ls ++ [⟨.eof, text.utf8ByteSize, text.utf8ByteSize⟩]) = .error err := by
    rw [parse, h] at herr
    exact herr
  obtain ⟨before, t, after, fault, hts, he, hs⟩ := stuckAt_of_ofTokens hend hof
  refine ⟨before, t, after, fault, hts, he, ?_, hs.viable, hs.not_viable⟩
  intro hk
  have ht : t ∈ before ++ t :: after := List.mem_append_right _ List.mem_cons_self
  rw [← hts] at ht
  rcases List.mem_append.mp ht with ht | ht
  · exact absurd hk (hls.ne_eof t ht)
  · rw [List.mem_singleton.mp ht]

/-- A bracket inside a parenthesis that is open inside an index. -/
theorem parse_error_at_first_misfit_bracket :
    parse "v[(x+y]&&z" = .error (.parse 6 (.expected .rparen .rbracket)) ∧
      ∃ before t after, Token.lex "v[(x+y]&&z" = .ok (before ++ t :: after) ∧ t.start = 6 ∧
        Viable (before.map Token.kind) ∧ ¬Viable (before.map Token.kind ++ [t.kind]) := by
  have hp : parse "v[(x+y]&&z" = .error (.parse 6 (.expected .rparen .rbracket)) := by cbv
  obtain ⟨ts, hl⟩ : ∃ ts, Token.lex "v[(x+y]&&z" = .ok ts := ⟨_, by cbv⟩
  obtain ⟨before, t, after, fault, rfl, he, -, hv, hn⟩ := parse_error_at_first_misfit hl hp
  obtain ⟨hs, -⟩ := Error.parse.inj he
  exact ⟨hp, before, t, after, hl, hs.symm, hv, hn⟩

end Cutflow.Expr

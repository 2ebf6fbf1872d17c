import Cutflow.Proofs.Token.Lexeme

/-!
# Texts as lexemes

Which token kinds a text is cut into, said as a relation that forgets the offsets. A text can be put
together word by word (`Scans.word`), and its gaps can be taken out where its lexemes may touch.

## What is proved

* `scans_of_scan`, `Scans.scan`: scanning gives tokens of the kinds the text is cut into, and the end.
* `Scans.word`: a word in front of a text, if the text does not continue it.
* `Scans.withoutBlanks`: the text without its blanks is cut into the same kinds if they touch.
-/

namespace Cutflow.Token

open Text

/-- The text consists of gaps and of lexemes of these kinds. -/
inductive Scans : List Char → List Kind → Prop where
  | nil : Scans [] []
  | gap {c : Char} {cs : List Char} {ks : List Kind} : isGap c = true → Scans cs ks →
      Scans (c :: cs) ks
  | lexeme {c : Char} {cs : List Char} {k : Kind} {more : Nat} {ks : List Kind} :
      isGap c = false → lexeme c cs = .ok ⟨k, more⟩ → Scans (cs.drop more) ks →
      Scans (c :: cs) (k :: ks)

variable {c : Char} {cs rest w : List Char} {k : Kind} {ks : List Kind}

/-! ### Scanning -/

theorem scan_gap {offset : Nat} (hc : isGap c = true) : scan offset (c :: cs) = scan (offset + 1) cs := by
  rw [scan, if_pos hc]

theorem scan_lexeme_eq_ok {offset : Nat} {ts : List Token} (hc : isGap c = false) :
    scan offset (c :: cs) = .ok ts ↔ ∃ k more ts', lexeme c cs = .ok ⟨k, more⟩ ∧
      scan (offset + more + 1) (cs.drop more) = .ok ts' ∧
      ⟨k, offset, offset + more + 1⟩ :: ts' = ts := by
  rw [scan, if_neg (by simp [hc])]
  cases hl : lexeme c cs with
  | error e => simp
  | ok l =>
    obtain ⟨k, more⟩ := l
    simp only
    cases hs : scan (offset + more + 1) (cs.drop more) with
    | error e => simp [hs]
    | ok ts' => simp [hs]

theorem scans_of_scan {offset : Nat} {ts : List Token} (h : scan offset cs = .ok ts) :
    ∃ ks, Scans cs ks ∧ ts.map Token.kind = ks ++ [.eof] := by
  generalize hn : cs.length = n
  induction n using Nat.strongRecOn generalizing cs offset ts with
  | ind n ih =>
    cases cs with
    | nil =>
      rw [scan] at h
      cases h
      exact ⟨[], .nil, rfl⟩
    | cons c cs =>
      subst hn
      cases hc : isGap c with
      | true =>
        rw [scan_gap hc] at h
        obtain ⟨ks, hs, hk⟩ := ih _ (Nat.lt_succ_self _) h rfl
        exact ⟨ks, .gap hc hs, hk⟩
      | false =>
        obtain ⟨k, more, ts', hl, hts, rfl⟩ := (scan_lexeme_eq_ok hc).mp h
        have hlen : (cs.drop more).length < cs.length + 1 :=
          Nat.lt_succ_of_le (List.drop_sublist _ _).length_le
        obtain ⟨ks, hs, hk⟩ := ih _ hlen hts rfl
        exact ⟨k :: ks, .lexeme hc hl hs, by rw [List.map_cons, hk]; rfl⟩

theorem Scans.scan (h : Scans cs ks) (offset : Nat) :
    ∃ ts, scan offset cs = .ok ts ∧ ts.map Token.kind = ks ++ [.eof] := by
  induction h generalizing offset with
  | nil => exact ⟨_, by rw [Token.scan], rfl⟩
  | gap hc h ih =>
    rw [scan_gap hc]
    exact ih (offset + 1)
  | lexeme hc hl h ih =>
    obtain ⟨ts, hts, hk⟩ := ih _
    exact ⟨_, (scan_lexeme_eq_ok hc).mpr ⟨_, _, ts, hl, hts, rfl⟩, by rw [List.map_cons, hk]; rfl⟩

theorem ne_eof_of_lexeme {more : Nat} (h : Token.lexeme c cs = .ok ⟨k, more⟩) : k ≠ .eof := by
  rintro rfl
  rcases lexeme_eq_ok.mp h with ⟨-, d, n, -, h, -⟩ | ⟨-, -, h, -⟩ | ⟨-, -, h, -⟩ | ⟨-, -, -, h, -⟩
  · cases h
  · have := isAtom_wordKind (String.ofList (c :: cs.takeWhile isWordTail))
    rw [h] at this
    cases this
  · obtain ⟨d, -, h⟩ := Option.bind_eq_some_iff.mp h
    unfold pairKind? at h
    split at h <;> cases h
  · unfold charKind? at h
    split at h <;> cases h

theorem Scans.ne_eof (h : Scans cs ks) : .eof ∉ ks := by
  induction h with
  | nil => simp
  | gap hc h ih => exact ih
  | lexeme hc hl h ih => simpa using ⟨(ne_eof_of_lexeme hl).symm, ih⟩

/-- A text is cut into one list of kinds. -/
theorem Scans.unique {js : List Kind} (h : Scans cs ks) (h' : Scans cs js) : ks = js := by
  obtain ⟨ts, hts, hk⟩ := h.scan 0
  obtain ⟨ts', hts', hj⟩ := h'.scan 0
  cases hts.symm.trans hts'
  exact List.append_cancel_right (hk.symm.trans hj)

/-! ### Words -/

theorem not_isGap_of_not_isBlank (h : isBlank c = false) : isGap c = false := by
  rw [← Bool.not_eq_true] at h ⊢
  exact fun hc => h (isBlank_of_isGap hc)

/-- The word is a lexeme of the given kind. -/
def Spells (w : List Char) (k : Kind) : Prop :=
  ∃ c cs, w = c :: cs ∧ lexeme c cs = .ok ⟨k, cs.length⟩

theorem Spells.of_lexeme {more : Nat} (h : lexeme c cs = .ok ⟨k, more⟩) :
    Spells (c :: cs.take more) k := by
  exact ⟨c, cs.take more, rfl, by rw [List.length_take_of_le (lexeme_length h), lexeme_take h]⟩

theorem Spells.not_isBlank (h : Spells w k) : ∀ c ∈ w, isBlank c = false := by
  obtain ⟨c, cs, rfl, h⟩ := h
  have hg := isGraphic_of_lexeme h
  rw [List.take_length] at hg
  exact fun d hd => (hg d hd).not_isBlank

/-- A word in front of a text, if the text does not continue it. -/
theorem Scans.word (hw : Spells w k) (hr : ∀ d ∈ rest.head?, endsBefore k d = true)
    (h : Scans rest ks) : Scans (w ++ rest) (k :: ks) := by
  have hb := hw.not_isBlank
  obtain ⟨c, cs, rfl, hl⟩ := hw
  refine .lexeme (not_isGap_of_not_isBlank (hb c List.mem_cons_self)) (lexeme_append hl hr) ?_
  show Scans ((cs ++ rest).drop cs.length) ks
  rwa [List.drop_left]

/-! ### Taking out the blanks -/

/-- Where a text without gaps begins, its first lexeme does. -/
theorem Scans.endsBefore (h : Scans cs ks) (hb : ∀ c ∈ cs, isGap c = false)
    (ht : ∀ k' ∈ ks.head?, touches k k' = true) : ∀ d ∈ cs.head?, endsBefore k d = true := by
  intro d hd
  cases h with
  | nil => cases hd
  | gap hc h => exact absurd hc (by simp [hb _ List.mem_cons_self])
  | lexeme hc hl h =>
    cases hd
    exact endsBefore_of_touches hl (ht _ rfl)

/-- **Taking out blanks keeps the lexemes** of a text if they may touch. -/
theorem Scans.withoutBlanks (h : Scans cs ks) (ht : ks.IsChain fun k k' => touches k k' = true) :
    Scans (cs.filter fun c => !isBlank c) ks := by
  induction h with
  | nil => exact .nil
  | gap hc h ih =>
    rw [List.filter_cons_of_neg (by simp [isBlank_of_isGap hc])]
    exact ih ht
  | @lexeme c cs k more ks hc hl h ih =>
    have hw := Spells.of_lexeme hl
    have hf : (c :: cs).filter (fun c => !isBlank c) =
        (c :: cs.take more) ++ (cs.drop more).filter fun c => !isBlank c := by
      conv_lhs => rw [← List.take_append_drop more cs, ← List.cons_append, List.filter_append]
      rw [List.filter_eq_self.mpr fun d hd => by simp [hw.not_isBlank d hd]]
    have hs := ih ht.tail
    rw [hf]
    refine .word hw (hs.endsBefore ?_ fun k' hk => ht.rel_head? hk) hs
    intro d hd
    exact not_isGap_of_not_isBlank (by simpa using (List.mem_filter.mp hd).2)

end Cutflow.Token

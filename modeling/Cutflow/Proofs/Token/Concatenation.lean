import Cutflow.Proofs.Token.Lossless

/-!
# Texts with a gap between them

A lexeme may need a look at the character behind it to be told from a longer one or from a fault: a point
may begin a fraction, a sign an exponent, `=` may be half of an operator. A gap answers all of these
questions as the end of the text does. So of two texts with a gap between them each is cut into tokens as
if it stood alone, but for the offsets of the second one.

## What is proved

* `lexeme_append_gap`: before a gap a lexeme is read, or fails, as at the end of the text.
* `Covers.scan_append`, `scan_append_of_error`: scanning goes on behind a text that is covered, and stops
  where it stops in that text alone.
* `Covers.shift`, `scan_add_of_error`: the offsets count from wherever the text begins.
* `lex_append_gap`: all of this for every two texts, in bytes.
-/

namespace Cutflow.Token

open Text

/-- The token with its place moved by `m` bytes. -/
def shift (m : Nat) (t : Token) : Token := ⟨t.kind, t.start + m, t.stop + m⟩

/-- The text is empty or begins with a gap. -/
def Gapped (rest : List Char) : Prop := ∀ d ∈ rest.head?, isGap d = true

variable {offset more n m : Nat} {c d : Char} {cs w rest : List Char} {k : Kind} {ts : List Token}
  {fault : SyntaxFault} {e : Error}

/-! ### Before a gap -/

theorem not_isGraphic_of_isGap (h : isGap d = true) : ¬IsGraphic d := by
  intro hd
  have hb := hd.not_isBlank
  rw [isBlank_of_isGap h] at hb
  cases hb

theorem Gapped.endsNumber (h : Gapped rest) : EndsNumber rest := by
  intro d hd
  rw [← Bool.not_eq_true]
  exact fun hn => not_isGraphic_of_isGap (h d hd) (isGraphic_of_isNumberChar hn)

theorem Gapped.not_isWordTail (h : Gapped rest) : ∀ d ∈ rest.head?, isWordTail d = false := by
  intro d hd
  rw [← Bool.not_eq_true]
  exact fun ht => not_isGraphic_of_isGap (h d hd) (isGraphic_of_isWordTail ht)

theorem Gapped.beginsNumber (h : Gapped rest) (c : Char) (cs : List Char) :
    beginsNumber c (cs ++ rest) = beginsNumber c cs := by
  by_cases hcs : cs = []
  · subst hcs
    by_cases hc : c = '.'
    · subst hc
      cases rest with
      | nil => rfl
      | cons d rest => exact h.endsNumber.isDigit d rfl
    · rw [beginsNumber_of_ne hc, beginsNumber_of_ne hc]
  · exact beginsNumber_append hcs

theorem Gapped.pairKind? (h : Gapped rest) (c : Char) (cs : List Char) :
    (cs ++ rest).head?.bind (pairKind? c) = cs.head?.bind (pairKind? c) := by
  cases cs with
  | cons d cs => rfl
  | nil =>
    rw [List.nil_append, List.head?_nil, Option.bind_none, Option.bind_eq_none_iff]
    intro d hd
    rw [Option.eq_none_iff_forall_ne_some]
    exact fun k hk => not_isGraphic_of_isGap (h d hd) (isGraphic_of_pairKind? hk).2

/-- **A gap ends a lexeme as the end of the text does**, and spoils it where that does. -/
theorem lexeme_append_gap (h : Gapped rest) (c : Char) (cs : List Char) :
    lexeme c (cs ++ rest) = lexeme c cs := by
  have hnumber : number (c :: (cs ++ rest)) = number (c :: cs) := number_append h.endsNumber (c :: cs)
  simp only [lexeme, h.beginsNumber, hnumber, takeWhile_append_of_head h.not_isWordTail, h.pairKind?]

/-! ### Scanning two texts -/

theorem scan_lexeme (hc : isGap c = false) (h : lexeme c cs = .ok ⟨k, more⟩) :
    scan offset (c :: cs) =
      (scan (offset + more + 1) (cs.drop more)).map (⟨k, offset, offset + more + 1⟩ :: ·) := by
  rw [scan, if_neg (by simp [hc]), h]
  cases hs : scan (offset + more + 1) (cs.drop more) <;> simp only [hs] <;> rfl

/-- Behind a lexeme, scanning stops where it stops in the rest. -/
theorem scan_lexeme_eq_error (hc : isGap c = false) (h : lexeme c cs = .ok ⟨k, more⟩) :
    scan offset (c :: cs) = .error e ↔ scan (offset + more + 1) (cs.drop more) = .error e := by
  rw [scan_lexeme hc h]
  cases scan (offset + more + 1) (cs.drop more) <;> simp [Except.map]

/-- Behind a text that is covered, scanning goes on. -/
theorem Covers.scan_append (h : Covers offset cs ts) (hr : Gapped rest) :
    Token.scan offset (cs ++ rest) = (Token.scan (offset + cs.length) rest).map (ts ++ ·) := by
  induction h with
  | nil =>
    rw [List.nil_append, List.length_nil, Nat.add_zero]
    cases Token.scan _ rest <;> rfl
  | @gap offset c cs ts hc h ih =>
    rw [List.cons_append, scan_gap hc, ih, List.length_cons, Nat.add_right_comm, Nat.add_assoc]
  | @lexeme offset c cs k more ts hc hl h ih =>
    have hmore := lexeme_length hl
    have hstop : offset + more + 1 + (cs.length - more) = offset + (cs.length + 1) := by omega
    rw [List.cons_append, scan_lexeme hc ((lexeme_append_gap hr c cs).trans hl),
      List.drop_append_of_le_length hmore, ih, List.length_drop, hstop, List.length_cons]
    cases Token.scan _ rest <;> rfl

/-- Where scanning stops, it stops with more behind a gap as well. -/
theorem scan_append_of_error (hr : Gapped rest) (h : scan offset cs = .error e) :
    scan offset (cs ++ rest) = .error e := by
  induction offset, cs using scan.induct with
  | case1 offset =>
    rw [scan] at h
    cases h
  | case2 offset c cs hc ih =>
    rw [scan_gap hc] at h
    rw [List.cons_append, scan_gap hc]
    exact ih h
  | case3 offset c cs hc ahead fault hl =>
    rw [Bool.not_eq_true] at hc
    rw [scan_of_lexeme_error hc hl] at h
    rwa [List.cons_append, scan_of_lexeme_error hc ((lexeme_append_gap hr c cs).trans hl)]
  | case4 offset c cs hc k more hl stop _ _ ih | case5 offset c cs hc k more hl stop _ _ ih =>
    rw [Bool.not_eq_true] at hc
    rw [scan_lexeme_eq_error hc hl] at h
    rw [List.cons_append, scan_lexeme_eq_error hc ((lexeme_append_gap hr c cs).trans hl),
      List.drop_append_of_le_length (lexeme_length hl)]
    exact ih h

/-! ### Where a text begins -/

theorem Covers.shift (h : Covers offset cs ts) (m : Nat) :
    Covers (offset + m) cs (ts.map (Token.shift m)) := by
  induction h with
  | nil => exact .nil
  | gap hc h ih =>
    rw [Nat.add_right_comm] at ih
    exact .gap hc ih
  | @lexeme offset c cs k more ts hc hl h ih =>
    have hstop : offset + more + 1 + m = offset + m + more + 1 := by omega
    rw [hstop] at ih
    rw [List.map_cons, Token.shift, hstop]
    exact .lexeme hc hl ih

theorem scan_add_of_error (m : Nat) (h : scan offset cs = .error (.parse n fault)) :
    scan (offset + m) cs = .error (.parse (n + m) fault) := by
  induction offset, cs using scan.induct with
  | case1 offset =>
    rw [scan] at h
    cases h
  | case2 offset c cs hc ih =>
    rw [scan_gap hc] at h ⊢
    rw [Nat.add_right_comm]
    exact ih h
  | case3 offset c cs hc ahead fault hl =>
    rw [Bool.not_eq_true] at hc
    rw [scan_of_lexeme_error hc hl] at h ⊢
    cases h
    rw [Nat.add_right_comm]
  | case4 offset c cs hc k more hl stop _ _ ih | case5 offset c cs hc k more hl stop _ _ ih =>
    rw [Bool.not_eq_true] at hc
    rw [scan_lexeme_eq_error hc hl] at h ⊢
    have hstop : offset + m + more + 1 = offset + more + 1 + m := by omega
    rw [hstop]
    exact ih h

theorem scan_gaps (hw : ∀ d ∈ w, isGap d = true) (rest : List Char) :
    scan offset (w ++ rest) = scan (offset + w.length) rest := by
  induction w generalizing offset with
  | nil => rfl
  | cons d w ih =>
    rw [List.forall_mem_cons] at hw
    rw [List.cons_append, scan_gap hw.1, ih hw.2, List.length_cons, Nat.add_right_comm, Nat.add_assoc]

theorem exists_parse_of_scan_error (h : scan offset cs = .error e) : ∃ n fault, e = .parse n fault := by
  rcases exists_covers_or_stopsAt offset cs with ⟨ts, hts⟩ | ⟨before, d, fault, hs⟩
  · cases hts.scan.symm.trans h
  · exact ⟨_, fault, Except.error.inj (h.symm.trans hs.stopped)⟩

/-! ### Texts in bytes -/

/-- **Lexing goes gap by gap.** Of two texts with a gap between them, a fault in the first one is found
where it is in that text alone; else a fault in the second one is found, and its offset counts what comes
before; else the tokens are those of both, without the end of the first one. -/
theorem lex_append_gap (s t : String) {w : String} (hne : w ≠ "") (hw : ∀ c ∈ w.toList, isGap c = true) :
    (∀ e, lex s = .error e → lex (s ++ w ++ t) = .error e) ∧
    (∀ ts e, lex s = .ok ts → lex t = .error e → ∃ n fault, e = .parse n fault ∧
      lex (s ++ w ++ t) = .error (.parse (n + (s ++ w).utf8ByteSize) fault)) ∧
    ∀ ts us, lex s = .ok ts → lex t = .ok us →
      ∃ ls, ts = ls ++ [⟨.eof, s.utf8ByteSize, s.utf8ByteSize⟩] ∧ (∀ u ∈ ls, u.kind ≠ .eof) ∧
        lex (s ++ w ++ t) = .ok (ls ++ us.map (Token.shift (s ++ w).utf8ByteSize)) := by
  have hgapped : Gapped (w.toList ++ t.toList) := by
    obtain ⟨d, ds, hd⟩ := List.exists_cons_of_ne_nil (mt String.toList_eq_nil_iff.mp hne)
    rw [hd] at hw ⊢
    rintro _ ⟨⟩
    exact hw d List.mem_cons_self
  have htext : lex (s ++ w ++ t) = scan 0 (s.toList ++ (w.toList ++ t.toList)) := by
    rw [lex, String.toList_append, String.toList_append, List.append_assoc]
  -- behind the first text and the gap, the second text is scanned
  have hrest {ls : List Token} (hs : Covers 0 s.toList ls) :
      lex (s ++ w ++ t) = (scan (0 + (s ++ w).utf8ByteSize) t.toList).map (ls ++ ·) := by
    have hascii : Ascii w.toList := fun d hd => ascii_of_isGap (hw d hd)
    rw [htext, hs.scan_append hgapped, scan_gaps hw, String.utf8ByteSize_append,
      utf8ByteSize_of_ascii hs.ascii, utf8ByteSize_of_ascii hascii, Nat.add_assoc]
  refine ⟨fun e he => ?_, fun ts e hts he => ?_, fun ts us hts hus => ?_⟩
  · rw [htext]
    exact scan_append_of_error hgapped he
  · obtain ⟨ls, hs, -⟩ := scan_eq_ok.mp hts
    obtain ⟨n, fault, rfl⟩ := exists_parse_of_scan_error he
    refine ⟨n, fault, rfl, ?_⟩
    rw [hrest hs, scan_add_of_error _ he]
    rfl
  · obtain ⟨ls, hs, rfl⟩ := scan_eq_ok.mp hts
    obtain ⟨vs, ht, rfl⟩ := scan_eq_ok.mp hus
    refine ⟨ls, ?_, hs.lossless.ne_eof, ?_⟩
    · rw [utf8ByteSize_of_ascii hs.ascii, Nat.zero_add]
    · rw [hrest hs, (ht.shift _).scan, List.map_append, List.map_singleton, Token.shift,
        Nat.add_right_comm]
      rfl

/-- Without the gap, the first two texts would be a number, and the last two would begin with the operator
`<=`. -/
theorem lex_append_gap_lookahead :
    (∀ c ∈ "\t\r\n".toList, isGap c = true) ∧
      lex ("1e" ++ "\t\r\n" ++ "5") = .error (.parse 1 .missingExponent) ∧
      lex ("a<" ++ "\t\r\n" ++ "&") = .error (.parse 5 (.unexpectedChar '&')) ∧
      lex ("<" ++ "\t\r\n" ++ "==a") =
        .ok [⟨.lt, 0, 1⟩, ⟨.eqEq, 4, 6⟩, ⟨.ident "a", 6, 7⟩, ⟨.eof, 7, 7⟩] := by
  have hw : ∀ c ∈ "\t\r\n".toList, isGap c = true := by simp [isGap]
  refine ⟨hw, ?_, ?_, ?_⟩
  · have he : lex "1e" = .error (.parse 1 .missingExponent) := by cbv
    exact (lex_append_gap "1e" "5" (by decide) hw).1 _ he
  · obtain ⟨ts, hts⟩ : ∃ ts, lex "a<" = .ok ts := ⟨_, by cbv⟩
    have he : lex "&" = .error (.parse 0 (.unexpectedChar '&')) := by cbv
    obtain ⟨n, fault, hparse, hlex⟩ := (lex_append_gap "a<" "&" (by decide) hw).2.1 ts _ hts he
    cases hparse
    exact hlex
  · have hs : lex "<" = .ok ([⟨.lt, 0, 1⟩] ++ [⟨.eof, 1, 1⟩]) := by cbv
    have ht : lex "==a" = .ok [⟨.eqEq, 0, 2⟩, ⟨.ident "a", 2, 3⟩, ⟨.eof, 3, 3⟩] := by cbv
    obtain ⟨ls, hls, -, hlex⟩ := (lex_append_gap "<" "==a" (by decide) hw).2.2 _ _ hs ht
    obtain rfl : [⟨.lt, 0, 1⟩] = ls := List.append_cancel_right hls
    exact hlex

end Cutflow.Token

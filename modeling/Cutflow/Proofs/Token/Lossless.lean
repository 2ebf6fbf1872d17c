import Cutflow.Proofs.Decimal.Numeral
import Cutflow.Proofs.Text.Byte
import Cutflow.Proofs.Token.Scan

/-!
# Lexing loses nothing

The tokens of a text, each with its place, tell the whole text up to its gaps. Every token is the
longest lexeme at its place, and what is between two tokens is blank. A text that is not cut into
tokens is cut up to one character, and not with it.

## What is proved

* `scan_eq_ok`: scanning covers a text with lexemes and gaps (`Covers`), and adds the end.
* `isLexeme_iff`: the texts that lex as one token are those that a lexeme spells.
* `exists_covers_or_stopsAt`: where scanning stops, the text before is covered, and the next character spoils it.
* `lex_lossless`: all of this for every text, in bytes.
-/

namespace Cutflow.Token

open Text Decimal

/-- A text whose first character is byte `offset` of the whole consists of gaps and of these tokens. As
lexemes and gaps hold ASCII characters only, bytes are counted by characters. -/
inductive Covers : Nat → List Char → List Token → Prop where
  | nil {offset : Nat} : Covers offset [] []
  | gap {offset : Nat} {c : Char} {cs : List Char} {ts : List Token} : isGap c = true →
      Covers (offset + 1) cs ts → Covers offset (c :: cs) ts
  | lexeme {offset : Nat} {c : Char} {cs : List Char} {k : Kind} {more : Nat} {ts : List Token} :
      isGap c = false → lexeme c cs = .ok ⟨k, more⟩ → Covers (offset + more + 1) (cs.drop more) ts →
      Covers offset (c :: cs) (⟨k, offset, offset + more + 1⟩ :: ts)

variable {offset : Nat} {c : Char} {cs w : List Char} {ts : List Token} {t : Token} {k : Kind}

/-! ### Scanning covers a text -/

theorem Covers.scan (h : Covers offset cs ts) :
    scan offset cs = .ok (ts ++ [⟨.eof, offset + cs.length, offset + cs.length⟩]) := by
  induction h with
  | nil => rw [Token.scan]; rfl
  | gap hc h ih =>
    rw [scan_gap hc, ih, List.length_cons]
    simp only [Nat.add_assoc, Nat.add_comm 1]
  | @lexeme offset c cs k more ts hc hl h ih =>
    refine (scan_lexeme_eq_ok hc).mpr ⟨k, more, _, hl, ih, ?_⟩
    have hlen := lexeme_length hl
    have hstop : offset + more + 1 + (cs.length - more) = offset + (cs.length + 1) := by omega
    rw [List.length_drop, hstop]
    rfl

/-- Scanning a text stops at the character `d` behind `before`: what comes before is covered, and with the
character it is not any more. -/
structure StopsAt (offset : Nat) (cs before : List Char) (d : Char) (fault : SyntaxFault) : Prop where
  taken : before ++ [d] <+: cs
  covers : ∃ ts, Covers offset before ts
  stopped : scan offset cs = .error (.parse (offset + before.length) fault)
  spoiled : scan offset (before ++ [d]) = .error (.parse (offset + before.length) fault)
  fault : fault = .missingExponent ∨ fault = .unexpectedChar d

variable {before : List Char} {d : Char} {fault : SyntaxFault} {more : Nat}

theorem scan_of_lexeme_error {ahead : Nat} (hc : isGap c = false)
    (h : lexeme c cs = .error (ahead, fault)) :
    scan offset (c :: cs) = .error (.parse (offset + ahead) fault) := by
  rw [scan, if_neg (by simp [hc]), h]

theorem scan_of_scan_error {e : Error} (hc : isGap c = false) (hl : lexeme c cs = .ok ⟨k, more⟩)
    (h : scan (offset + more + 1) (cs.drop more) = .error e) : scan offset (c :: cs) = .error e := by
  rw [scan, if_neg (by simp [hc]), hl]
  simp only [h]

theorem drop_take_append (h : more ≤ cs.length) (w : List Char) : (cs.take more ++ w).drop more = w :=
  List.drop_left' (List.length_take_of_le h)

theorem exists_stopsAt_of_lexeme_error {ahead : Nat} (hc : isGap c = false)
    (h : lexeme c cs = .error (ahead, fault)) :
    ∃ before d, StopsAt offset (c :: cs) before d fault := by
  rcases lexeme_eq_error.mp h with ⟨-, -, rfl⟩ | ⟨-, -, -, -, -, rfl⟩
  · obtain ⟨m, d, rest, rfl, hdrop, ⟨x, hx⟩, hmark⟩ := lexeme_take_of_missingExponent h
    have hlen : m ≤ cs.length := by
      by_contra hm
      rw [List.drop_eq_nil_of_le (by omega)] at hdrop
      cases hdrop
    have hm : (c :: cs.take m).length = m + 1 := by rw [List.length_cons, List.length_take_of_le hlen]
    have hnil : Covers (offset + m + 1) ((cs.take m).drop m) [] := by
      rw [List.drop_eq_nil_of_le (List.length_take_le _ _)]
      exact .nil
    refine ⟨c :: cs.take m, d, ?_, ⟨_, .lexeme hc hx hnil⟩, ?_, ?_, .inl rfl⟩
    · have htext : c :: cs = (c :: cs.take m ++ [d]) ++ rest := by
        conv_lhs => rw [← List.take_append_drop m cs, hdrop]
        simp
      exact htext ▸ List.prefix_append _ _
    · rw [hm]
      exact scan_of_lexeme_error hc h
    · rw [hm]
      exact scan_of_lexeme_error hc hmark
  · obtain ⟨rfl, -, hnil⟩ := lexeme_nil_of_unexpected h
    exact ⟨[], c, by simp, ⟨[], .nil⟩, scan_of_lexeme_error hc h, scan_of_lexeme_error hc hnil, .inr rfl⟩

theorem StopsAt.gap (hc : isGap c = true) (h : StopsAt (offset + 1) cs before d fault) :
    StopsAt offset (c :: cs) (c :: before) d fault := by
  obtain ⟨htaken, ⟨ts, hts⟩, hstopped, hspoiled, hf⟩ := h
  have hlen : offset + (c :: before).length = offset + 1 + before.length := by
    rw [List.length_cons]
    omega
  refine ⟨?_, ⟨ts, .gap hc hts⟩, ?_, ?_, hf⟩
  · simpa using htaken
  · rwa [scan_gap hc, hlen]
  · rwa [List.cons_append, scan_gap hc, hlen]

theorem StopsAt.lexeme (hc : isGap c = false) (hl : lexeme c cs = .ok ⟨k, more⟩)
    (h : StopsAt (offset + more + 1) (cs.drop more) before d fault) :
    StopsAt offset (c :: cs) (c :: (cs.take more ++ before)) d fault := by
  obtain ⟨htaken, ⟨ts, hts⟩, hstopped, hspoiled, hf⟩ := h
  have hmore := lexeme_length hl
  have hlen : offset + (c :: (cs.take more ++ before)).length = offset + more + 1 + before.length := by
    rw [List.length_cons, List.length_append, List.length_take_of_le hmore]
    omega
  -- whatever piece of the rest stands behind the lexeme, it is the same
  have hpiece (w : List Char) (hw : w <+: cs.drop more) :
      Token.lexeme c (cs.take more ++ w) = .ok ⟨k, more⟩ ∧ (cs.take more ++ w).drop more = w :=
    ⟨lexeme_take_append hl (.of_front hw), drop_take_append hmore w⟩
  have hbefore := hpiece before ((List.prefix_append _ _).trans htaken)
  have hmark := hpiece (before ++ [d]) htaken
  refine ⟨?_, ⟨_, .lexeme hc hbefore.1 (hbefore.2.symm ▸ hts)⟩, ?_, ?_, hf⟩
  · have htext : c :: cs = (c :: cs.take more) ++ cs.drop more := by simp
    rw [htext, ← List.cons_append, List.append_assoc]
    exact (List.prefix_append_right_inj _).mpr htaken
  · rw [hlen]
    exact scan_of_scan_error hc hl hstopped
  · rw [hlen, List.cons_append, List.append_assoc]
    exact scan_of_scan_error hc hmark.1 (hmark.2.symm ▸ hspoiled)

/-- **A text is covered, or scanning stops at one of its characters.** -/
theorem exists_covers_or_stopsAt (offset : Nat) (cs : List Char) :
    (∃ ts, Covers offset cs ts) ∨ ∃ before d fault, StopsAt offset cs before d fault := by
  induction offset, cs using scan.induct with
  | case1 offset => exact .inl ⟨[], .nil⟩
  | case2 offset c cs hc ih =>
    rcases ih with ⟨ts, hts⟩ | ⟨before, d, fault, h⟩
    · exact .inl ⟨ts, .gap hc hts⟩
    · exact .inr ⟨_, d, fault, h.gap hc⟩
  | case3 offset c cs hc ahead fault hl =>
    obtain ⟨before, d, h⟩ := exists_stopsAt_of_lexeme_error (by simpa using hc) hl
    exact .inr ⟨before, d, fault, h⟩
  | case4 offset c cs hc k more hl stop _ _ ih | case5 offset c cs hc k more hl stop _ _ ih =>
    rw [Bool.not_eq_true] at hc
    rcases ih with ⟨ts, hts⟩ | ⟨before, d, fault, h⟩
    · exact .inl ⟨_, .lexeme hc hl hts⟩
    · exact .inr ⟨_, d, fault, h.lexeme hc hl⟩

theorem scan_eq_ok : scan offset cs = .ok ts ↔
    ∃ ls, Covers offset cs ls ∧ ls ++ [⟨.eof, offset + cs.length, offset + cs.length⟩] = ts := by
  constructor
  · intro h
    rcases exists_covers_or_stopsAt offset cs with ⟨ls, hls⟩ | ⟨before, d, fault, hs⟩
    · exact ⟨ls, hls, Except.ok.inj (hls.scan.symm.trans h)⟩
    · cases h.symm.trans hs.stopped
  · rintro ⟨ls, hls, rfl⟩
    exact hls.scan

/-! ### Tokens and their places -/

/-- **Every token is a lexeme at its place.** -/
theorem Covers.exists_lexeme (h : Covers offset cs ts) (ht : t ∈ ts) :
    ∃ before c rest more, cs = before ++ c :: rest ∧ isGap c = false ∧
      Token.lexeme c rest = .ok ⟨t.kind, more⟩ ∧ t.start = offset + before.length ∧ t.stop = t.start + more + 1 := by
  induction h with
  | nil => cases ht
  | @gap offset c cs ts hc h ih =>
    obtain ⟨before, d, rest, more, rfl, hd, hl, hstart, hstop⟩ := ih ht
    refine ⟨c :: before, d, rest, more, rfl, hd, hl, ?_, hstop⟩
    rw [hstart, List.length_cons]
    omega
  | @lexeme offset c cs k more ts hc hl h ih =>
    rcases List.mem_cons.mp ht with rfl | ht
    · exact ⟨[], c, cs, more, rfl, hc, hl, rfl, rfl⟩
    · obtain ⟨before, d, rest, n, hrest, hd, hn, hstart, hstop⟩ := ih ht
      refine ⟨c :: (cs.take more ++ before), d, rest, n, ?_, hd, hn, ?_, hstop⟩
      · rw [List.cons_append, List.append_assoc, ← hrest, List.take_append_drop]
      · rw [hstart, List.length_cons, List.length_append, List.length_take_of_le (lexeme_length hl)]
        omega

theorem Covers.le_start (h : Covers offset cs ts) : ∀ t ∈ ts, offset ≤ t.start := by
  intro t ht
  obtain ⟨before, c, rest, more, -, -, -, hstart, -⟩ := h.exists_lexeme ht
  omega

theorem Covers.pairwise (h : Covers offset cs ts) : ts.Pairwise fun t t' => t.stop ≤ t'.start := by
  induction h with
  | nil => exact .nil
  | gap hc h ih => exact ih
  | lexeme hc hl h ih => exact .cons h.le_start ih

theorem ascii_of_isGap (h : isGap c = true) : c.toNat < 128 := by
  simp only [isGap, Bool.or_eq_true, decide_eq_true_eq] at h
  rcases h with (((rfl | rfl) | rfl) | rfl) | rfl <;> decide

theorem Covers.ascii (h : Covers offset cs ts) : Ascii cs := by
  induction h with
  | nil => simp [Ascii]
  | gap hc h ih => exact List.forall_mem_cons.mpr ⟨ascii_of_isGap hc, ih⟩
  | @lexeme offset c cs k more ts hc hl h ih =>
    intro d hd
    rw [← List.take_append_drop more cs, ← List.cons_append] at hd
    rcases List.mem_append.mp hd with hd | hd
    · have := isGraphic_of_lexeme hl d hd
      unfold IsGraphic at this
      omega
    · exact ih d hd

/-- **What no token holds is a gap.** -/
theorem Covers.isGap_or_mem (h : Covers offset cs ts) {i : Nat} (hi : cs[i]? = some c) :
    isGap c = true ∨ ∃ t ∈ ts, t.start ≤ offset + i ∧ offset + i < t.stop := by
  induction h generalizing i with
  | nil => cases hi
  | @gap offset d cs ts hd h ih =>
    cases i with
    | zero =>
      cases hi
      exact .inl hd
    | succ i =>
      have ho : offset + (i + 1) = offset + 1 + i := by omega
      rw [ho]
      exact ih hi
  | @lexeme offset d cs k more ts hd hl h ih =>
    by_cases hmore : i < more + 1
    · exact .inr ⟨_, List.mem_cons_self, Nat.le_add_right _ _, by simp only; omega⟩
    · obtain ⟨j, rfl⟩ := Nat.exists_eq_add_of_le (Nat.le_of_not_lt hmore)
      have hj : (cs.drop more)[j]? = some c := by
        rw [List.getElem?_drop]
        rwa [Nat.add_right_comm, List.getElem?_cons_succ] at hi
      have ho : offset + (more + 1 + j) = offset + more + 1 + j := by omega
      rw [ho]
      exact (ih hj).imp_right fun ⟨t, ht, hb⟩ => ⟨t, List.mem_cons_of_mem _ ht, hb⟩

/-! ### Single lexemes -/

theorem Spells.covers (h : Spells w k) : Covers 0 w [⟨k, 0, w.length⟩] := by
  have hb := h.not_isBlank
  obtain ⟨c, cs, rfl, hl⟩ := h
  have hnil : Covers (0 + cs.length + 1) (cs.drop cs.length) [] := by
    rw [List.drop_length]
    exact .nil
  have := Covers.lexeme (not_isGap_of_not_isBlank (hb c List.mem_cons_self)) hl hnil
  rwa [Nat.zero_add] at this

/-- A lexeme is the longest one at its place. -/
theorem Spells.length_le {more : Nat} {rest : List Char} (hl : lexeme c cs = .ok ⟨k, more⟩) {k' : Kind}
    (hw : Spells w k') (h : c :: cs = w ++ rest) : w.length ≤ more + 1 := by
  obtain ⟨d, w, rfl, hw⟩ := hw
  rw [List.cons_append] at h
  obtain ⟨rfl, rfl⟩ := List.cons.inj h
  by_contra hlen
  rw [List.length_cons, Nat.not_le, Nat.add_lt_add_iff_right] at hlen
  -- the shorter lexeme would be the same with only the rest of the longer one behind it
  have hpiece : w.drop more <+: (w ++ rest).drop more := by
    rw [List.drop_append_of_le_length (Nat.le_of_lt hlen)]
    exact List.prefix_append _ _
  have hshort := lexeme_take_append hl (.of_front hpiece)
  rw [List.take_append_of_le_length (Nat.le_of_lt hlen), List.take_append_drop] at hshort
  cases hshort.symm.trans hw
  exact Nat.lt_irrefl _ hlen

/-- The text lexes as one token of this kind. -/
def IsLexeme (text : String) (k : Kind) : Prop :=
  lex text = .ok [⟨k, 0, text.utf8ByteSize⟩, ⟨.eof, text.utf8ByteSize, text.utf8ByteSize⟩]

theorem isLexeme_iff {text : String} : IsLexeme text k ↔ Spells text.toList k := by
  rw [IsLexeme, lex, scan_eq_ok]
  constructor
  · rintro ⟨ls, hls, hts⟩
    rw [utf8ByteSize_of_ascii hls.ascii, Nat.zero_add] at hts
    obtain rfl : ls = [⟨k, 0, text.toList.length⟩] :=
      List.append_cancel_right (hts.trans List.singleton_append.symm)
    obtain ⟨before, c, rest, more, htext, -, hl, hstart, hstop⟩ := hls.exists_lexeme (List.mem_singleton_self _)
    obtain rfl : before = [] := List.eq_nil_of_length_eq_zero (by simpa using hstart.symm)
    rw [htext] at hstop ⊢
    refine ⟨c, rest, rfl, ?_⟩
    have hmore : more = rest.length := by simpa using hstop.symm
    rwa [hmore] at hl
  · intro h
    refine ⟨_, h.covers, ?_⟩
    rw [utf8ByteSize_of_ascii h.covers.ascii, Nat.zero_add]
    rfl

/-! ### Texts in bytes -/

/-- The tokens, without the end, cover the text: each is the longest lexeme at its place, they are in
order and apart, and what none of them holds is blank. -/
structure Lossless (text : String) (ts : List Token) : Prop where
  ne_eof : ∀ t ∈ ts, t.kind ≠ .eof
  nonempty : ∀ t ∈ ts, t.start < t.stop
  apart : ts.Pairwise fun t t' => t.stop ≤ t'.start
  /-- The slice from the start to the stop of a token exists and lexes as that token. -/
  isLexeme : ∀ t ∈ ts, ∃ slice, IsSlice text t.start t.stop slice ∧ IsLexeme slice t.kind
  longest : ∀ t ∈ ts, ∀ stop slice kind, IsSlice text t.start stop slice → IsLexeme slice kind → stop ≤ t.stop
  /-- The slice of a number is a numeral, and the number is the double nearest to it. -/
  numeral : ∀ t ∈ ts, ∀ x, t.kind = .number x →
    ∃ slice d, IsSlice text t.start t.stop slice ∧ Numeral slice.toList d ∧ d.toFloat = x
  /-- Space, tab, line feed, form feed and return. -/
  blank : ∀ i b, (bytes text)[i]? = some b → (∀ t ∈ ts, ¬ (t.start ≤ i ∧ i < t.stop)) →
    b ∈ [0x20, 0x09, 0x0a, 0x0c, 0x0d]

theorem numeral_of_spells {x : Float} (h : Spells w (.number x)) : ∃ d, Numeral w d ∧ d.toFloat = x := by
  obtain ⟨c, cs, rfl, hl⟩ := h
  rcases lexeme_eq_ok.mp hl with ⟨hb, d, n, hn, hx, hlen⟩ | ⟨-, -, hk, -⟩ | ⟨-, -, hk, -⟩ | ⟨-, -, -, hk, -⟩
  · obtain ⟨m, rfl, -⟩ := beginsNumber_take hb hn
    rw [Nat.add_sub_cancel] at hlen
    have hnum := numeral_of_number hb hn
    rw [hlen, List.take_succ_cons, List.take_length] at hnum
    exact ⟨d, hnum, by simpa using hx⟩
  · unfold wordKind at hk
    split_ifs at hk
  · obtain ⟨d, -, hk⟩ := Option.bind_eq_some_iff.mp hk
    unfold pairKind? at hk
    split at hk <;> cases hk
  · unfold charKind? at hk
    split at hk <;> cases hk

theorem toUInt8_mem_of_isGap (h : isGap c = true) : c.toUInt8 ∈ [0x20, 0x09, 0x0a, 0x0c, 0x0d] := by
  simp only [isGap, Bool.or_eq_true, decide_eq_true_eq] at h
  rcases h with (((rfl | rfl) | rfl) | rfl) | rfl <;> decide

theorem Covers.exists_slice {text : String} (h : Covers 0 text.toList ts) (ht : t ∈ ts) :
    ∃ slice, IsSlice text t.start t.stop slice ∧ Spells slice.toList t.kind := by
  obtain ⟨before, c, rest, more, htext, -, hl, hstart, hstop⟩ := h.exists_lexeme ht
  refine ⟨String.ofList (c :: rest.take more), (isSlice_iff_of_ascii h.ascii).mpr
    ⟨before, rest.drop more, by simp [htext], by omega, ?_⟩, ?_⟩
  · rw [String.toList_ofList, List.length_cons, List.length_take_of_le (lexeme_length hl)]
    omega
  · rw [String.toList_ofList]
    exact .of_lexeme hl

theorem Covers.longest {text slice : String} {stop : Nat} {kind : Kind} (h : Covers 0 text.toList ts)
    (ht : t ∈ ts) (hs : IsSlice text t.start stop slice) (hk : IsLexeme slice kind) : stop ≤ t.stop := by
  obtain ⟨before, c, rest, more, htext, -, hl, hstart, hstop⟩ := h.exists_lexeme ht
  obtain ⟨before', after, htext', hstart', rfl⟩ := (isSlice_iff_of_ascii h.ascii).mp hs
  rw [htext, List.append_assoc] at htext'
  obtain ⟨-, hrest⟩ := List.append_inj htext' (by omega)
  have := Spells.length_le hl (isLexeme_iff.mp hk) hrest
  omega

theorem Covers.lossless {text : String} (h : Covers 0 text.toList ts) : Lossless text ts where
  ne_eof t ht := by
    obtain ⟨before, c, rest, more, -, -, hl, -, -⟩ := h.exists_lexeme ht
    exact ne_eof_of_lexeme hl
  nonempty t ht := by
    obtain ⟨before, c, rest, more, -, -, -, -, hstop⟩ := h.exists_lexeme ht
    omega
  apart := h.pairwise
  isLexeme t ht := by
    obtain ⟨slice, hs, hk⟩ := h.exists_slice ht
    exact ⟨slice, hs, isLexeme_iff.mpr hk⟩
  longest t ht _ _ _ hs hk := h.longest ht hs hk
  numeral t ht x hx := by
    obtain ⟨slice, hs, hk⟩ := h.exists_slice ht
    obtain ⟨d, hd, hx⟩ := numeral_of_spells (hx ▸ hk)
    exact ⟨slice, d, hs, hd, hx⟩
  blank i b hi hb := by
    rw [bytes_of_ascii h.ascii, List.getElem?_map, Option.map_eq_some_iff] at hi
    obtain ⟨c, hc, rfl⟩ := hi
    rcases h.isGap_or_mem hc with hgap | ⟨t, ht, hin⟩
    · exact toUInt8_mem_of_isGap hgap
    · rw [Nat.zero_add] at hin
      exact absurd hin (hb t ht)

/-- The last token, and no other, is the end of the text. -/
theorem exists_lossless_of_lex {text : String} (h : lex text = .ok ts) :
    ∃ ls, Lossless text ls ∧
      ts = ls ++ [⟨.eof, text.utf8ByteSize, text.utf8ByteSize⟩] := by
  obtain ⟨ls, hls, rfl⟩ := scan_eq_ok.mp h
  exact ⟨ls, hls.lossless, by rw [utf8ByteSize_of_ascii hls.ascii, Nat.zero_add]⟩

/-- **Lexing loses nothing**: every text is covered by its tokens, or lexing stops at the first character
that spoils what comes before it. -/
theorem lex_lossless (text : String) :
    (∃ ts, lex text = .ok (ts ++ [⟨.eof, text.utf8ByteSize, text.utf8ByteSize⟩]) ∧ Lossless text ts) ∨
    ∃ before d after fault, text = before ++ String.singleton d ++ after ∧
      lex text = .error (.parse before.utf8ByteSize fault) ∧
      (fault = .missingExponent ∨ fault = .unexpectedChar d) ∧
      (∃ ts, lex before = .ok ts) ∧
      lex (before ++ String.singleton d) = .error (.parse before.utf8ByteSize fault) := by
  rcases exists_covers_or_stopsAt 0 text.toList with ⟨ts, h⟩ | ⟨before, d, fault, h⟩
  · refine .inl ⟨ts, ?_, h.lossless⟩
    rw [lex, h.scan, utf8ByteSize_of_ascii h.ascii, Nat.zero_add]
  · obtain ⟨⟨after, htext⟩, ⟨ts, hts⟩, hstopped, hspoiled, hf⟩ := h
    have hsize : (String.ofList before).utf8ByteSize = 0 + before.length := by
      rw [utf8ByteSize_of_ascii (by simpa using hts.ascii), String.toList_ofList, Nat.zero_add]
    refine .inr ⟨String.ofList before, d, String.ofList after, fault, ?_, ?_, hf, ?_, ?_⟩
    · rw [← String.toList_inj, ← htext]
      simp
    · rwa [lex, hsize]
    · have hlex := hts.scan
      rw [← String.toList_ofList (l := before)] at hlex
      exact ⟨_, hlex⟩
    · rwa [lex, hsize, String.toList_append, String.toList_ofList, String.toList_singleton]

end Cutflow.Token

import Cutflow.Proofs.Outcome
import Cutflow.Token.Lexer
import Mathlib

/-!
# Numbers at the front of a text

A number is read off the front of a text with a look at one character behind it. So what follows may
be replaced by anything that begins with the same character, or with one that does not continue a
number, or by nothing at all (`Replaces`).

## What is proved

* `number_take_append`: a number reads the same with something else behind it.
* `number_take_of_error`: up to an exponent mark without digits there is a number.
* `number_length`: how long a number is at most, and of which characters it consists.
* `number_append`: before a character of none, a number is read or fails as at the end of the text.
-/

namespace Cutflow

section List

variable {α : Type} {p : α → Bool} {xs ys : List α}

theorem takeWhile_append_of_head (h : ∀ y ∈ ys.head?, p y = false) :
    (xs ++ ys).takeWhile p = xs.takeWhile p := by
  induction xs with
  | nil =>
    cases ys with
    | nil => rfl
    | cons y ys => exact List.takeWhile_cons_of_neg (by simp [h y rfl])
  | cons x xs ih =>
    rw [List.cons_append, List.takeWhile_cons, List.takeWhile_cons, ih]

theorem dropWhile_append_of_head (h : ∀ y ∈ ys.head?, p y = false) :
    (xs ++ ys).dropWhile p = xs.dropWhile p ++ ys := by
  induction xs with
  | nil =>
    cases ys with
    | nil => rfl
    | cons y ys => exact List.dropWhile_cons_of_neg (by simp [h y rfl])
  | cons x xs ih =>
    rw [List.cons_append, List.dropWhile_cons, List.dropWhile_cons, ih]
    split <;> rfl

theorem take_length_takeWhile_add (p : α → Bool) (xs : List α) (k : Nat) :
    xs.take ((xs.takeWhile p).length + k) = xs.takeWhile p ++ (xs.dropWhile p).take k := by
  calc xs.take ((xs.takeWhile p).length + k)
      = (xs.takeWhile p ++ xs.dropWhile p).take ((xs.takeWhile p).length + k) := by
        rw [List.takeWhile_append_dropWhile]
    _ = xs.takeWhile p ++ (xs.dropWhile p).take k := List.take_length_add_append k

theorem drop_length_takeWhile_add (p : α → Bool) (xs : List α) (k : Nat) :
    xs.drop ((xs.takeWhile p).length + k) = (xs.dropWhile p).drop k := by
  calc xs.drop ((xs.takeWhile p).length + k)
      = (xs.takeWhile p ++ xs.dropWhile p).drop ((xs.takeWhile p).length + k) := by
        rw [List.takeWhile_append_dropWhile]
    _ = (xs.dropWhile p).drop k := List.drop_length_add_append k

/-- Behind something that was read, `ys` does as well as `xs`: if it begins with another character,
this is one that stops reading. -/
def Replaces (stops : α → Prop) (xs ys : List α) : Prop := ∀ y ∈ ys.head?, y ∈ xs.head? ∨ stops y

theorem Replaces.imp {stops stops' : α → Prop} (h : Replaces stops xs ys)
    (hs : ∀ y, stops y → stops' y) : Replaces stops' xs ys :=
  fun y hy => (h y hy).imp_right (hs y)

theorem Replaces.nil {stops : α → Prop} : Replaces stops xs [] := by
  rintro y ⟨⟩

theorem Replaces.of_front {stops : α → Prop} (h : ys <+: xs) : Replaces stops xs ys := by
  obtain ⟨zs, rfl⟩ := h
  intro y hy
  cases ys with
  | nil => cases hy
  | cons y' ys => exact .inl hy

/-- What follows a text stands behind all that is read off it. -/
theorem Replaces.drop_append {stops : α → Prop} (h : ∀ y ∈ ys.head?, stops y) (n : Nat) :
    Replaces stops (xs.drop n) (xs.drop n ++ ys) := by
  intro y hy
  cases hx : xs.drop n with
  | nil => exact .inr (h y (by simpa [hx] using hy))
  | cons x xs' => exact .inl (by simpa [hx] using hy)

theorem head?_take_append_dropWhile {k : Nat}
    (h : Replaces (fun y => p y = false) ((xs.dropWhile p).drop k) ys) :
    ∀ y ∈ ((xs.dropWhile p).take k ++ ys).head?, p y = false := by
  intro y hy
  have hd := List.head?_dropWhile_not p xs
  cases hx : xs.dropWhile p with
  | nil =>
    rw [hx, List.drop_nil] at h
    rw [hx, List.take_nil, List.nil_append] at hy
    rcases h y hy with hy | hy
    · cases hy
    · exact hy
  | cons x xs' =>
    have hpx : p x = false := by simpa [hx] using hd
    rw [hx] at h hy
    cases k with
    | zero =>
      rcases h y hy with hy | hy
      · cases hy
        exact hpx
      · exact hy
    | succ k =>
      cases hy
      exact hpx

theorem takeWhile_take_append {k : Nat}
    (h : Replaces (fun y => p y = false) ((xs.dropWhile p).drop k) ys) :
    (xs.take ((xs.takeWhile p).length + k) ++ ys).takeWhile p = xs.takeWhile p := by
  rw [take_length_takeWhile_add, List.append_assoc,
    takeWhile_append_of_head (head?_take_append_dropWhile h)]
  exact List.takeWhile_eq_self_iff.mpr fun _ => List.mem_takeWhile_imp

theorem dropWhile_take_append {k : Nat}
    (h : Replaces (fun y => p y = false) ((xs.dropWhile p).drop k) ys) :
    (xs.take ((xs.takeWhile p).length + k) ++ ys).dropWhile p = (xs.dropWhile p).take k ++ ys := by
  rw [take_length_takeWhile_add, List.append_assoc,
    dropWhile_append_of_head (head?_take_append_dropWhile h),
    List.dropWhile_eq_nil_iff.mpr fun _ => List.mem_takeWhile_imp, List.nil_append]

theorem takeWhile_take_length_append
    (h : Replaces (fun y => p y = false) (xs.drop (xs.takeWhile p).length) ys) :
    (xs.take (xs.takeWhile p).length ++ ys).takeWhile p = xs.takeWhile p :=
  takeWhile_take_append (k := 0) (drop_length_takeWhile_add p xs 0 ▸ h)

theorem mem_take_takeWhile {x : α} {k : Nat} (h : x ∈ xs.take ((xs.takeWhile p).length + k)) :
    p x = true ∨ x ∈ (xs.dropWhile p).take k := by
  rw [take_length_takeWhile_add] at h
  exact (List.mem_append.mp h).imp_left List.mem_takeWhile_imp

theorem of_mem_take_takeWhile {x : α} (h : x ∈ xs.take (xs.takeWhile p).length) : p x = true := by
  rcases mem_take_takeWhile (k := 0) h with h | h
  · exact h
  · simp at h

theorem length_takeWhile_add_length_dropWhile (p : α → Bool) (xs : List α) :
    (xs.takeWhile p).length + (xs.dropWhile p).length = xs.length := by
  rw [← List.length_append, List.takeWhile_append_dropWhile]

end List

open Decimal

namespace Token

/-- Whether a character behind a number continues it, rightly or wrongly. -/
def continuesNumber (c : Char) : Bool := Text.isWordTail c || c = '.'

variable {cs rest : List Char}

theorem isDigit_of_not_continues {c : Char} (h : continuesNumber c = false) : c.isDigit = false := by
  simp only [continuesNumber, Text.isWordTail, Char.isAlphanum, Bool.or_eq_false_iff] at h
  exact h.1.1.2

theorem ne_of_not_continues {c d : Char} (h : continuesNumber c = false)
    (hd : continuesNumber d = true) : c ≠ d := by
  rintro rfl
  rw [h] at hd
  cases hd

theorem fractionPart_of_ne {cs : List Char} (h : ∀ c ∈ cs.head?, c ≠ '.') :
    fractionPart cs = ([], cs, 0) := by
  rw [fractionPart]
  rintro cs rfl
  exact h '.' rfl rfl

theorem drop_fractionPart (cs : List Char) (k : Nat) :
    cs.drop ((fractionPart cs).2.2 + k) = (fractionPart cs).2.1.drop k := by
  cases cs with
  | nil => simp [fractionPart]
  | cons c cs =>
    by_cases hc : c = '.'
    · subst hc
      simp only [fractionPart, Nat.succ_add, List.drop_succ_cons, drop_length_takeWhile_add]
    · rw [fractionPart_of_ne (by simpa using hc), Nat.zero_add]

/-- What may stand behind a number. -/
abbrev ReplacesNumber (cs rest : List Char) : Prop :=
  Replaces (fun c => continuesNumber c = false) cs rest

theorem ReplacesNumber.isDigit (h : ReplacesNumber cs rest) :
    Replaces (fun c => c.isDigit = false) cs rest :=
  h.imp fun _ => isDigit_of_not_continues

theorem ReplacesNumber.ne {c : Char} (h : ReplacesNumber cs rest) (hc : continuesNumber c = true)
    (hcs : ∀ d ∈ cs.head?, d ≠ c) : ∀ d ∈ rest.head?, d ≠ c := by
  intro d hd
  rcases h d hd with h | h
  · exact hcs d h
  · exact ne_of_not_continues h hc

theorem fractionPart_take_append {k : Nat} (h : ReplacesNumber ((fractionPart cs).2.1.drop k) rest) :
    fractionPart (cs.take ((fractionPart cs).2.2 + k) ++ rest) =
      ((fractionPart cs).1, (fractionPart cs).2.1.take k ++ rest, (fractionPart cs).2.2) := by
  cases cs with
  | nil =>
    have hnil : fractionPart [] = ([], [], 0) := fractionPart_of_ne (by simp)
    rw [hnil] at h ⊢
    simpa using fractionPart_of_ne (h.ne rfl (by simp))
  | cons c cs =>
    by_cases hc : c = '.'
    · subst hc
      simp only [fractionPart] at h
      simp only [fractionPart, Nat.succ_add, List.take_succ_cons, List.cons_append,
        takeWhile_take_append h.isDigit, dropWhile_take_append h.isDigit]
    · have h1 : fractionPart (c :: cs) = ([], c :: cs, 0) := fractionPart_of_ne (by simpa using hc)
      rw [h1] at h ⊢
      rw [Nat.zero_add]
      cases k with
      | zero => exact fractionPart_of_ne (h.ne rfl (by simpa using hc))
      | succ k => exact fractionPart_of_ne (by simpa using hc)

theorem exponentSign_of_ne (h : ∀ c ∈ cs.head?, c ≠ '+' ∧ c ≠ '-') :
    exponentSign cs = (false, cs, 0) := by
  rw [exponentSign]
  · rintro cs rfl
    exact (h '+' rfl).1 rfl
  · rintro cs rfl
    exact (h '-' rfl).2 rfl

theorem exponentSign_append (h : cs ≠ []) :
    exponentSign (cs ++ rest) =
      ((exponentSign cs).1, (exponentSign cs).2.1 ++ rest, (exponentSign cs).2.2) := by
  obtain ⟨c, cs, rfl⟩ := List.exists_cons_of_ne_nil h
  by_cases hc : c ≠ '+' ∧ c ≠ '-'
  · have h1 : ∀ xs, exponentSign (c :: xs) = (false, c :: xs, 0) :=
      fun xs => exponentSign_of_ne (by simpa using hc)
    rw [List.cons_append, h1, h1, List.cons_append]
  · rw [not_and_or, not_not, not_not] at hc
    rcases hc with rfl | rfl <;> rfl

theorem exponentSign_take (cs : List Char) (k : Nat) :
    exponentSign (cs.take ((exponentSign cs).2.2 + k)) =
      ((exponentSign cs).1, (exponentSign cs).2.1.take k, (exponentSign cs).2.2) := by
  cases cs with
  | nil => simp [exponentSign]
  | cons c cs =>
    by_cases hc : c ≠ '+' ∧ c ≠ '-'
    · have h1 : exponentSign (c :: cs) = (false, c :: cs, 0) := exponentSign_of_ne (by simpa using hc)
      rw [h1, Nat.zero_add]
      cases k with
      | zero => rfl
      | succ k => exact exponentSign_of_ne (by simpa using hc)
    · rw [not_and_or, not_not, not_not] at hc
      rcases hc with rfl | rfl <;> simp only [exponentSign, Nat.succ_add, Nat.zero_add, List.take_succ_cons]

theorem drop_exponentSign (cs : List Char) (k : Nat) :
    cs.drop ((exponentSign cs).2.2 + k) = (exponentSign cs).2.1.drop k := by
  cases cs with
  | nil => simp [exponentSign]
  | cons c cs =>
    by_cases hc : c ≠ '+' ∧ c ≠ '-'
    · rw [exponentSign_of_ne (by simpa using hc), Nat.zero_add]
    · rw [not_and_or, not_not, not_not] at hc
      rcases hc with rfl | rfl <;> simp only [exponentSign, Nat.succ_add, Nat.zero_add, List.drop_succ_cons]

theorem exponentPart_of_ne (h : ∀ c ∈ cs.head?, c ≠ 'e') (h' : ∀ c ∈ cs.head?, c ≠ 'E') :
    exponentPart cs = some (0, 0) := by
  cases cs with
  | nil => rfl
  | cons c cs => simp [exponentPart, h c rfl, h' c rfl]

theorem exponentPart_take_append {p : Int} {n : Nat} (hx : exponentPart cs = some (p, n))
    (h : ReplacesNumber (cs.drop n) rest) : exponentPart (cs.take n ++ rest) = some (p, n) := by
  cases cs with
  | nil =>
    cases hx
    exact exponentPart_of_ne (h.ne rfl (by simp)) (h.ne rfl (by simp))
  | cons c cs =>
    by_cases hc : (decide (c = 'e') || decide (c = 'E')) = true
    · simp only [exponentPart, if_pos hc] at hx
      split at hx
      next => cases hx
      next hd =>
        cases hx
        rw [Nat.add_assoc, Nat.add_comm 1, List.drop_succ_cons, drop_exponentSign] at h
        have htake := exponentSign_take cs ((exponentSign cs).2.1.takeWhile Char.isDigit).length
        -- there are digits, so the sign is not looked for in what follows
        have hne : cs.take ((exponentSign cs).2.2 +
            ((exponentSign cs).2.1.takeWhile Char.isDigit).length) ≠ [] := by
          rw [ne_eq, List.take_eq_nil_iff, Nat.add_eq_zero_iff, List.length_eq_zero_iff]
          rintro (⟨-, hnil⟩ | rfl)
          · exact hd (by rw [hnil]; rfl)
          · exact hd rfl
        rw [Nat.add_assoc, Nat.add_comm 1, List.take_succ_cons, List.cons_append]
        simp only [exponentPart, if_pos hc, exponentSign_append hne, htake,
          takeWhile_take_length_append h.isDigit]
        rw [if_neg hd, Nat.add_assoc, Nat.add_comm 1]
    · simp only [exponentPart, if_neg hc] at hx
      cases hx
      simp only [Bool.or_eq_true, decide_eq_true_eq, not_or] at hc
      exact exponentPart_of_ne (h.ne rfl (by simpa using hc.1)) (h.ne rfl (by simpa using hc.2))

/-! ### The whole number -/

theorem number_eq_ok {d : Decimal} {n : Nat} :
    number cs = .ok (d, n) ↔ ∃ p k,
      exponentPart (fractionPart (cs.dropWhile Char.isDigit)).2.1 = some (p, k) ∧
      d = ofParts (cs.takeWhile Char.isDigit) (fractionPart (cs.dropWhile Char.isDigit)).1 p ∧
      n = (cs.takeWhile Char.isDigit).length + (fractionPart (cs.dropWhile Char.isDigit)).2.2 + k := by
  simp only [number]
  cases exponentPart (fractionPart (cs.dropWhile Char.isDigit)).2.1 with
  | none => simp
  | some x =>
    obtain ⟨p, k⟩ := x
    constructor
    · rintro ⟨-⟩
      exact ⟨p, k, rfl, rfl, rfl⟩
    · rintro ⟨p, k, ⟨-⟩, rfl, rfl⟩
      rfl

/-- **One character behind a number tells its end**, whatever follows that. -/
theorem number_take_append {d : Decimal} {n : Nat} (h : number cs = .ok (d, n))
    (hr : ReplacesNumber (cs.drop n) rest) : number (cs.take n ++ rest) = .ok (d, n) := by
  obtain ⟨p, k, hp, hdec, rfl⟩ := number_eq_ok.mp h
  rw [Nat.add_assoc, drop_length_takeWhile_add] at hr
  have hf := drop_fractionPart (cs.dropWhile Char.isDigit) k ▸ hr
  refine number_eq_ok.mpr ⟨p, k, ?_⟩
  rw [Nat.add_assoc, takeWhile_take_append hr.isDigit, dropWhile_take_append hr.isDigit,
    fractionPart_take_append hf]
  exact ⟨exponentPart_take_append hp hf, hdec, (Nat.add_assoc ..).symm⟩

/-! ### A mark without digits -/

/-- How long the digits before and behind the point are together with it. -/
def mantissaLength (cs : List Char) : Nat :=
  (cs.takeWhile Char.isDigit).length + (fractionPart (cs.dropWhile Char.isDigit)).2.2

theorem drop_mantissaLength (cs : List Char) :
    cs.drop (mantissaLength cs) = (fractionPart (cs.dropWhile Char.isDigit)).2.1 := by
  have hdrop := drop_fractionPart (cs.dropWhile Char.isDigit) 0
  rw [Nat.add_zero, List.drop_zero] at hdrop
  rw [mantissaLength, drop_length_takeWhile_add, hdrop]

theorem number_eq_error {mark : Nat} :
    number cs = .error mark ↔ exponentPart (cs.drop (mantissaLength cs)) = none ∧
      mark = mantissaLength cs := by
  rw [drop_mantissaLength]
  simp only [number]
  cases exponentPart (fractionPart (cs.dropWhile Char.isDigit)).2.1 with
  | none => simp [eq_comm, mantissaLength]
  | some x => simp

/-- Before the end of the mantissa all is the same with only a piece of the rest behind it. -/
theorem number_take_mantissaLength (h : rest <+: cs.drop (mantissaLength cs)) :
    number (cs.take (mantissaLength cs) ++ rest) =
      match exponentPart rest with
      | none => .error (mantissaLength cs)
      | some (p, k) => .ok (ofParts (cs.takeWhile Char.isDigit)
          (fractionPart (cs.dropWhile Char.isDigit)).1 p, mantissaLength cs + k) := by
  have hr : ReplacesNumber (cs.drop (mantissaLength cs)) rest := .of_front h
  rw [mantissaLength, drop_length_takeWhile_add] at hr
  have hf := fractionPart_take_append (k := 0) (by rwa [← drop_fractionPart])
  rw [Nat.add_zero, List.take_zero, List.nil_append] at hf
  rw [mantissaLength, number]
  cases hp : exponentPart rest <;>
    simp only [takeWhile_take_append hr.isDigit, dropWhile_take_append hr.isDigit, hf, hp]

theorem exponentPart_eq_none (h : exponentPart cs = none) :
    ∃ e rest, cs = e :: rest ∧ exponentPart [e] = none := by
  cases cs with
  | nil => cases h
  | cons c cs =>
    refine ⟨c, cs, rfl, ?_⟩
    by_cases hc : (decide (c = 'e') || decide (c = 'E')) = true
    · simp [exponentPart, exponentSign, hc]
    · simp only [exponentPart, if_neg hc] at h
      cases h

/-- **Up to an exponent mark without digits there is a number**; the mark is what spoils it. -/
theorem number_take_of_error {mark : Nat} (h : number cs = .error mark) :
    (∃ d, number (cs.take mark) = .ok (d, mark)) ∧
      ∃ e rest, cs.drop mark = e :: rest ∧ number (cs.take mark ++ [e]) = .error mark := by
  obtain ⟨hp, rfl⟩ := number_eq_error.mp h
  obtain ⟨e, rest, hrest, he⟩ := exponentPart_eq_none hp
  constructor
  · have hnil := number_take_mantissaLength (List.nil_prefix (l := cs.drop (mantissaLength cs)))
    rw [List.append_nil] at hnil
    exact ⟨_, hnil⟩
  · have hfront : [e] <+: cs.drop (mantissaLength cs) := by
      rw [hrest]
      simp
    have hmark := number_take_mantissaLength hfront
    rw [he] at hmark
    exact ⟨e, rest, hrest, hmark⟩

/-! ### Its characters -/

/-- Whether a character may stand in a number. -/
def isNumberChar (c : Char) : Bool :=
  c.isDigit || c = '.' || c = 'e' || c = 'E' || c = '+' || c = '-'

theorem length_fractionPart (cs : List Char) :
    (fractionPart cs).2.2 + (fractionPart cs).2.1.length = cs.length := by
  cases cs with
  | nil => rfl
  | cons c cs =>
    by_cases hc : c = '.'
    · subst hc
      have := length_takeWhile_add_length_dropWhile Char.isDigit cs
      simp only [fractionPart, List.length_cons]
      omega
    · rw [fractionPart_of_ne (by simpa using hc), Nat.zero_add]

theorem mem_take_fractionPart {c : Char} {k : Nat} (h : c ∈ cs.take ((fractionPart cs).2.2 + k)) :
    isNumberChar c = true ∨ c ∈ (fractionPart cs).2.1.take k := by
  cases cs with
  | nil => simp at h
  | cons d cs =>
    by_cases hd : d = '.'
    · subst hd
      simp only [fractionPart, Nat.succ_add, List.take_succ_cons] at h
      rcases List.mem_cons.mp h with rfl | h
      · exact .inl rfl
      · exact (mem_take_takeWhile h).imp_left fun h => by simp [isNumberChar, h]
    · rw [fractionPart_of_ne (by simpa using hd), Nat.zero_add] at h
      rw [fractionPart_of_ne (by simpa using hd)]
      exact .inr h

theorem length_exponentSign (cs : List Char) :
    (exponentSign cs).2.2 + (exponentSign cs).2.1.length = cs.length := by
  cases cs with
  | nil => rfl
  | cons c cs =>
    by_cases hc : c ≠ '+' ∧ c ≠ '-'
    · rw [exponentSign_of_ne (by simpa using hc), Nat.zero_add]
    · rw [not_and_or, not_not, not_not] at hc
      rcases hc with rfl | rfl <;> simp [exponentSign, Nat.add_comm]

theorem mem_take_exponentSign {c : Char} {k : Nat} (h : c ∈ cs.take ((exponentSign cs).2.2 + k)) :
    isNumberChar c = true ∨ c ∈ (exponentSign cs).2.1.take k := by
  cases cs with
  | nil => simp at h
  | cons d cs =>
    by_cases hd : d ≠ '+' ∧ d ≠ '-'
    · rw [exponentSign_of_ne (by simpa using hd), Nat.zero_add] at h
      rw [exponentSign_of_ne (by simpa using hd)]
      exact .inr h
    · rw [not_and_or, not_not, not_not] at hd
      rcases hd with rfl | rfl <;>
      · simp only [exponentSign, Nat.add_comm 1, List.take_succ_cons] at h
        rcases List.mem_cons.mp h with rfl | h
        · exact .inl rfl
        · exact .inr h

theorem exponentPart_length {p : Int} {n : Nat} (h : exponentPart cs = some (p, n)) :
    n ≤ cs.length ∧ ∀ c ∈ cs.take n, isNumberChar c = true := by
  cases cs with
  | nil =>
    cases h
    simp
  | cons c cs =>
    by_cases hc : (decide (c = 'e') || decide (c = 'E')) = true
    · simp only [exponentPart, if_pos hc] at h
      split at h
      next => cases h
      next =>
        cases h
        have h1 := length_exponentSign cs
        have h2 := length_takeWhile_add_length_dropWhile Char.isDigit (exponentSign cs).2.1
        constructor
        · show 1 + (exponentSign cs).2.2 + ((exponentSign cs).2.1.takeWhile Char.isDigit).length ≤
            cs.length + 1
          omega
        rw [Nat.add_assoc, Nat.add_comm 1, List.take_succ_cons]
        intro d hd
        rcases List.mem_cons.mp hd with rfl | hd
        · rw [Bool.or_eq_true, decide_eq_true_eq, decide_eq_true_eq] at hc
          rcases hc with rfl | rfl <;> rfl
        · rcases mem_take_exponentSign hd with hd | hd
          · exact hd
          · simp [isNumberChar, of_mem_take_takeWhile hd]
    · simp only [exponentPart, if_neg hc] at h
      cases h
      simp

theorem number_length {d : Decimal} {n : Nat} (h : number cs = .ok (d, n)) :
    n ≤ cs.length ∧ ∀ c ∈ cs.take n, isNumberChar c = true := by
  obtain ⟨p, k, hp, -, rfl⟩ := number_eq_ok.mp h
  obtain ⟨hk, hc⟩ := exponentPart_length hp
  have h1 := length_takeWhile_add_length_dropWhile Char.isDigit cs
  have h2 := length_fractionPart (cs.dropWhile Char.isDigit)
  refine ⟨by omega, ?_⟩
  intro c hmem
  rw [Nat.add_assoc] at hmem
  rcases mem_take_takeWhile hmem with hd | hmem
  · simp [isNumberChar, hd]
  · exact (mem_take_fractionPart hmem).elim id (hc c)

/-! ### Before a character of none -/

/-- No number goes on with the text, not even with a sign or digits that its exponent lacks. -/
def EndsNumber (rest : List Char) : Prop := ∀ c ∈ rest.head?, isNumberChar c = false

theorem EndsNumber.isDigit (h : EndsNumber rest) : ∀ c ∈ rest.head?, c.isDigit = false := by
  intro c hc
  have hn := h c hc
  simp only [isNumberChar, Bool.or_eq_false_iff] at hn
  exact hn.1.1.1.1.1

theorem EndsNumber.ne {d : Char} (h : EndsNumber rest) (hd : isNumberChar d = true) :
    ∀ c ∈ rest.head?, c ≠ d := by
  rintro c hc rfl
  rw [h c hc] at hd
  cases hd

theorem fractionPart_append (h : EndsNumber rest) (cs : List Char) :
    fractionPart (cs ++ rest) =
      ((fractionPart cs).1, (fractionPart cs).2.1 ++ rest, (fractionPart cs).2.2) := by
  cases cs with
  | nil => exact fractionPart_of_ne (h.ne rfl)
  | cons c cs =>
    by_cases hc : c = '.'
    · subst hc
      simp only [List.cons_append, fractionPart, takeWhile_append_of_head h.isDigit,
        dropWhile_append_of_head h.isDigit]
    · have h1 : ∀ xs, fractionPart (c :: xs) = ([], c :: xs, 0) :=
        fun xs => fractionPart_of_ne (by simpa using hc)
      rw [List.cons_append, h1, h1, List.cons_append]

theorem exponentPart_append (h : EndsNumber rest) (cs : List Char) :
    exponentPart (cs ++ rest) = exponentPart cs := by
  cases cs with
  | nil => exact exponentPart_of_ne (h.ne rfl) (h.ne rfl)
  | cons c cs =>
    have hsign : exponentSign (cs ++ rest) =
        ((exponentSign cs).1, (exponentSign cs).2.1 ++ rest, (exponentSign cs).2.2) := by
      by_cases hcs : cs = []
      · subst hcs
        exact exponentSign_of_ne fun d hd => ⟨h.ne rfl d hd, h.ne rfl d hd⟩
      · exact exponentSign_append hcs
    simp only [List.cons_append, exponentPart, hsign, takeWhile_append_of_head h.isDigit]

/-- **Before a character of no number a number is read as at the end of the text**, or fails alike. -/
theorem number_append (h : EndsNumber rest) (cs : List Char) : number (cs ++ rest) = number cs := by
  simp only [number, takeWhile_append_of_head h.isDigit, dropWhile_append_of_head h.isDigit,
    fractionPart_append h, exponentPart_append h]

end Token

end Cutflow

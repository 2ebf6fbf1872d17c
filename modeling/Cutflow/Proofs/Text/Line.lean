import Cutflow.Text
import Mathlib

/-!
# Lines of a text that is put together

A text in which lines have been ended one by one is cut into these lines again, if no line holds a
line feed and a line that ends in a return is not ended by a line feed alone.

## What is proved

* `lines_append_ending`: a line and its ending in front of a text are its first line.
* `lines_unended`: what is left without an ending is one line, if anything is left.
* `lines_append_feed`: a line feed between two texts ends the last line of the first one.
-/

namespace Cutflow.Text

variable {c : Char} {cs line rest ending : List Char}

/-- What ends a line: a line feed, or a return and a line feed. -/
def IsEnding (ending : List Char) : Prop := ending = ['\n'] ∨ ending = ['\r', '\n']

theorem lines_cons (hc : c ≠ '\n') (hr : c = '\r' → cs.head? ≠ some '\n') :
    lines (c :: cs) = match lines cs with
      | [] => [[c]]
      | line :: rest => (c :: line) :: rest := by
  refine lines.eq_4 c cs ?_ hc
  rintro cs' rfl rfl
  exact hr rfl rfl

theorem lines_ending (h : IsEnding ending) (rest : List Char) : lines (ending ++ rest) = [] :: lines rest := by
  rcases h with rfl | rfl
  · exact lines.eq_3 rest
  · exact lines.eq_2 rest

/-- **A line that has been ended is a line.** -/
theorem lines_append_ending (hn : '\n' ∉ line) (he : IsEnding ending)
    (hr : ending = ['\n'] → line.getLast? ≠ some '\r') (rest : List Char) :
    lines (line ++ ending ++ rest) = line :: lines rest := by
  induction line with
  | nil => exact lines_ending he rest
  | cons c line ih =>
    rw [List.mem_cons, not_or] at hn
    have htail : lines (line ++ ending ++ rest) = line :: lines rest := by
      refine ih hn.2 fun hend => ?_
      have := hr hend
      cases line with
      | nil => simp
      | cons d line => simpa using this
    rw [List.cons_append, List.cons_append, lines_cons (Ne.symm hn.1), htail]
    rintro rfl
    cases line with
    | nil =>
      rcases he with rfl | rfl
      · exact absurd rfl (hr rfl)
      · simp
    | cons d line =>
      rw [List.mem_cons, not_or] at hn
      simpa using Ne.symm hn.2.1

theorem lines_unended (hn : '\n' ∉ line) (h : line ≠ []) : lines line = [line] := by
  induction line with
  | nil => exact absurd rfl h
  | cons c line ih =>
    rw [List.mem_cons, not_or] at hn
    rw [lines_cons (Ne.symm hn.1)]
    · cases line with
      | nil => rfl
      | cons d line => rw [ih hn.2 (List.cons_ne_nil d line)]
    · rintro rfl hd
      exact hn.2 (List.mem_of_head? hd)

/-! ### A line feed between two texts -/

/-- The lines of a text are `init` and, if it does not end there, one more, which is `last` when it is ended
by a line feed: that takes a return at its end as a part of the ending. -/
def LastLine (cs : List Char) (init : List (List Char)) (last : List Char) : Prop :=
  (lines cs = init ∧ last = []) ∨ lines cs = init ++ [last] ∨ lines cs = init ++ [last ++ ['\r']]

variable {init : List (List Char)} {last : List Char}

theorem lines_cons_append (hc : c ≠ '\n') (hr : c = '\r' → cs.head? ≠ some '\n') {ls : List (List Char)}
    (h : lines cs = line :: ls) : lines (c :: cs) = (c :: line) :: ls := by
  rw [lines_cons hc hr, h]

theorem LastLine.cons (hc : c ≠ '\n') (hr : c = '\r' → cs.head? ≠ some '\n') (h : LastLine cs [] last) :
    LastLine (c :: cs) [] (c :: last) := by
  right
  rcases h with ⟨h, rfl⟩ | h | h
  · left
    rw [lines_cons hc hr, h]
    rfl
  · exact .inl (lines_cons_append hc hr h)
  · exact .inr (lines_cons_append hc hr h)

theorem LastLine.cons_cons (hc : c ≠ '\n') (hr : c = '\r' → cs.head? ≠ some '\n')
    (h : LastLine cs (line :: init) last) : LastLine (c :: cs) ((c :: line) :: init) last := by
  rcases h with ⟨h, rfl⟩ | h | h
  · exact .inl ⟨lines_cons_append hc hr h, rfl⟩
  · exact .inr (.inl (lines_cons_append hc hr h))
  · exact .inr (.inr (lines_cons_append hc hr h))

/-- **A line feed between two texts** ends the last line of the first one, which may be empty; the lines
before it are as many as the line feeds of the first text. -/
theorem lines_append_feed (cs : List Char) :
    ∃ init last, init.length = cs.count '\n' ∧ LastLine cs init last ∧
      ∀ rest, lines (cs ++ '\n' :: rest) = init ++ last :: lines rest := by
  induction cs with
  | nil => exact ⟨[], [], rfl, .inl ⟨rfl, rfl⟩, fun rest => lines.eq_3 rest⟩
  | cons c cs ih =>
    obtain ⟨init, last, hlen, hlast, hlines⟩ := ih
    by_cases hc : c = '\n'
    · -- an empty line
      subst hc
      have hcons (cs : List Char) : lines ('\n' :: cs) = [] :: lines cs := lines.eq_3 cs
      refine ⟨[] :: init, last, by simpa using hlen, ?_, fun rest => ?_⟩
      · simpa only [LastLine, hcons, List.cons_append, List.cons.injEq, true_and] using hlast
      · rw [List.cons_append, hcons, hlines, List.cons_append]
    have hcount : (c :: cs).count '\n' = cs.count '\n' := List.count_cons_of_ne hc
    rw [hcount]
    by_cases hr : c = '\r' ∧ (cs ++ ['\n']).head? = some '\n'
    · -- a return in front of a line feed
      obtain ⟨rfl, hhead⟩ := hr
      have hdrop (cs : List Char) : lines ('\r' :: '\n' :: cs) = lines ('\n' :: cs) :=
        (lines.eq_2 cs).trans (lines.eq_3 cs).symm
      cases cs with
      | nil => exact ⟨[], [], rfl, .inr (.inr rfl), fun rest => lines.eq_2 rest⟩
      | cons d cs =>
        obtain rfl : d = '\n' := by simpa using hhead
        exact ⟨init, last, hlen, by rwa [LastLine, hdrop], fun rest => (hdrop _).trans (hlines rest)⟩
    · -- one more character of the first line
      rw [not_and] at hr
      have hr' (h : c = '\r') : cs.head? ≠ some '\n' := by
        intro hhead
        exact hr h (by rw [List.head?_append, hhead]; rfl)
      have hrest (rest : List Char) (h : c = '\r') : (cs ++ '\n' :: rest).head? ≠ some '\n' := by
        have := hr h
        rwa [List.head?_append] at this ⊢
      cases init with
      | nil =>
        refine ⟨[], c :: last, hlen, hlast.cons hc hr', fun rest => ?_⟩
        exact lines_cons_append hc (hrest rest) (hlines rest)
      | cons line init =>
        refine ⟨(c :: line) :: init, last, hlen, hlast.cons_cons hc hr', fun rest => ?_⟩
        exact lines_cons_append hc (hrest rest) (hlines rest)

end Cutflow.Text

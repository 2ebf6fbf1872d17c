import Cutflow.Json.Token
import Cutflow.Proofs.Json.Quoted

/-!
# Reading objects back

An object that is written in compact form reads as the list of its members if its values read back one
by one. What a value is read as must not depend on what is behind it, as long as this begins with one of
the marks that may stand behind a value.

## What is proved

* `tokens_quote`: a quoted string is one token, wherever it stands.
* `object_writeObject`: an object reads as its members if their values read back (`Reads`).
* `object_writeObject_error`: it is refused if one value is (`Refuses`).
-/

namespace Cutflow.Json

variable {α : Type} {value : List Token → Except Fault (α × Nat)} {c : Char} {cs rest : List Char} {t : Token}
  {ts : List Token} {name : String} {a : α} {n : Nat}

/-! ### Tokens -/

theorem tokens_nil : tokens [] = [] := by
  rw [tokens]
  split
  next => rfl
  next h => cases h

theorem tokens_of_next? (h : next? cs = some (t, rest)) : tokens cs = t :: tokens rest := by
  rw [tokens]
  split
  next h' => cases h.symm.trans h'
  next h' =>
    cases h.symm.trans h'
    rfl

theorem tokens_of_token? {more : Nat} (hc : isGap c = false) (h : token? c cs = some (t, more)) :
    tokens (c :: cs) = t :: tokens (cs.drop more) := by
  refine tokens_of_next? ?_
  rw [next?, if_neg (by simp [hc]), h]

/-- A mark is a token by itself. -/
theorem tokens_mark (hc : isGap c = false) (h : token? c cs = some (t, 0)) : tokens (c :: cs) = t :: tokens cs :=
  tokens_of_token? hc h

theorem tokens_quote (s : String) (rest : List Char) :
    tokens ((quote s).toList ++ rest) = .string s :: tokens rest := by
  have hread := unquote_flatMap_escape s.toList rest
  have htoken : token? '\x22' (s.toList.flatMap escape ++ '\x22' :: rest) =
      some (.string (String.ofList s.toList), (s.toList.flatMap escape).length + 1) := by
    show (unquote _).map _ = _
    rw [hread]
    rfl
  rw [String.ofList_toList] at htoken
  have htext : (quote s).toList ++ rest = '\x22' :: (s.toList.flatMap escape ++ '\x22' :: rest) := by
    simp [quote]
  have hdrop : (s.toList.flatMap escape ++ '\x22' :: rest).drop ((s.toList.flatMap escape).length + 1) = rest := by
    rw [List.drop_length_add_append]
    rfl
  rw [htext, tokens_of_token? rfl htoken, hdrop]

/-! ### Values -/

/-- What may stand behind a value. -/
def Separated (rest : List Char) : Prop := ∀ c ∈ rest.head?, c = ',' ∨ c = ']' ∨ c = '\x7d'

/-- The text is read as this value, and exactly the text, whatever separates it from what follows. -/
def Reads (value : List Token → Except Fault (α × Nat)) (text : List Char) (a : α) : Prop :=
  ∀ rest, Separated rest → ∃ n, value (tokens (text ++ rest)) = .ok (a, n) ∧
    (tokens (text ++ rest)).drop n = tokens rest

/-- The text is not read as any value. -/
def Refuses (value : List Token → Except Fault (α × Nat)) (text : List Char) : Prop :=
  ∀ rest, Separated rest → ∃ fault, value (tokens (text ++ rest)) = .error fault

theorem separated_comma (cs : List Char) : Separated (',' :: cs) := by simp [Separated]

theorem separated_bracket (cs : List Char) : Separated (']' :: cs) := by simp [Separated]

theorem separated_brace (cs : List Char) : Separated ('\x7d' :: cs) := by simp [Separated]

/-! ### Members -/

theorem members_last (h : value ts = .ok (a, n)) (hd : ts.drop n = [.closeBrace]) :
    members value (.string name :: .colon :: ts) = .ok [(name, a)] := by
  rw [members, h]
  simp only
  split
  next => rfl
  next h' => cases hd.symm.trans h'
  next h' _ => exact absurd hd h'

theorem members_comma {rest : List Token} (h : value ts = .ok (a, n)) (hd : ts.drop n = .comma :: rest) :
    members value (.string name :: .colon :: ts) = (members value rest).map ((name, a) :: ·) := by
  rw [members, h]
  simp only
  split
  next h' => cases hd.symm.trans h'
  next h' =>
    cases hd.symm.trans h'
    rfl
  next h' => exact absurd hd (h' _)

theorem members_error {fault : Fault} (h : value ts = .error fault) :
    members value (.string name :: .colon :: ts) = .error fault := by
  rw [members, h]

/-- The text of a member. -/
def memberChars (m : String × String) : List Char := (quote m.1).toList ++ ':' :: m.2.toList

/-- The text of the members up to the end of an object. -/
def membersChars (ms : List (String × String)) : List Char := [','].intercalate (ms.map memberChars) ++ ['\x7d']

variable {m m' : String × String} {ms : List (String × String)}

theorem toList_writeObject (ms : List (String × String)) :
    (writeObject ms).toList = '\x7b' :: membersChars ms := by
  simp only [writeObject, membersChars, String.toList_append, String.toList_intercalate, List.map_map]
  have hmembers : ms.map (String.toList ∘ fun m => quote m.1 ++ ":" ++ m.2) = ms.map memberChars := by
    refine List.map_congr_left fun m _ => ?_
    simp [memberChars]
  rw [hmembers]
  rfl

theorem tokens_memberChars (m : String × String) (rest : List Char) :
    tokens (memberChars m ++ rest) = .string m.1 :: .colon :: tokens (m.2.toList ++ rest) := by
  rw [memberChars, List.append_assoc, tokens_quote, List.cons_append, tokens_mark rfl rfl]

theorem membersChars_singleton (m : String × String) : membersChars [m] = memberChars m ++ ['\x7d'] := by
  simp [membersChars]

theorem membersChars_cons_cons (m m' : String × String) (ms : List (String × String)) :
    membersChars (m :: m' :: ms) = memberChars m ++ ',' :: membersChars (m' :: ms) := by
  simp [membersChars]

theorem tokens_comma (cs : List Char) : tokens (',' :: cs) = .comma :: tokens cs := tokens_mark rfl rfl

theorem tokens_closeBrace : tokens ['\x7d'] = [.closeBrace] := by
  rw [tokens_mark rfl rfl, tokens_nil]

theorem members_membersChars {as : List (String × α)}
    (h : List.Forall₂ (fun m a => m.1 = a.1 ∧ Reads value m.2.toList a.2) (m :: ms) as) :
    members value (tokens (membersChars (m :: ms))) = .ok as := by
  induction ms generalizing m as with
  | nil =>
    obtain ⟨a, as, ⟨hname, hread⟩, htail, rfl⟩ := List.forall₂_cons_left_iff.mp h
    obtain rfl := List.forall₂_nil_left_iff.mp htail
    obtain ⟨n, hv, hd⟩ := hread _ (separated_brace [])
    rw [tokens_closeBrace] at hd
    rw [membersChars_singleton, tokens_memberChars, members_last hv hd, hname]
  | cons m' ms ih =>
    obtain ⟨a, as, ⟨hname, hread⟩, htail, rfl⟩ := List.forall₂_cons_left_iff.mp h
    obtain ⟨n, hv, hd⟩ := hread _ (separated_comma (membersChars (m' :: ms)))
    rw [tokens_comma] at hd
    rw [membersChars_cons_cons, tokens_memberChars, members_comma hv hd, ih htail, hname]
    rfl

theorem members_membersChars_error (h : ∀ m' ∈ m :: ms, (∃ a, Reads value m'.2.toList a) ∨ Refuses value m'.2.toList)
    (hr : ∃ m' ∈ m :: ms, Refuses value m'.2.toList) :
    ∃ fault, members value (tokens (membersChars (m :: ms))) = .error fault := by
  induction ms generalizing m with
  | nil =>
    obtain ⟨m', hm, hr⟩ := hr
    obtain rfl := List.mem_singleton.mp hm
    obtain ⟨fault, hv⟩ := hr _ (separated_brace [])
    rw [membersChars_singleton, tokens_memberChars, members_error hv]
    exact ⟨fault, rfl⟩
  | cons m' ms ih =>
    rw [membersChars_cons_cons, tokens_memberChars]
    rw [List.forall_mem_cons] at h
    have hsep := separated_comma (membersChars (m' :: ms))
    rcases h.1 with ⟨a, hread⟩ | hrefuse
    · obtain ⟨n, hv, hd⟩ := hread _ hsep
      rw [tokens_comma] at hd
      have htail : ∃ x ∈ m' :: ms, Refuses value x.2.toList := by
        obtain ⟨x, hx, hrx⟩ := hr
        rcases List.mem_cons.mp hx with rfl | hx
        · obtain ⟨fault, hf⟩ := hrx _ hsep
          cases hf.symm.trans hv
        · exact ⟨x, hx, hrx⟩
      obtain ⟨fault, hf⟩ := ih h.2 htail
      rw [members_comma hv hd, hf]
      exact ⟨fault, rfl⟩
    · obtain ⟨fault, hv⟩ := hrefuse _ hsep
      exact ⟨fault, members_error hv⟩

/-! ### Objects -/

theorem tokens_writeObject (m : String × String) (ms : List (String × String)) :
    object value (tokens (writeObject (m :: ms)).toList) = members value (tokens (membersChars (m :: ms))) := by
  have hstring : ∃ ts, tokens (membersChars (m :: ms)) = .string m.1 :: ts := by
    cases ms with
    | nil => exact ⟨_, by rw [membersChars_singleton, tokens_memberChars]⟩
    | cons m' ms => exact ⟨_, by rw [membersChars_cons_cons, tokens_memberChars]⟩
  obtain ⟨ts, hts⟩ := hstring
  rw [toList_writeObject, tokens_mark rfl rfl, hts]
  rfl

/-- **An object reads back** if its values do. -/
theorem object_writeObject {as : List (String × α)}
    (h : List.Forall₂ (fun m a => m.1 = a.1 ∧ Reads value m.2.toList a.2) ms as) :
    object value (tokens (writeObject ms).toList) = .ok as := by
  cases ms with
  | nil =>
    obtain rfl := List.forall₂_nil_left_iff.mp h
    have htokens : tokens (writeObject []).toList = [.openBrace, .closeBrace] := by
      rw [toList_writeObject, tokens_mark rfl rfl]
      exact congrArg _ tokens_closeBrace
    rw [htokens]
    rfl
  | cons m ms => rw [tokens_writeObject, members_membersChars h]

/-- An object is refused if one of its values is. -/
theorem object_writeObject_error
    (h : ∀ m ∈ ms, (∃ a, Reads value m.2.toList a) ∨ Refuses value m.2.toList)
    (hr : ∃ m ∈ ms, Refuses value m.2.toList) :
    ∃ fault, object value (tokens (writeObject ms).toList) = .error fault := by
  cases ms with
  | nil =>
    obtain ⟨m, hm, -⟩ := hr
    cases hm
  | cons m ms =>
    rw [tokens_writeObject]
    exact members_membersChars_error h hr

end Cutflow.Json

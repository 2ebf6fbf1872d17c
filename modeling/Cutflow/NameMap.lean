/-!
# Maps by name

Finite maps whose keys are names, kept as a list in the order of the names, so that two maps are
equal exactly if they hold the same entries. Names are compared character by character, by code
point.

## What is proved

* `find?_insert_self`, `find?_insert_of_ne`, `find?_map`: what a look-up sees after an insertion and
  after a change of all values.
* `insert_insert`: of two insertions under one name the later one counts.
* `ofList_toList`: a map is the map of its own entries.
-/

namespace Cutflow

/-- A finite map from names to values, in the order of the names. -/
structure NameMap (α : Type) where
  /-- The names with their values. -/
  toList : List (String × α)
  /-- Each name is less than those after it. -/
  sorted : toList.Pairwise fun a b => a.1 < b.1
  deriving DecidableEq

namespace NameMap

variable {α : Type}

/-- The map without entries. -/
def empty : NameMap α := ⟨[], .nil⟩

instance : EmptyCollection (NameMap α) := ⟨empty⟩

instance : Inhabited (NameMap α) := ⟨empty⟩

/-- The number of entries. -/
def size (m : NameMap α) : Nat := m.toList.length

/-- Whether there is no entry. -/
def isEmpty (m : NameMap α) : Bool := m.toList.isEmpty

/-- The value of a name. -/
def find? (m : NameMap α) (name : String) : Option α := m.toList.lookup name

/-- A sorted list with the value of `name` set. -/
def insertEntry (name : String) (value : α) : List (String × α) → List (String × α)
  | [] => [(name, value)]
  | (other, old) :: rest =>
    if name < other then (name, value) :: (other, old) :: rest
    else if name = other then (name, value) :: rest
    else (other, old) :: insertEntry name value rest

theorem mem_insertEntry {name : String} {value : α} {entry : String × α}
    {l : List (String × α)} (h : entry ∈ insertEntry name value l) :
    entry = (name, value) ∨ entry ∈ l := by
  induction l with
  | nil => simpa [insertEntry] using h
  | cons head rest ih =>
    obtain ⟨other, old⟩ := head
    simp only [insertEntry] at h
    split at h
    · simpa using h
    · split at h
      · rcases List.mem_cons.mp h with h | h
        · exact .inl h
        · exact .inr (List.mem_cons_of_mem _ h)
      · rcases List.mem_cons.mp h with h | h
        · exact .inr (h ▸ List.mem_cons_self)
        · exact (ih h).imp id (List.mem_cons_of_mem _)

theorem sorted_insertEntry (name : String) (value : α) {l : List (String × α)}
    (h : l.Pairwise fun a b => a.1 < b.1) :
    (insertEntry name value l).Pairwise fun a b => a.1 < b.1 := by
  induction l with
  | nil => simp [insertEntry]
  | cons head rest ih =>
    obtain ⟨other, old⟩ := head
    obtain ⟨first, tail⟩ := List.pairwise_cons.mp h
    simp only [insertEntry]
    split
    · rename_i before
      refine List.pairwise_cons.mpr ⟨fun entry mem => ?_, h⟩
      rcases List.mem_cons.mp mem with rfl | mem
      · exact before
      · exact Std.lt_trans before (first entry mem)
    · rename_i notBefore
      split
      · rename_i same
        subst same
        exact List.pairwise_cons.mpr ⟨first, tail⟩
      · rename_i different
        have after : other < name :=
          Std.lt_of_le_of_ne (Std.not_lt.mp notBefore) (Ne.symm different)
        refine List.pairwise_cons.mpr ⟨fun entry mem => ?_, ih tail⟩
        rcases mem_insertEntry mem with rfl | mem
        · exact after
        · exact first entry mem

/-- The map with the value of a name set, in place of an earlier value. -/
def insert (m : NameMap α) (name : String) (value : α) : NameMap α :=
  ⟨insertEntry name value m.toList, sorted_insertEntry name value m.sorted⟩

/-- The map of a list of entries; a later entry replaces an earlier one of the same name. -/
def ofList (entries : List (String × α)) : NameMap α :=
  entries.foldl (fun m entry => m.insert entry.1 entry.2) ∅

/-- The same names with the values changed. -/
def map {β : Type} (f : α → β) (m : NameMap α) : NameMap β :=
  ⟨m.toList.map fun entry => (entry.1, f entry.2), List.pairwise_map.mpr m.sorted⟩

@[simp]
theorem find?_empty (name : String) : (∅ : NameMap α).find? name = none := rfl

@[simp]
theorem find?_insert_self (m : NameMap α) (name : String) (value : α) :
    (m.insert name value).find? name = some value := by
  suffices ∀ l : List (String × α), (insertEntry name value l).lookup name = some value from
    this m.toList
  intro l
  induction l with
  | nil => simp [insertEntry]
  | cons head rest ih =>
    obtain ⟨other, old⟩ := head
    simp only [insertEntry]
    split
    · simp
    · split
      · simp
      · rename_i different
        rw [List.lookup_cons, beq_eq_false_iff_ne.mpr different]
        exact ih

@[simp]
theorem find?_insert_of_ne (m : NameMap α) {name other : String} (value : α)
    (h : other ≠ name) : (m.insert name value).find? other = m.find? other := by
  suffices ∀ l : List (String × α),
      (insertEntry name value l).lookup other = l.lookup other from this m.toList
  have apart : (other == name) = false := beq_eq_false_iff_ne.mpr h
  intro l
  induction l with
  | nil => simp [insertEntry, h]
  | cons head rest ih =>
    obtain ⟨key, old⟩ := head
    simp only [insertEntry]
    split
    · rw [List.lookup_cons, apart]
    · split
      · rename_i same
        subst same
        rw [List.lookup_cons, List.lookup_cons, apart]
      · rw [List.lookup_cons, List.lookup_cons, ih]

theorem insertEntry_insertEntry (name : String) (value value' : α) (l : List (String × α)) :
    insertEntry name value' (insertEntry name value l) = insertEntry name value' l := by
  induction l with
  | nil => simp [insertEntry]
  | cons head rest ih =>
    obtain ⟨other, old⟩ := head
    simp only [insertEntry]
    split
    · simp [insertEntry]
    · split
      · simp [insertEntry]
      · rename_i notBefore different
        simp only [insertEntry, if_neg notBefore, if_neg different, ih]

/-- Of two values of one name the later one counts. -/
theorem insert_insert (m : NameMap α) (name : String) (value value' : α) :
    (m.insert name value).insert name value' = m.insert name value' := by
  simp only [insert, insertEntry_insertEntry]

theorem find?_map {β : Type} (f : α → β) (m : NameMap α) (name : String) :
    (m.map f).find? name = (m.find? name).map f := by
  suffices ∀ l : List (String × α),
      (l.map fun entry => (entry.1, f entry.2)).lookup name = (l.lookup name).map f from this m.toList
  intro l
  induction l with
  | nil => rfl
  | cons head rest ih =>
    rw [List.map_cons, List.lookup_cons, List.lookup_cons, ih]
    split <;> rfl

theorem insertEntry_of_forall_lt {name : String} (value : α) {l : List (String × α)}
    (h : ∀ entry ∈ l, entry.1 < name) : insertEntry name value l = l ++ [(name, value)] := by
  induction l with
  | nil => rfl
  | cons head rest ih =>
    have before : head.1 < name := h head List.mem_cons_self
    simp only [insertEntry, List.cons_append]
    rw [if_neg (Std.not_lt.mpr (Std.le_of_lt before)), if_neg (fun same => Std.lt_irrefl (same ▸ before)),
      ih fun entry mem => h entry (List.mem_cons_of_mem _ mem)]

theorem toList_foldl_insert {l : List (String × α)} (m : NameMap α)
    (h : (m.toList ++ l).Pairwise fun a b => a.1 < b.1) :
    (l.foldl (fun m entry => m.insert entry.1 entry.2) m).toList = m.toList ++ l := by
  induction l generalizing m with
  | nil => simp
  | cons head rest ih =>
    have step : (m.insert head.1 head.2).toList = m.toList ++ [head] :=
      insertEntry_of_forall_lt head.2 fun entry mem =>
        (List.pairwise_append.mp h).2.2 entry mem head List.mem_cons_self
    rw [List.foldl_cons, ih]
    · simp [step]
    · simpa [step] using h

@[ext]
theorem ext {m n : NameMap α} (h : m.toList = n.toList) : m = n := by
  cases m
  cases n
  cases h
  rfl

theorem ofList_toList (m : NameMap α) : ofList m.toList = m :=
  ext (toList_foldl_insert ∅ m.sorted)

end NameMap

end Cutflow

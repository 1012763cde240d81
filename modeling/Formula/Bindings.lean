import Formula.Text

/-!
# Values of variables

Bindings give values to names.  They are sorted by name, character by character, and no name occurs
twice, so two bindings with the same values are the same.

## Main definitions

* `firstValue?` — the value of a name in any list of pairs.
* `Bindings` — values by name.
* `Bindings.get?` — the value of a name.
* `Bindings.insert`, `Bindings.erase`, `Bindings.ofList` — changes; the last value of a name counts.
-/

namespace Formula

/-- The value of a name in a list of pairs; the first pair of the name counts. -/
def firstValue? (name : Text) : List (Text × Float) → Option Float
  | [] => none
  | e :: rest => if e.1 = name then some e.2 else firstValue? name rest

/-- Values by name, sorted. -/
structure Bindings where
  /-- The names with their values. -/
  entries : List (Text × Float)
  /-- Every name precedes the names after it. -/
  sorted : entries.Pairwise fun a b => a.1.precedes b.1 = true

namespace Bindings

/-- Give a value to a name of a sorted list. -/
def insertEntry (name : Text) (value : Float) : List (Text × Float) → List (Text × Float)
  | [] => [(name, value)]
  | e :: rest =>
    if e.1.precedes name then e :: insertEntry name value rest
    else if e.1 = name then (name, value) :: rest
    else (name, value) :: e :: rest

private theorem fst_of_mem_insertEntry {name : Text} {value : Float} {l : List (Text × Float)}
    {e : Text × Float} (h : e ∈ insertEntry name value l) : e.1 = name ∨ e ∈ l := by
  induction l with
  | nil => simp_all [insertEntry]
  | cons a l ih =>
    simp only [insertEntry] at h
    split at h
    · rcases List.mem_cons.1 h with rfl | h
      · simp
      · exact (ih h).imp_right (List.mem_cons_of_mem _)
    · split at h
      · rcases List.mem_cons.1 h with rfl | h <;> simp_all
      · rcases List.mem_cons.1 h with rfl | h
        · simp
        · exact .inr h

private theorem pairwise_insertEntry {name : Text} {value : Float} {l : List (Text × Float)}
    (h : l.Pairwise fun a b => a.1.precedes b.1 = true) :
    (insertEntry name value l).Pairwise fun a b => a.1.precedes b.1 = true := by
  induction l with
  | nil => simp [insertEntry]
  | cons a l ih =>
    rw [List.pairwise_cons] at h
    simp only [insertEntry]
    split
    · rename_i ha
      refine List.pairwise_cons.2 ⟨fun b hb => ?_, ih h.2⟩
      rcases fst_of_mem_insertEntry hb with hb | hb
      · rw [hb]
        exact ha
      · exact h.1 b hb
    · rename_i ha
      split
      · rename_i heq
        exact List.pairwise_cons.2 ⟨fun b hb => heq ▸ h.1 b hb, h.2⟩
      · rename_i hne
        have hlt : name.precedes a.1 = true := Text.precedes_of_ne hne (by simpa using ha)
        refine List.pairwise_cons.2 ⟨fun b hb => ?_, List.pairwise_cons.2 h⟩
        rcases List.mem_cons.1 hb with rfl | hb
        · exact hlt
        · exact Text.precedes_trans hlt (h.1 b hb)

/-- No values. -/
def empty : Bindings := ⟨[], .nil⟩

/-- The value of a name. -/
def get? (b : Bindings) (name : Text) : Option Float :=
  firstValue? name b.entries

/-- Give a value to a name, in place of the one that it has. -/
def insert (b : Bindings) (name : Text) (value : Float) : Bindings :=
  ⟨insertEntry name value b.entries, pairwise_insertEntry b.sorted⟩

/-- Take the value of a name away. -/
def erase (b : Bindings) (name : Text) : Bindings :=
  ⟨b.entries.filter (·.1 ≠ name), b.sorted.filter _⟩

/-- The values of a list of pairs. -/
def ofList (l : List (Text × Float)) : Bindings :=
  l.foldl (fun b e => b.insert e.1 e.2) empty

private theorem firstValue?_insertEntry (name : Text) (value : Float) (l : List (Text × Float))
    (other : Text) :
    firstValue? other (insertEntry name value l) =
      if name = other then some value else firstValue? other l := by
  induction l with
  | nil => rfl
  | cons a l ih =>
    simp only [insertEntry]
    split
    · rename_i hlt
      have hne : a.1 ≠ name := fun h => by simp [h, Text.precedes_irrefl] at hlt
      by_cases ha : a.1 = other
      · have hother : name ≠ other := fun h => hne (ha.trans h.symm)
        simp [firstValue?, ha, hother]
      · simp [firstValue?, ha, ih]
    · split
      · rename_i heq
        simp only [firstValue?, heq]
        split <;> simp_all
      · rfl

/-- An insertion changes the value of its name and of no other. -/
theorem get?_insert (b : Bindings) (name other : Text) (value : Float) :
    (b.insert name value).get? other = if name = other then some value else b.get? other :=
  firstValue?_insertEntry name value b.entries other

private theorem firstValue?_filter_ne (name other : Text) (l : List (Text × Float)) :
    firstValue? other (l.filter (·.1 ≠ name)) =
      if name = other then none else firstValue? other l := by
  induction l with
  | nil => simp [firstValue?]
  | cons a l ih =>
    rw [List.filter_cons]
    split
    · rename_i hkeep
      have hne : a.1 ≠ name := by simpa using hkeep
      by_cases ha : a.1 = other
      · have hother : name ≠ other := fun h => hne (ha.trans h.symm)
        simp [firstValue?, ha, hother]
      · simp only [firstValue?, ha, if_false, ih]
    · rename_i heq
      have ha : a.1 = name := by simpa using heq
      rw [ih]
      simp only [firstValue?, ha]
      split <;> simp_all

/-- An erasure takes the value of its name and of no other. -/
theorem get?_erase (b : Bindings) (name other : Text) :
    (b.erase name).get? other = if name = other then none else b.get? other :=
  firstValue?_filter_ne name other b.entries

end Bindings

end Formula

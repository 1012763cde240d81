/-!
# First occurrences

`distinctBy key l` keeps, of the elements of `l` that share a key, the first one.
-/

namespace Formula

variable {α κ : Type} [DecidableEq κ]

/-- The elements of a list whose key does not occur before them. -/
def distinctBy (key : α → κ) : List α → List α
  | [] => []
  | a :: l => a :: (distinctBy key l).filter (key · ≠ key a)

/-- What is kept comes from the list. -/
theorem mem_of_mem_distinctBy {key : α → κ} {a : α} {l : List α} (h : a ∈ distinctBy key l) :
    a ∈ l := by
  induction l with
  | nil => exact h
  | cons b l ih =>
    rcases List.mem_cons.1 h with rfl | h
    · exact List.mem_cons_self
    · exact List.mem_cons_of_mem _ (ih (List.mem_filter.1 h).1)

/-- Every key of the list is kept. -/
theorem mem_map_distinctBy {key : α → κ} {k : κ} {l : List α} :
    k ∈ (distinctBy key l).map key ↔ k ∈ l.map key := by
  induction l with
  | nil => rfl
  | cons a l ih =>
    by_cases hk : k = key a
    · simp [distinctBy, hk]
    · simp only [List.mem_map] at ih
      simp only [distinctBy, List.map_cons, List.mem_cons, hk, false_or, List.mem_map,
        List.mem_filter, decide_eq_true_eq, ← ih]
      constructor
      · rintro ⟨b, ⟨hb, -⟩, rfl⟩
        exact ⟨b, hb, rfl⟩
      · rintro ⟨b, hb, rfl⟩
        exact ⟨b, ⟨hb, hk⟩, rfl⟩

/-- No key is kept twice. -/
theorem pairwise_distinctBy (key : α → κ) (l : List α) :
    (distinctBy key l).Pairwise fun a b => key a ≠ key b := by
  induction l with
  | nil => exact .nil
  | cons a l ih =>
    refine List.pairwise_cons.2 ⟨fun b hb => ?_, ih.filter _⟩
    exact Ne.symm (by simpa using (List.mem_filter.1 hb).2)

end Formula

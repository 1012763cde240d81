/-!
# Stable sorting by a key

An element is inserted behind all elements whose key is not larger, so a list that is built by
insertions keeps elements of equal key in the order in which they came.  `filter_insertByKey` says
this for a single insertion and `filter_sortByKey` for a whole list.
-/

namespace Formula

variable {α : Type}

/-- Insert an element behind the elements whose key is at most its own. -/
def insertByKey (key : α → Nat) (a : α) : List α → List α
  | [] => [a]
  | b :: l => if key b ≤ key a then b :: insertByKey key a l else a :: b :: l

/-- Sort a list by a key, keeping the order of elements with equal keys. -/
def sortByKey (key : α → Nat) (l : List α) : List α :=
  l.foldl (fun sorted a => insertByKey key a sorted) []

/-- An insertion adds the element and changes nothing else. -/
theorem perm_insertByKey (key : α → Nat) (a : α) (l : List α) :
    (insertByKey key a l).Perm (a :: l) := by
  induction l with
  | nil => exact .refl _
  | cons b l ih =>
    simp only [insertByKey]
    split
    · exact (ih.cons b).trans (.swap a b l)
    · exact .refl _

theorem mem_insertByKey {key : α → Nat} {a b : α} {l : List α} :
    b ∈ insertByKey key a l ↔ b = a ∨ b ∈ l := by
  rw [(perm_insertByKey key a l).mem_iff, List.mem_cons]

/-- Elements with one key keep their order, and the new one comes last. -/
theorem filter_insertByKey (key : α → Nat) (a : α) (l : List α) (k : Nat)
    (h : l.Pairwise fun b c => key b ≤ key c) :
    (insertByKey key a l).filter (key · == k) =
      l.filter (key · == k) ++ [a].filter (key · == k) := by
  induction l with
  | nil => rfl
  | cons b l ih =>
    rw [List.pairwise_cons] at h
    simp only [insertByKey]
    split
    · rw [List.filter_cons, List.filter_cons, ih h.2]
      split <;> simp
    · rename_i hba
      by_cases hk : key a = k
      · have hnil : (b :: l).filter (key · == k) = [] := by
          rw [List.filter_eq_nil_iff]
          intro c hc
          have : key b ≤ key c := by
            rcases List.mem_cons.1 hc with rfl | hc
            · exact Nat.le_refl _
            · exact h.1 c hc
          simp only [beq_iff_eq]
          omega
        rw [List.filter_cons, hnil]
        simp [hk]
      · simp [hk, List.filter_cons]

/-- An insertion keeps the keys in ascending order. -/
theorem pairwise_insertByKey {key : α → Nat} {a : α} {l : List α}
    (h : l.Pairwise fun b c => key b ≤ key c) :
    (insertByKey key a l).Pairwise fun b c => key b ≤ key c := by
  induction l with
  | nil => simp [insertByKey]
  | cons b l ih =>
    rw [List.pairwise_cons] at h
    simp only [insertByKey]
    split
    · rename_i hba
      rw [List.pairwise_cons]
      refine ⟨fun c hc => ?_, ih h.2⟩
      rcases mem_insertByKey.1 hc with rfl | hc
      · exact hba
      · exact h.1 c hc
    · rename_i hba
      rw [List.pairwise_cons]
      refine ⟨fun c hc => ?_, List.pairwise_cons.2 h⟩
      rcases List.mem_cons.1 hc with rfl | hc
      · omega
      · have := h.1 c hc
        omega

private theorem pairwise_foldl_insertByKey (key : α → Nat) (l sorted : List α)
    (h : sorted.Pairwise fun b c => key b ≤ key c) :
    (l.foldl (fun s a => insertByKey key a s) sorted).Pairwise fun b c => key b ≤ key c := by
  induction l generalizing sorted with
  | nil => exact h
  | cons a l ih => exact ih _ (pairwise_insertByKey h)

private theorem perm_foldl_insertByKey (key : α → Nat) (l sorted : List α) :
    (l.foldl (fun s a => insertByKey key a s) sorted).Perm (l ++ sorted) := by
  induction l generalizing sorted with
  | nil => exact .refl _
  | cons a l ih =>
    exact (ih _).trans (((perm_insertByKey key a sorted).append_left l).trans List.perm_middle)

/-- A sorted list has ascending keys. -/
theorem pairwise_sortByKey (key : α → Nat) (l : List α) :
    (sortByKey key l).Pairwise fun b c => key b ≤ key c :=
  pairwise_foldl_insertByKey key l [] .nil

/-- Sorting loses and adds nothing. -/
theorem perm_sortByKey (key : α → Nat) (l : List α) : (sortByKey key l).Perm l := by
  simpa [sortByKey] using perm_foldl_insertByKey key l []

private theorem filter_foldl_insertByKey (key : α → Nat) (k : Nat) (l sorted : List α)
    (h : sorted.Pairwise fun b c => key b ≤ key c) :
    (l.foldl (fun s a => insertByKey key a s) sorted).filter (key · == k) =
      sorted.filter (key · == k) ++ l.filter (key · == k) := by
  induction l generalizing sorted with
  | nil => simp
  | cons a l ih =>
    rw [List.foldl_cons, ih _ (pairwise_insertByKey h), filter_insertByKey key a sorted k h,
      List.append_assoc, ← List.filter_append, List.singleton_append]

/-- Sorting keeps the order of elements with equal keys. -/
theorem filter_sortByKey (key : α → Nat) (l : List α) (k : Nat) :
    (sortByKey key l).filter (key · == k) = l.filter (key · == k) := by
  simpa [sortByKey] using filter_foldl_insertByKey key k l [] .nil

end Formula

import Mathlib.Tactic.Common
import Formula.ParseError

/-!
# Errors that are joined

Unknown identifiers that touch are reported as one.  A list of errors is collapsed by joining its
first two errors or by keeping the first one, so whatever these two steps respect holds of the whole
list (`collapse_induction`).
-/

namespace Formula

/-- **Induction on the joining of errors.** -/
theorem collapse_induction {P : List ParseError → List ParseError → Prop} (nil : P [] [])
    (keep : ∀ e rest joined, P rest joined → P (e :: rest) (e :: joined))
    (join : ∀ a b c rest joined, a.join? b = some c → P (c :: rest) joined →
      P (a :: b :: rest) joined)
    (errors : List ParseError) : P errors (collapse errors) := by
  have hfrom : ∀ (rest : List ParseError) (e : ParseError), P (e :: rest) (e.collapseFrom rest) := by
    intro rest
    induction rest with
    | nil => exact fun e => keep e [] [] nil
    | cons f rest ih =>
      intro e
      rw [ParseError.collapseFrom]
      split
      · rename_i joined hjoin
        exact join e f joined rest _ hjoin (ih joined)
      · exact keep e (f :: rest) _ (ih f)
  cases errors with
  | nil => exact nil
  | cons e rest => exact hfrom rest e

/-- A property that joining keeps. -/
theorem forall_mem_collapse {P : ParseError → Prop}
    (hjoin : ∀ a b c, P a → P b → a.join? b = some c → P c) {errors : List ParseError}
    (h : ∀ e ∈ errors, P e) : ∀ e ∈ collapse errors, P e := by
  revert h
  refine collapse_induction
    (P := fun errors joined => (∀ e ∈ errors, P e) → ∀ e ∈ joined, P e) ?_ ?_ ?_ errors
  · exact fun h => h
  · intro e rest joined ih h
    obtain ⟨he, hrest⟩ := List.forall_mem_cons.1 h
    exact List.forall_mem_cons.2 ⟨he, ih hrest⟩
  · intro a b c rest joined hab ih h
    obtain ⟨ha, hrest⟩ := List.forall_mem_cons.1 h
    obtain ⟨hb, hrest⟩ := List.forall_mem_cons.1 hrest
    exact ih (List.forall_mem_cons.2 ⟨hjoin a b c ha hb hab, hrest⟩)

theorem ParseError.isSome_identifier?_iff {e : ParseError} :
    e.identifier?.isSome = true ↔ ∃ t, e.cause = .unknownIdentifier t := by
  obtain ⟨cause, start, length⟩ := e
  cases cause <;> simp [identifier?]

/-- Only unknown identifiers are joined. -/
theorem ParseError.identifier?_of_join? {a b c : ParseError} (h : a.join? b = some c) :
    a.identifier?.isSome = true ∧ b.identifier?.isSome = true ∧ c.identifier?.isSome = true := by
  obtain ⟨acause, astart, alength⟩ := a
  obtain ⟨bcause, bstart, blength⟩ := b
  simp only [join?] at h
  split at h
  · split at h
    · obtain rfl := Option.some.inj h
      exact ⟨rfl, rfl, rfl⟩
    · cases h
  · cases h

/-- Joining keeps the errors that are no unknown identifiers, and their order. -/
theorem filter_collapse {P : ParseError → Bool}
    (hP : ∀ e : ParseError, e.identifier?.isSome = true → P e = false) (errors : List ParseError) :
    (collapse errors).filter P = errors.filter P := by
  refine collapse_induction (P := fun errors joined => joined.filter P = errors.filter P) rfl
    ?_ ?_ errors
  · intro e rest joined ih
    rw [List.filter_cons, ih, List.filter_cons (x := e)]
  · intro a b c rest joined hab ih
    obtain ⟨ha, hb, hc⟩ := ParseError.identifier?_of_join? hab
    rw [ih]
    simp [hP a ha, hP b hb, hP c hc]

/-- An error that is no unknown identifier stays. -/
theorem mem_collapse_iff {e : ParseError} (he : e.identifier?.isSome = false)
    {errors : List ParseError} : e ∈ collapse errors ↔ e ∈ errors := by
  have hidentifier : ∀ f : ParseError, f.identifier?.isSome = true → decide (f = e) = false := by
    intro f hf
    rw [decide_eq_false_iff_not]
    rintro rfl
    rw [he] at hf
    cases hf
  have hfilter := filter_collapse hidentifier errors
  have hmem : ∀ l : List ParseError, e ∈ l ↔ e ∈ l.filter (· = e) := by simp
  rw [hmem, hfilter, ← hmem]

theorem collapse_eq_nil_iff {errors : List ParseError} : collapse errors = [] ↔ errors = [] := by
  refine collapse_induction (P := fun errors joined => joined = [] ↔ errors = []) Iff.rfl ?_ ?_
    errors
  · intro e rest joined _
    simp
  · intro a b c rest joined _ ih
    simpa using ih

theorem ParseError.join?_eq_none_iff {a b : ParseError} : a.join? b = none ↔
    (a.identifier?.isSome = true → b.identifier?.isSome = true → b.start ≠ a.stop) := by
  obtain ⟨acause, astart, alength⟩ := a
  obtain ⟨bcause, bstart, blength⟩ := b
  cases acause <;> cases bcause <;> simp [join?, identifier?]

/-- **Nothing is left to join.** -/
theorem isChain_collapse (errors : List ParseError) :
    (collapse errors).IsChain fun a b => a.join? b = none := by
  -- the first error keeps its place, and is an unknown identifier only if it was one before
  have hfrom : ∀ (rest : List ParseError) (e : ParseError),
      (e.collapseFrom rest).IsChain (fun a b => a.join? b = none) ∧
      ∃ g more, e.collapseFrom rest = g :: more ∧ g.start = e.start ∧
        (g.identifier?.isSome = true → e.identifier?.isSome = true) := by
    intro rest
    induction rest with
    | nil => exact fun e => ⟨.singleton e, e, [], rfl, rfl, id⟩
    | cons f rest ih =>
      intro e
      rw [ParseError.collapseFrom]
      split
      · rename_i joined hjoin
        obtain ⟨hchain, g, more, hg, hstart, -⟩ := ih joined
        refine ⟨hchain, g, more, hg, ?_, ?_⟩
        · rw [hstart, (ParseError.span_join? hjoin).1]
        · exact fun _ => (ParseError.identifier?_of_join? hjoin).1
      · rename_i hnone
        obtain ⟨hchain, g, more, hg, hstart, hidentifier⟩ := ih f
        refine ⟨?_, e, _, rfl, rfl, id⟩
        rw [hg] at hchain ⊢
        rw [ParseError.join?_eq_none_iff] at hnone
        refine List.isChain_cons_cons.2 ⟨ParseError.join?_eq_none_iff.2 ?_, hchain⟩
        intro he hgsome
        rw [hstart]
        exact hnone he (hidentifier hgsome)
  cases errors with
  | nil => exact .nil
  | cons e rest => exact (hfrom rest e).1

/-- Errors of other kinds at the end stay as they are. -/
theorem collapse_append {xs ys : List ParseError}
    (hys : ∀ e ∈ ys, e.identifier?.isSome = false) : collapse (xs ++ ys) = collapse xs ++ ys := by
  have hnone : ∀ e f : ParseError, f ∈ ys → e.join? f = none := by
    intro e f hf
    refine ParseError.join?_eq_none_iff.2 fun _ hsome => ?_
    rw [hys f hf] at hsome
    cases hsome
  have hlast : ∀ (l : List ParseError), l ⊆ ys → ∀ e : ParseError, e.collapseFrom l = e :: l := by
    intro l
    induction l with
    | nil => exact fun _ e => rfl
    | cons f l ih =>
      intro hl e
      obtain ⟨hf, hl⟩ := List.cons_subset.1 hl
      rw [ParseError.collapseFrom, hnone e f hf]
      exact congrArg (e :: ·) (ih hl f)
  have hfrom : ∀ (rest : List ParseError) (e : ParseError),
      e.collapseFrom (rest ++ ys) = e.collapseFrom rest ++ ys := by
    intro rest
    induction rest with
    | nil => exact hlast ys (List.Subset.refl ys)
    | cons f rest ih =>
      intro e
      rw [List.cons_append, ParseError.collapseFrom, ParseError.collapseFrom]
      split
      · exact ih _
      · rw [ih, List.cons_append]
  cases xs with
  | cons e rest => exact hfrom rest e
  | nil =>
    cases ys with
    | nil => rfl
    | cons f l => exact hlast l (List.subset_cons_self f l) f

end Formula

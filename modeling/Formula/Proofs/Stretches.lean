import Formula.Proofs.Collapse
import Mathlib.Algebra.Ring.Nat
import Mathlib.Data.List.SplitBy

/-!
# Collapsing by stretches

In a stretch of unknown identifiers each one starts where the one before it ends.  Collapsing puts a
single error in the place of each stretch that cannot be extended: it starts where the first error
starts, its identifier is what the identifiers spell one after another, and its length is the sum of
their lengths.  All other errors stay as they are, and so does the order.

Collapsing compares an error with what the errors before it have been joined to, while a stretch is
about neighbours in the list.  Both are the same since joining keeps where the last error ends
(`ParseError.JoinsTo.continues_getLast?`).
-/

namespace Formula

/-- Whether an error is an unknown identifier that starts where another unknown identifier ends. -/
def ParseError.continues (a b : ParseError) : Bool :=
  a.identifier?.isSome && b.identifier?.isSome && b.start = a.stop

/-- A list of errors cut into stretches that cannot be extended.  An error that neither continues its
neighbour nor is continued by one is a stretch by itself. -/
structure IsMaximalCut (errors : List ParseError) (stretches : List (List ParseError)) : Prop where
  /-- The stretches are the list, one after another. -/
  flatten : stretches.flatten = errors
  /-- There is an error in each of them. -/
  ne_nil : ∀ stretch ∈ stretches, stretch ≠ []
  /-- Inside a stretch, an error continues the one before it. -/
  inside : ∀ stretch ∈ stretches, stretch.IsChain fun a b => a.continues b = true
  /-- The first error of a stretch does not continue the last one of the stretch before. -/
  maximal : stretches.IsChain fun xs ys =>
    ∀ a ∈ xs.getLast?, ∀ b ∈ ys.head?, a.continues b = false

/-- There is a cut into stretches that cannot be extended. -/
theorem isMaximalCut_splitBy (errors : List ParseError) :
    IsMaximalCut errors (errors.splitBy ParseError.continues) where
  flatten := List.flatten_splitBy _ errors
  ne_nil _ h := List.ne_nil_of_mem_splitBy h
  inside _ h := List.isChain_of_mem_splitBy h
  maximal := by
    refine (List.isChain_getLast_head_splitBy ParseError.continues errors).imp ?_
    rintro xs ys ⟨hxs, hys, hend⟩ a ha b hb
    rwa [← List.getLast_of_mem_getLast? ha, ← List.head_of_mem_head? hb]

/-- There is no other cut. -/
theorem IsMaximalCut.eq_splitBy {errors : List ParseError} {stretches : List (List ParseError)}
    (h : IsMaximalCut errors stretches) : stretches = errors.splitBy ParseError.continues := by
  have hempty : [] ∉ stretches := fun hmem => h.ne_nil [] hmem rfl
  refine (List.splitBy_eq_iff.2 ⟨h.flatten.symm, hempty, h.inside, ?_⟩).symm
  refine h.maximal.imp_of_mem_imp ?_
  intro xs ys hxs hys hend
  exact ⟨h.ne_nil xs hxs, h.ne_nil ys hys,
    hend _ (List.getLast_mem_getLast? _) _ (List.head_mem_head? _)⟩

namespace ParseError

/-- The error that stands for a stretch. -/
inductive JoinsTo : List ParseError → ParseError → Prop
  /-- An error that is no unknown identifier stays as it is. -/
  | other {e : ParseError} (h : e.identifier? = none) : JoinsTo [e] e
  /-- Unknown identifiers become one. -/
  | identifiers {e : ParseError} {es : List ParseError}
      (h : ∀ f ∈ e :: es, f.identifier?.isSome = true) :
      JoinsTo (e :: es) ⟨.unknownIdentifier ((e :: es).filterMap identifier?).flatten, e.start,
        ((e :: es).map (·.length)).sum⟩

theorem joinsTo_singleton (e : ParseError) : JoinsTo [e] e := by
  obtain ⟨cause, start, length⟩ := e
  cases cause with
  | unknownIdentifier t =>
    have hjoins : JoinsTo [⟨.unknownIdentifier t, start, length⟩] _ :=
      .identifiers (by simp [identifier?])
    simpa [identifier?] using hjoins
  | _ => exact .other rfl

theorem continues_eq_true_iff {a b : ParseError} : a.continues b = true ↔
    a.identifier?.isSome = true ∧ b.identifier?.isSome = true ∧ b.start = a.stop := by
  simp [continues, and_assoc]

/-- Two errors can be joined if the second one continues the first one. -/
theorem join?_eq_none_iff_continues {a b : ParseError} :
    a.join? b = none ↔ a.continues b = false := by
  rw [join?_eq_none_iff, ← Bool.not_eq_true, continues_eq_true_iff]
  tauto

theorem continues_of_join? {a b c : ParseError} (h : a.join? b = some c) :
    a.continues b = true := by
  by_contra hne
  rw [Bool.not_eq_true, ← join?_eq_none_iff_continues, h] at hne
  cases hne

/-- A stretch joins to an error that can be joined with the next one. -/
theorem JoinsTo.concat {xs : List ParseError} {a b c : ParseError} (h : JoinsTo xs a)
    (hjoin : a.join? b = some c) : JoinsTo (xs ++ [b]) c := by
  obtain ⟨ha, hb, -⟩ := identifier?_of_join? hjoin
  cases h with
  | other h => simp [h] at ha
  | @identifiers e es hes =>
    obtain ⟨cause, start, length⟩ := b
    cases cause with
    | unknownIdentifier t =>
      have hall : ∀ f ∈ e :: (es ++ [⟨.unknownIdentifier t, start, length⟩]),
          f.identifier?.isSome = true := by
        rw [← List.cons_append]
        exact List.forall_mem_append.2 ⟨hes, List.forall_mem_singleton.2 hb⟩
      have hjoins := JoinsTo.identifiers hall
      rw [← List.cons_append, List.filterMap_append, List.flatten_append, List.map_append,
        List.sum_append] at hjoins
      simp only [join?, Option.ite_none_right_eq_some, Option.some.injEq] at hjoin
      obtain ⟨-, rfl⟩ := hjoin
      simpa only [List.filterMap_cons, List.filterMap_nil, identifier?, List.flatten_cons,
        List.flatten_nil, List.append_nil, List.map_cons, List.map_nil, List.sum_cons,
        List.sum_nil, Nat.add_zero] using hjoins
    | _ => cases hb

/-- In a stretch, the last error ends where the lengths end if they are laid one after another. -/
theorem stop_getLast {es : List ParseError} {e : ParseError}
    (h : (e :: es).IsChain fun a b => a.continues b = true) :
    ((e :: es).getLast (List.cons_ne_nil e es)).stop =
      e.start + ((e :: es).map (·.length)).sum := by
  induction es generalizing e with
  | nil => simp [stop]
  | cons f es ih =>
    obtain ⟨hcontinues, hchain⟩ := List.isChain_cons_cons.1 h
    have hstart : f.start = e.start + e.length := (continues_eq_true_iff.1 hcontinues).2.2
    rw [List.getLast_cons (List.cons_ne_nil f es), ih hchain, hstart, List.map_cons,
      List.map_cons, List.map_cons, List.sum_cons, List.sum_cons, List.sum_cons, Nat.add_assoc]

/-- **What continues the error that a stretch joins to is what continues its last error.** -/
theorem JoinsTo.continues_getLast? {xs : List ParseError} {a b : ParseError} (h : JoinsTo xs a)
    (hchain : xs.IsChain fun a b => a.continues b = true) :
    ∀ x ∈ xs.getLast?, x.continues b = a.continues b := by
  intro x hx
  cases h with
  | other h =>
    obtain rfl : _ = x := by simpa using hx
    rfl
  | @identifiers e es hes =>
    have hlast := List.getLast_of_mem_getLast? hx
    have hsome := hes x (List.mem_of_mem_getLast? hx)
    have hstop := stop_getLast hchain
    rw [hlast] at hstop
    rw [continues, continues, hsome, hstop]
    rfl

end ParseError

open ParseError

/-- Collapsing goes on from what the errors of a stretch have been joined to so far. -/
theorem forall₂_joinsTo_collapseFrom {xs rest : List ParseError} {a : ParseError}
    (h : JoinsTo xs a) (hne : xs ≠ []) (hchain : xs.IsChain fun a b => a.continues b = true) :
    List.Forall₂ JoinsTo ((xs ++ rest).splitBy continues) (a.collapseFrom rest) := by
  induction rest generalizing xs a with
  | nil =>
    rw [List.append_nil, List.splitBy_of_isChain hne hchain]
    exact .cons h .nil
  | cons f rest ih =>
    have hlast := h.continues_getLast? (b := f) hchain
    rw [collapseFrom]
    split
    · rename_i joined hjoin
      rw [← List.singleton_append, ← List.append_assoc]
      refine ih (h.concat hjoin) (by simp) (List.isChain_append.2 ⟨hchain, .singleton f, ?_⟩)
      intro x hx y hy
      obtain rfl : f = y := by simpa using hy
      rw [hlast x hx, continues_of_join? hjoin]
    · rename_i hnone
      have hends : ∀ x ∈ xs.getLast?, x.continues f = false := by
        intro x hx
        rw [hlast x hx, ← join?_eq_none_iff_continues, hnone]
      rw [List.splitBy_append_cons rest hends, List.splitBy_of_isChain hne hchain]
      exact .cons h (ih (joinsTo_singleton f) (List.cons_ne_nil f []) (.singleton f))

/-- **Collapsing replaces each stretch by one error.** -/
theorem forall₂_joinsTo_collapse (errors : List ParseError) :
    List.Forall₂ JoinsTo (errors.splitBy continues) (collapse errors) := by
  cases errors with
  | nil => exact .nil
  | cons e rest =>
    exact forall₂_joinsTo_collapseFrom (joinsTo_singleton e) (List.cons_ne_nil e [])
      (.singleton e)

/-- Errors of which no two neighbours can be joined stay as they are. -/
theorem collapse_of_isChain {errors : List ParseError}
    (h : errors.IsChain fun a b => a.join? b = none) : collapse errors = errors := by
  have hfrom : ∀ (rest : List ParseError) (e : ParseError),
      (e :: rest).IsChain (fun a b => a.join? b = none) → e.collapseFrom rest = e :: rest := by
    intro rest
    induction rest with
    | nil => exact fun _ _ => rfl
    | cons f rest ih =>
      intro e he
      obtain ⟨hnone, hrest⟩ := List.isChain_cons_cons.1 he
      rw [collapseFrom, hnone]
      exact congrArg (e :: ·) (ih f hrest)
  cases errors with
  | nil => rfl
  | cons e rest => exact hfrom rest e h

/-- **Collapsing finds a normal form.**  A list of errors can be cut in one way into stretches that
cannot be extended, and collapsing puts one error in the place of each of them.  Then no two
neighbours can be joined, and collapsing once more changes nothing. -/
theorem collapse_stretches (errors : List ParseError) :
    (∃ stretches, IsMaximalCut errors stretches ∧
      (∀ other, IsMaximalCut errors other → other = stretches) ∧
      List.Forall₂ JoinsTo stretches (collapse errors)) ∧
    (collapse errors).IsChain (fun a b => a.join? b = none) ∧
    collapse (collapse errors) = collapse errors :=
  ⟨⟨errors.splitBy continues, isMaximalCut_splitBy errors, fun _ h => h.eq_splitBy,
      forall₂_joinsTo_collapse errors⟩,
    isChain_collapse errors, collapse_of_isChain (isChain_collapse errors)⟩

/-- An empty identifier joins its neighbours; one that starts too early does not. -/
example : collapse [unknown ['a', 'b'] 0, unknown [] 2, unknown ['c'] 2, unknown ['d'] 2] =
    [unknown ['a', 'b', 'c'] 0, unknown ['d'] 2] := by
  decide

end Formula

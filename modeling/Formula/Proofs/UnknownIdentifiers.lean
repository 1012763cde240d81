import Formula.Proofs.Tiling
import Mathlib.Data.List.Chain

/-!
# Unknown identifiers are maximal runs

The characters of a formula that belong to no part, to no error about a point, and that are no
delimiters are *unresolved*.  The errors about unknown identifiers are about the runs of unresolved
characters, each of which is as long as possible, one error for each run.

The builder finds unknown characters one at a time, and the errors that it finds stand one after
another.  This remains when errors are joined, and then no two errors are left that could be joined.
Two unknown identifiers that touch could be joined if they were neighbours, and whatever stood
between them would need a character between them.
-/

namespace Formula

/-- The positions from `a` up to `b` all satisfy a statement, and neither the position before them
nor the position after them does. -/
structure IsMaximalRun (P : Nat → Prop) (a b : Nat) : Prop where
  /-- There is a position. -/
  lt : a < b
  /-- All of them satisfy the statement. -/
  all : ∀ n, a ≤ n → n < b → P n
  /-- The position before them does not. -/
  before : ∀ n, n + 1 = a → ¬ P n
  /-- The position after them does not. -/
  after : ¬ P b

/-- The characters of a formula that belong to nothing: they are no delimiters, they are in no part
that is no group, and no error is about a point there. -/
structure Parse.Unresolved (p : Parse) (n : Nat) : Prop where
  /-- There is a character that is no delimiter. -/
  solid : ∃ c, p.text[n]? = some c ∧ isDelimiter c = false
  /-- It is in no number, operator, constant, variable or function name. -/
  part : ∀ q ∈ spelledParts p.items, q.excerpt.covers n = false
  /-- It is no second point of a number. -/
  point : ∀ e ∈ p.errors, e.cause = .repeatedPoint → e.covers n = false

/-! ## Errors one after another -/

/-- Errors that stand one after another between two positions, each with characters of its own. -/
def Successive (n : Nat) : Nat → List ParseError → Prop
  | m, [] => m ≤ n
  | m, e :: es => m ≤ e.start ∧ e.start < e.stop ∧ Successive n e.stop es

namespace Successive

variable {m n : Nat} {es : List ParseError} {e : ParseError}

theorem mono {n' : Nat} (h : Successive n m es) (hn : n ≤ n') : Successive n' m es := by
  induction es generalizing m with
  | nil => exact Nat.le_trans h hn
  | cons e es ih => exact ⟨h.1, h.2.1, ih h.2.2⟩

/-- An error about one more character. -/
theorem concat (h : Successive n m es) (hstart : e.start = n) (hlength : e.length = 1) :
    Successive (n + 1) m (es ++ [e]) := by
  have hstop : e.stop = n + 1 := by rw [ParseError.stop, hstart, hlength]
  induction es generalizing m with
  | nil =>
    have hm : m ≤ n := h
    exact ⟨by omega, by omega, Nat.le_of_eq hstop⟩
  | cons f es ih => exact ⟨h.1, h.2.1, ih h.2.2⟩

theorem start_of_mem (h : Successive n m es) (he : e ∈ es) : m ≤ e.start ∧ e.start < e.stop := by
  induction es generalizing m with
  | nil => cases he
  | cons f es ih =>
    obtain ⟨hm, hlt, hes⟩ := h
    rcases List.mem_cons.1 he with rfl | he
    · exact ⟨hm, hlt⟩
    · obtain ⟨hle, he⟩ := ih hes he
      exact ⟨by omega, he⟩

/-- Errors that are joined still stand one after another. -/
theorem collapse (h : Successive n m es) : Successive n m (collapse es) := by
  revert m
  refine collapse_induction (P := fun errors joined =>
    ∀ {m}, Successive n m errors → Successive n m joined) ?_ ?_ ?_ es
  · exact fun h => h
  · intro e rest joined ih m h
    exact ⟨h.1, h.2.1, ih h.2.2⟩
  · intro a b c rest joined hjoin ih m h
    obtain ⟨ha, halt, hb, hblt, hrest⟩ := h
    obtain ⟨hstart, hstop⟩ := ParseError.span_join? hjoin
    refine ih ⟨by omega, by omega, ?_⟩
    rw [hstop]
    exact hrest

/-- **Unknown identifiers that cannot be joined with their neighbours do not touch.** -/
theorem pairwise_stop_lt (h : Successive n m es)
    (hchain : es.IsChain fun a b => a.join? b = none) :
    (es.filter (·.identifier?.isSome)).Pairwise fun a b => a.stop < b.start := by
  rw [List.pairwise_filter]
  induction es generalizing m with
  | nil => exact .nil
  | cons e es ih =>
    obtain ⟨-, -, hes⟩ := h
    refine List.pairwise_cons.2 ⟨?_, ih hes (List.isChain_cons.1 hchain).2⟩
    intro f hf hesome hfsome
    cases es with
    | nil => cases hf
    | cons g es =>
      obtain ⟨hle, hlt, hrest⟩ := hes
      rcases List.mem_cons.1 hf with rfl | hf
      · have hnone := (List.isChain_cons_cons.1 hchain).1
        have hne := ParseError.join?_eq_none_iff.1 hnone hesome hfsome
        omega
      · have hstop := (hrest.start_of_mem hf).1
        omega

end Successive

/-! ## The errors of a formula -/

namespace Builder

variable {text : Text} {b : Builder} {tok : Token}

/-- An error that a token adds is about the character of the token. -/
theorem successive_step (h : Successive b.position 0 b.errors) :
    Successive (b.step text tok).position 0 (b.step text tok).errors := by
  have hstep : ErrorStep b.position tok b.errors (b.step text tok).errors := errorStep_step b tok
  rw [position_step]
  generalize (b.step text tok).errors = errors at hstep ⊢
  cases hstep with
  | other => exact h.mono (Nat.le_add_right _ _)
  | unknown | repeatedPoint | unmatchedClosing | misplacedComma =>
    exact h.concat rfl rfl

theorem successive_run {ts : List Token} (h : Successive b.position 0 b.errors) :
    Successive (b.run text ts).position 0 (b.run text ts).errors := by
  induction ts generalizing b with
  | nil => exact h
  | cons tok ts ih =>
    rw [run_cons]
    exact ih (successive_step h)

end Builder

variable {r : Registry} {text : Text}

/-- What is found after the last token is about no unknown identifier. -/
theorem identifier?_of_mem_unclosed {frames : List Frame} :
    ∀ e ∈ Builder.unclosed frames, e.identifier?.isSome = false := by
  intro e he
  obtain ⟨f, -, rfl⟩ := List.mem_map.1 he
  rfl

theorem filter_identifier_eq_nil {errors : List ParseError}
    (h : ∀ e ∈ errors, e.identifier?.isSome = false) :
    errors.filter (·.identifier?.isSome) = [] := by
  refine List.filter_eq_nil_iff.2 fun e he => ?_
  rw [h e he]
  exact Bool.false_ne_true

/-- The unknown identifiers of a formula are those that the builder finds, after joining. -/
theorem filter_identifier_parse (r : Registry) (text : Text) :
    (parse r text).errors.filter (·.identifier?.isSome) =
      (collapse (Builder.empty.run text (tokens r text)).errors).filter
        (·.identifier?.isSome) := by
  simp only [parse, Builder.allErrors]
  rw [collapse_append identifier?_of_mem_argumentErrors,
    collapse_append identifier?_of_mem_unclosed, List.filter_append, List.filter_append,
    filter_identifier_eq_nil identifier?_of_mem_unclosed,
    filter_identifier_eq_nil identifier?_of_mem_argumentErrors, List.append_nil, List.append_nil]

theorem successive_parse (r : Registry) (text : Text) :
    Successive text.length 0 (collapse (Builder.empty.run text (tokens r text)).errors) := by
  rw [← position_run_tokens r text]
  have hempty : Successive Builder.empty.position 0 Builder.empty.errors := Nat.le_refl 0
  exact (Builder.successive_run hempty).collapse

/-- The unknown identifiers of a formula stand one after another and do not touch. -/
theorem pairwise_stop_lt_parse (r : Registry) (text : Text) :
    ((parse r text).errors.filter (·.identifier?.isSome)).Pairwise
      fun e f => e.stop < f.start := by
  rw [filter_identifier_parse]
  exact (successive_parse r text).pairwise_stop_lt (isChain_collapse _)

/-- An unknown identifier has a character. -/
theorem start_lt_stop_parse {e : ParseError} (he : e ∈ (parse r text).errors)
    (hsome : e.identifier?.isSome = true) : e.start < e.stop := by
  have hmem : e ∈ (parse r text).errors.filter (·.identifier?.isSome) :=
    List.mem_filter.2 ⟨he, hsome⟩
  rw [filter_identifier_parse] at hmem
  exact ((successive_parse r text).start_of_mem (List.mem_filter.1 hmem).1).2

theorem isLexical_iff {e : ParseError} :
    e.isLexical = true ↔ e.identifier?.isSome = true ∨ e.cause = .repeatedPoint := by
  obtain ⟨cause, start, length⟩ := e
  cases cause <;> simp [ParseError.isLexical, ParseError.identifier?]

/-- **The unresolved characters of a formula are those of its unknown identifiers.** -/
theorem unresolved_iff {n : Nat} : (parse r text).Unresolved n ↔
    ∃ e ∈ (parse r text).errors, e.identifier?.isSome = true ∧ e.covers n = true := by
  constructor
  · rintro ⟨⟨c, hc, hsolid⟩, hpart, hpoint⟩
    rcases exists_covers hc hsolid with ⟨p, hp, hcovers⟩ | ⟨e, he, hlexical, hcovers⟩
    · rw [hpart p hp] at hcovers
      cases hcovers
    · rcases isLexical_iff.1 hlexical with hsome | hcause
      · exact ⟨e, he, hsome, hcovers⟩
      · rw [hpoint e he hcause] at hcovers
        cases hcovers
  · rintro ⟨e, he, hsome, hcovers⟩
    have hlexical : e.isLexical = true := isLexical_iff.2 (.inl hsome)
    refine ⟨?_, covers_eq_false_of_covers he hlexical hcovers, ?_⟩
    · exact solidCount_eq_one_iff.1 (countP_of_covers he hlexical hcovers).1
    · intro f hf hcause
      by_contra hcovered
      rw [Bool.not_eq_false] at hcovered
      obtain rfl := eq_of_covers he hlexical hcovers hf (isLexical_iff.2 (.inr hcause)) hcovered
      rw [ParseError.identifier?, hcause] at hsome
      cases hsome

/-- Of two unknown identifiers, one stands before the other, with a character between them. -/
theorem eq_or_stop_lt {e f : ParseError} (he : e ∈ (parse r text).errors)
    (hesome : e.identifier?.isSome = true) (hf : f ∈ (parse r text).errors)
    (hfsome : f.identifier?.isSome = true) : e = f ∨ e.stop < f.start ∨ f.stop < e.start := by
  have hpairwise := pairwise_stop_lt_parse r text
  have hbefore : ((parse r text).errors.filter (·.identifier?.isSome)).Pairwise
      fun e f => e = f ∨ e.stop < f.start ∨ f.stop < e.start :=
    hpairwise.imp fun h => .inr (.inl h)
  have hafter : ((parse r text).errors.filter (·.identifier?.isSome)).Pairwise
      (flip fun e f => e = f ∨ e.stop < f.start ∨ f.stop < e.start) :=
    hpairwise.imp fun h => .inr (.inr h)
  exact List.Pairwise.forall_of_forall_of_flip (fun _ _ => .inl rfl) hbefore hafter
    (List.mem_filter.2 ⟨he, hesome⟩) (List.mem_filter.2 ⟨hf, hfsome⟩)

/-- An unknown identifier is a maximal run. -/
theorem isMaximalRun_of_mem_errors {e : ParseError} (he : e ∈ (parse r text).errors)
    (hsome : e.identifier?.isSome = true) :
    IsMaximalRun (parse r text).Unresolved e.start e.stop where
  lt := start_lt_stop_parse he hsome
  all n hstart hstop :=
    unresolved_iff.2 ⟨e, he, hsome, ParseError.covers_eq_true_iff.2 ⟨hstart, hstop⟩⟩
  before n hn h := by
    obtain ⟨f, hf, hfsome, hcovers⟩ := unresolved_iff.1 h
    have hcovers : f.start ≤ n ∧ n < f.stop := ParseError.covers_eq_true_iff.1 hcovers
    rcases eq_or_stop_lt he hsome hf hfsome with rfl | hbefore | hafter
    · omega
    · have hlt := start_lt_stop_parse he hsome
      omega
    · omega
  after h := by
    obtain ⟨f, hf, hfsome, hcovers⟩ := unresolved_iff.1 h
    have hcovers : f.start ≤ e.stop ∧ e.stop < f.stop := ParseError.covers_eq_true_iff.1 hcovers
    rcases eq_or_stop_lt he hsome hf hfsome with rfl | hbefore | hafter
    · omega
    · omega
    · have hlt := start_lt_stop_parse he hsome
      omega

/-- Maximal runs with a common position are the same. -/
theorem IsMaximalRun.eq_of_mem {P : Nat → Prop} {a b c d n : Nat} (h : IsMaximalRun P a b)
    (h' : IsMaximalRun P c d) (hab : a ≤ n ∧ n < b) (hcd : c ≤ n ∧ n < d) : a = c ∧ b = d := by
  constructor
  · rcases Nat.lt_trichotomy a c with hlt | heq | hlt
    · exact absurd (h.all (c - 1) (by omega) (by omega)) (h'.before (c - 1) (by omega))
    · exact heq
    · exact absurd (h'.all (a - 1) (by omega) (by omega)) (h.before (a - 1) (by omega))
  · rcases Nat.lt_trichotomy b d with hlt | heq | hlt
    · exact absurd (h'.all b (by omega) hlt) h.after
    · exact heq
    · exact absurd (h.all d (by omega) hlt) h'.after

/-- **The unknown identifiers of a formula are its maximal unresolved runs.**  The errors about them
are listed from left to right and do not touch, and they are about the runs of unresolved characters
that can be extended to neither side. -/
theorem maximal_runs_parse (r : Registry) (text : Text) :
    ((parse r text).errors.filter (·.identifier?.isSome)).Pairwise
      (fun e f => e.stop < f.start) ∧
    ∀ a b, (∃ e ∈ (parse r text).errors,
        e.identifier?.isSome = true ∧ e.start = a ∧ e.stop = b) ↔
      IsMaximalRun (parse r text).Unresolved a b := by
  refine ⟨pairwise_stop_lt_parse r text, fun a b => ⟨?_, fun h => ?_⟩⟩
  · rintro ⟨e, he, hsome, rfl, rfl⟩
    exact isMaximalRun_of_mem_errors he hsome
  · -- the first character of the run belongs to an unknown identifier, which is a maximal run too
    obtain ⟨e, he, hsome, hcovers⟩ := unresolved_iff.1 (h.all a (Nat.le_refl a) h.lt)
    obtain ⟨hstart, hstop⟩ := (isMaximalRun_of_mem_errors he hsome).eq_of_mem h
      (ParseError.covers_eq_true_iff.1 hcovers) ⟨Nat.le_refl a, h.lt⟩
    exact ⟨e, he, hsome, hstart, hstop⟩

end Formula

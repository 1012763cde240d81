import Formula.Proofs.Composition
import Formula.Proofs.Parentheses.Matching

/-!
# The parentheses that the builder opens and closes

The builder keeps the open parentheses in its frames, and it goes through the parentheses of a
formula as a matching does: its frames stand where the stack of the matching says, and the closing
parentheses that it reports are the stray ones.  Blanks, commas and words play no part in this, and
neither does whether a parenthesis begins a group or the slots of a call.
-/

namespace Formula

variable {text read : Text} {r : Registry} {b : Builder} {tok : Token}

namespace Matching

theorem readFrom_of_forall {t : Text} (h : ∀ c ∈ t, c ≠ '(' ∧ c ≠ ')') (m : Matching) (n : Nat) :
    m.readFrom n t = m := by
  induction t generalizing n with
  | nil => rfl
  | cons c t ih =>
    obtain ⟨⟨hopening, hclosing⟩, ht⟩ := List.forall_mem_cons.1 h
    rw [readFrom, read_other _ _ hopening hclosing, ih ht]

/-- Only the tokens of parentheses have parentheses in them. -/
theorem ne_parentheses_of_fits {following : Text} (h : tok.Fits r following)
    (hopening : tok ≠ .opening) (hclosing : tok ≠ .closing) : ∀ c ∈ tok.text, c ≠ '(' ∧ c ≠ ')' := by
  intro c hc
  constructor
  · rintro rfl
    exact hopening (h.eq_ofDelimiter hc (by decide) (by decide))
  · rintro rfl
    exact hclosing (h.eq_ofDelimiter hc (by decide) (by decide))

theorem readFrom_text {following : Text} (h : tok.Fits r following) (hopening : tok ≠ .opening)
    (hclosing : tok ≠ .closing) (m : Matching) (n : Nat) : m.readFrom n tok.text = m :=
  readFrom_of_forall (ne_parentheses_of_fits h hopening hclosing) m n

end Matching

namespace Builder

/-- A builder that has taken in a text, and whose frames are the stack of its matching. -/
structure Follows (b : Builder) (read : Text) : Prop where
  /-- It stands behind the text. -/
  position : b.position = read.length
  /-- The open parentheses. -/
  opened : b.opened = (Matching.of read).opened
  /-- The closing parentheses that close nothing. -/
  stray : b.errors.filter (·.cause = .unmatchedClosing) =
    (Matching.of read).stray.map (⟨.unmatchedClosing, ·, 1⟩)

theorem follows_empty : empty.Follows [] := ⟨rfl, rfl, rfl⟩

namespace Follows

theorem position_next (h : b.Follows read) (tok : Token) :
    (b.step text tok).position = (read ++ tok.text).length := by
  rw [position_step, h.position, List.length_append]

/-- Only a closing parenthesis is reported as one. -/
theorem filter_errors (b : Builder) (htok : tok ≠ .closing) :
    (b.step text tok).errors.filter (·.cause = .unmatchedClosing) =
      b.errors.filter (·.cause = .unmatchedClosing) := by
  have hstep : ErrorStep b.position tok b.errors (b.step text tok).errors := errorStep_step b tok
  generalize (b.step text tok).errors = errors at hstep
  cases hstep with
  | unmatchedClosing => exact absurd rfl htok
  | other => rfl
  | unknown | repeatedPoint | misplacedComma => simp [ParseError.unknown]

theorem opening (h : b.Follows read) : (b.step text .opening).Follows (read ++ ['(']) := by
  refine ⟨h.position_next .opening, ?_, ?_⟩
  · rw [opened_opening, Matching.of_concat, Matching.read_opening, h.position, h.opened]
  · rw [filter_errors b (by simp), h.stray, Matching.of_concat, Matching.read_opening]

theorem closing (h : b.Follows read) : (b.step text .closing).Follows (read ++ [')']) := by
  have hopened := h.opened
  refine ⟨h.position_next .closing, ?_, ?_⟩
  · rw [opened_closing, h.opened, Matching.of_concat]
    cases hstack : (Matching.of read).opened with
    | nil => rw [Matching.read_stray hstack, List.tail_nil, hstack]
    | cons o outer => rw [Matching.read_pair hstack, List.tail_cons]
  · rw [Matching.of_concat]
    cases hframes : b.frames with
    | nil =>
      rw [Builder.opened, hframes, List.map_nil] at hopened
      rw [Matching.read_stray hopened.symm, List.map_append, ← h.stray, ← h.position]
      simp [step, take, closeBracket, hframes, Builder.report]
    | cons f outer =>
      rw [Builder.opened, hframes, List.map_cons] at hopened
      rw [Matching.read_pair hopened.symm, ← h.stray]
      simp [step, take, closeBracket, hframes]

/-- **The builder goes on as the matching does.** -/
theorem step {following : Text} (h : b.Follows read) (hfits : tok.Fits r following) :
    (b.step text tok).Follows (read ++ tok.text) := by
  by_cases hopening : tok = .opening
  · subst hopening
    exact h.opening
  · by_cases hclosing : tok = .closing
    · subst hclosing
      exact h.closing
    · refine ⟨h.position_next tok, ?_, ?_⟩
      · rw [opened_step hopening hclosing, h.opened, Matching.of_append,
          Matching.readFrom_text hfits hopening hclosing]
      · rw [filter_errors b hclosing, h.stray, Matching.of_append,
          Matching.readFrom_text hfits hopening hclosing]

end Follows

/-- **The builder follows the matching of what it has taken in.** -/
theorem follows_run {after : Text} {ts : List Token} (h : b.Follows read)
    (hfits : InContext (Token.Fits r) after ts) :
    (b.run text ts).Follows (read ++ ts.flatMap Token.text) := by
  induction ts generalizing b read with
  | nil =>
    rw [List.flatMap_nil, List.append_nil]
    exact h
  | cons tok ts ih =>
    rw [run_cons, List.flatMap_cons, ← List.append_assoc]
    exact ih (h.step hfits.1) hfits.2

theorem follows_tokens (r : Registry) (text : Text) :
    (empty.run text (tokens r text)).Follows text := by
  have h : (empty.run text (tokens r text)).Follows _ := follows_run follows_empty (fits_tokens r text)
  rwa [text_tokens, List.nil_append] at h

end Builder

/-- The errors of a formula of a kind that is about parentheses only: those of the builder, and those
of the parentheses that are open at the end. -/
theorem filter_errors_parse {cause : ParseError.Cause}
    (hcause : cause = .unmatchedClosing ∨ cause = .unmatchedOpening) :
    (parse r text).errors.filter (·.cause = cause) =
      (Builder.empty.run text (tokens r text)).allErrors.filter (·.cause = cause) := by
  have hidentifier : ∀ e : ParseError, e.identifier?.isSome = true →
      decide (e.cause = cause) = false := by
    rintro ⟨c, start, length⟩ he
    rcases hcause with rfl | rfl <;> cases c <;> simp_all [ParseError.identifier?]
  have harguments : ∀ (unknowns : List Nat) (stop : Nat) (items : List Part),
      (argumentErrors unknowns stop items).filter (·.cause = cause) = [] := by
    intro unknowns stop items
    rw [List.filter_eq_nil_iff]
    rintro ⟨c, start, length⟩ he
    have hconcerns := concernsArguments_of_mem_argumentErrors _ he
    rcases hcause with rfl | rfl <;> cases c <;> simp_all [ParseError.concernsArguments]
  simp only [parse]
  rw [filter_collapse hidentifier, List.filter_append, harguments, List.append_nil]

/-- **The closing parentheses that are reported** are those that the matching leaves over. -/
theorem filter_errors_unmatchedClosing (r : Registry) (text : Text) :
    (parse r text).errors.filter (·.cause = .unmatchedClosing) =
      (Matching.of text).stray.map (⟨.unmatchedClosing, ·, 1⟩) := by
  rw [filter_errors_parse (.inl rfl), Builder.allErrors, List.filter_append,
    (Builder.follows_tokens r text).stray]
  simp [Builder.unclosed]

/-- **The opening parentheses that are reported** are those that the matching leaves over, the last
one first. -/
theorem filter_errors_unmatchedOpening (r : Registry) (text : Text) :
    (parse r text).errors.filter (·.cause = .unmatchedOpening) =
      (Matching.of text).opened.map (⟨.unmatchedOpening, ·, 1⟩) := by
  have hbuilder : (Builder.empty.run text (tokens r text)).errors.filter
      (·.cause = .unmatchedOpening) = [] := by
    rw [List.filter_eq_nil_iff]
    intro e he
    simpa using Builder.not_unmatchedOpening_run (by simp [Builder.empty]) e he
  rw [filter_errors_parse (.inr rfl), Builder.allErrors, List.filter_append, hbuilder,
    ← (Builder.follows_tokens r text).opened]
  simp [Builder.unclosed, Builder.opened, List.filter_map, Function.comp_def]

end Formula

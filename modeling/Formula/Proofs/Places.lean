import Formula.Proofs.ByteRange
import Formula.Proofs.WellFormed

/-!
# What errors and hints point at

An error gives a position and a number of characters, and what is written there is what the error is
about: the identifier that is not known, the single character that is out of place, the operator or
the function name whose operands or arguments are wrong, or the empty slot.  A hint points at a
function name that no opening parenthesis follows.  So the labels of the reports cut out these texts.

Errors about single characters and hints are recorded token by token, at the position of the builder,
which is where the token is written (`Builder.Pointed`).
-/

namespace Formula

variable {text read : Text} {r : Registry}

/-- What an error is about, if `t` is written at its place. -/
def ParseError.IsAbout (items : List Part) (e : ParseError) (t : Text) : Prop :=
  match e.cause with
  | .unknownIdentifier identifier => t = identifier ∧ t ≠ []
  | .unmatchedClosing => t = [')']
  | .unmatchedOpening => t = ['(']
  | .misplacedComma => t = [',']
  | .repeatedPoint => t = ['.']
  | .operatorArguments signature => ∃ op, op.operation.signature = signature ∧
      .operator op ⟨e.start, t⟩ ∈ walkAll items
  | .functionArguments signature _ => ∃ f slots, f.signature = signature ∧
      .call f ⟨e.start, t⟩ slots ∈ walkAll items
  | .emptyArgument => ∃ f name slots, ∃ s ∈ slots, s.excerpt = ⟨e.start, t⟩ ∧
      .call f name slots ∈ walkAll items

/-- The character that an error is about, if it is about a single one. -/
def ParseError.mark? (e : ParseError) : Option Char :=
  match e.cause with
  | .unmatchedClosing => some ')'
  | .unmatchedOpening => some '('
  | .misplacedComma => some ','
  | .repeatedPoint => some '.'
  | _ => none

/-- An error is about an unknown identifier or about the character at its position. -/
def ParseError.IsMarked (text : Text) (e : ParseError) : Prop :=
  e.identifier?.isSome = true ∨ ∃ c, e.mark? = some c ∧ e.length = 1 ∧ text[e.start]? = some c

theorem ParseError.IsMarked.not_concernsArguments {e : ParseError} (h : e.IsMarked text) :
    e.concernsArguments = false := by
  obtain ⟨cause, start, length⟩ := e
  cases cause with
  | functionArguments | operatorArguments | emptyArgument =>
    rcases h with h | ⟨c, h, -⟩ <;> cases h
  | _ => rfl

/-- What is written at the place of an error. -/
def ParseError.Shows (text : Text) (items : List Part) (e : ParseError) : Prop :=
  ∃ t, e.IsAbout items t ∧ e.length = t.length ∧ (Excerpt.mk e.start t).StandsIn text

/-- An error about an unknown identifier or about a single character shows it. -/
theorem ParseError.IsMarked.shows {e : ParseError} (h : e.IsMarked text)
    (hplaced : e.IsPlaced text) (items : List Part) : e.Shows text items := by
  obtain ⟨cause, start, length⟩ := e
  rcases h with h | ⟨c, hmark, rfl, hc⟩
  · cases cause with
    | unknownIdentifier t =>
      obtain ⟨hlength, hword⟩ := hplaced t rfl
      exact ⟨t, ⟨rfl, hword.ne_nil⟩, hlength, hword.stands⟩
    | _ => cases h
  · refine ⟨[c], ?_, rfl, standsIn_singleton hc⟩
    cases cause with
    | unmatchedClosing | unmatchedOpening | misplacedComma | repeatedPoint =>
      obtain rfl := Option.some.inj hmark
      rfl
    | _ => cases hmark

/-- An error about operands or arguments shows what it is about. -/
theorem shows_of_mem_argumentErrors {unknowns : List Nat} {stop : Nat} {e : ParseError}
    (h : e ∈ argumentErrors unknowns stop (parse r text).items) :
    e.Shows text (parse r text).items := by
  obtain ⟨p, hp, hcauses⟩ := exists_causes_of_mem_argumentErrors h
  have hstands := standsIn_part hp
  cases hcauses with
  | operator op e => exact ⟨e.text, ⟨op, rfl, hp⟩, rfl, hstands⟩
  | @call f name slots _ h =>
    rcases mem_callErrors_iff.1 h with ⟨-, s, hs, -, rfl⟩ | ⟨-, rfl⟩
    · exact ⟨s.excerpt.text, ⟨f, name, slots, s, hs, rfl, hp⟩, rfl, (laid_parse hp).2 s hs⟩
    · exact ⟨name.text, ⟨f, slots, rfl, hp⟩, rfl, hstands⟩

/-- A name that is taken apart is the name of a function, and it is written after the token, without
a call. -/
def Token.LeavesUncalled (r : Registry) (following : Text) : Token → Prop
  | uncalled name => (∃ f, .function f ∈ r.symbols ∧ name.lower = f.literal.lower) ∧
      ∃ more, following = name ++ more ∧ startsCall more = false
  | _ => True

theorem leavesUncalled_pieces (following : Text) (budget : Nat) (word after : Text) :
    InContext (Token.LeavesUncalled r) after (pieces r following budget word) := by
  fun_induction pieces with
  | case1 => trivial
  | case2 budget c rest s hs left ih => exact ⟨trivial, ih⟩
  | case3 budget c rest _ ih => exact ⟨trivial, ih⟩

theorem leavesUncalled_resolve {s : Symbol} (hs : s ∈ r.symbols) {w : Text} (hw : w.lower = s.key)
    (following : Text) :
    InContext (Token.LeavesUncalled r) following (resolve r s w following) := by
  rw [resolve]
  split
  · rename_i h
    rw [Bool.and_eq_true, Bool.not_eq_true'] at h
    obtain ⟨hcallable, hcall⟩ := h
    refine ⟨⟨?_, following, ?_, hcall⟩, leavesUncalled_pieces ..⟩
    · cases s with
      | function f => exact ⟨f, hs, hw⟩
      | operator | constant | free => cases hcallable
    · rw [text_decompose]
  · exact ⟨trivial, trivial⟩

/-- **A name that is taken apart is followed by itself**, and no call follows it. -/
theorem leavesUncalled_tokens (r : Registry) (t : Text) :
    InContext (Token.LeavesUncalled r) [] (tokens r t) := by
  refine Registry.Reads.tokens ⟨?_, ?_, ?_, ?_, ?_, ?_⟩ t
  · intro c following _
    rw [Token.ofDelimiter]
    repeat' split
    all_goals trivial
  · exact fun _ _ _ => trivial
  · exact fun _ => trivial
  · exact fun _ _ _ => trivial
  · exact fun s hs w following hw _ => leavesUncalled_resolve hs hw following
  · exact fun w following _ => leavesUncalled_pieces ..

/-- What a hint says: the name of a function is written at its place, up to letter case, and no
opening parenthesis follows it, after blanks at most. -/
structure Hint.IsUncalled (r : Registry) (text : Text) (h : Hint) : Prop where
  /-- The name. -/
  names : ∃ f, .function f ∈ r.symbols ∧ h.identifier.lower = f.literal.lower
  /-- It is what is written. -/
  stands : (Excerpt.mk h.start h.identifier).StandsIn text
  /-- It is not called. -/
  uncalled : startsCall (text.drop (h.start + h.length)) = false

/-! ## The builder -/

namespace Builder

variable {b : Builder} {tok : Token} {more : Text}

/-- Only a name that is taken apart leaves a hint. -/
theorem hints_step (b : Builder) (tok : Token) : (b.step text tok).hints =
    b.hints ++ match tok with
      | .uncalled name => [⟨name, b.position⟩]
      | _ => [] := by
  cases tok with
  | opening =>
    simp only [step, take, openBracket, List.append_nil]
    split <;> rfl
  | closing =>
    simp only [step, take, closeBracket, List.append_nil]
    split <;> rfl
  | comma =>
    simp only [step, take, separate, List.append_nil]
    split <;> rfl
  | blank | number | symbol | unknown | repeatedPoint => exact (List.append_nil _).symm
  | uncalled name => rfl

theorem isMarked_errorStep {es es' : List ParseError} (h : ErrorStep read.length tok es es')
    (htext : text = read ++ tok.text ++ more) (hes : ∀ e ∈ es, e.IsMarked text) :
    ∀ e ∈ es', e.IsMarked text := by
  cases h with
  | other => exact hes
  | unknown c =>
    exact List.forall_mem_append.2 ⟨hes, List.forall_mem_singleton.2 (.inl rfl)⟩
  | repeatedPoint | unmatchedClosing | misplacedComma =>
    refine List.forall_mem_append.2 ⟨hes, List.forall_mem_singleton.2 (.inr ⟨_, rfl, rfl, ?_⟩)⟩
    simp [htext, Token.text]

theorem isUncalled_of_leavesUncalled {name : Text}
    (h : (Token.uncalled name).LeavesUncalled r more) (htext : text = read ++ more) :
    (Hint.mk name read.length).IsUncalled r text := by
  obtain ⟨hnames, after, rfl, hcall⟩ := h
  refine ⟨hnames, standsIn_iff.2 ⟨read, after, ?_, rfl⟩, ?_⟩
  · rw [htext, List.append_assoc]
  · have hdrop : text.drop (read.length + name.length) = after := by
      rw [htext, ← List.append_assoc, ← List.length_append, List.drop_left]
    rw [← hdrop] at hcall
    exact hcall

/-- What has been recorded so far points at what is written; `read` has been taken in. -/
structure Pointed (r : Registry) (text read : Text) (b : Builder) : Prop where
  /-- The builder stands behind what it has taken in. -/
  position : b.position = read.length
  /-- Errors. -/
  errors : ∀ e ∈ b.errors, e.IsMarked text
  /-- Hints. -/
  hints : ∀ h ∈ b.hints, h.IsUncalled r text

/-- **The builder keeps the invariant.** -/
theorem Pointed.step (h : b.Pointed r text read) (htok : tok.LeavesUncalled r more)
    (htext : text = read ++ tok.text ++ more) :
    (b.step text tok).Pointed r text (read ++ tok.text) where
  position := by rw [position_step, h.position, List.length_append]
  errors := isMarked_errorStep (h.position ▸ errorStep_step b tok) htext h.errors
  hints := by
    rw [hints_step]
    cases tok with
    | uncalled name =>
      rw [Token.text, List.append_nil] at htext
      have hhint := isUncalled_of_leavesUncalled htok htext
      rw [← h.position] at hhint
      exact List.forall_mem_append.2 ⟨h.hints, List.forall_mem_singleton.2 hhint⟩
    | _ =>
      rw [List.append_nil]
      exact h.hints

theorem pointed_run {ts : List Token} (h : b.Pointed r text read)
    (hts : InContext (Token.LeavesUncalled r) [] ts) (htext : text = read ++ ts.flatMap Token.text) :
    (b.run text ts).Pointed r text text := by
  induction ts generalizing b read with
  | nil =>
    rw [List.flatMap_nil, List.append_nil] at htext
    subst htext
    exact h
  | cons tok ts ih =>
    rw [List.flatMap_cons, ← List.append_assoc] at htext
    obtain ⟨htok, hts⟩ := hts
    rw [List.append_nil] at htok
    exact ih (h.step htok htext) hts htext

theorem pointed_tokens (r : Registry) (text : Text) :
    (empty.run text (tokens r text)).Pointed r text text := by
  have hempty : empty.Pointed r text [] := ⟨rfl, by simp [empty], by simp [empty]⟩
  refine pointed_run hempty (leavesUncalled_tokens r text) ?_
  rw [text_tokens, List.nil_append]

end Builder

/-! ## Whole formulas -/

/-- Every error that is found in the tokens is about an identifier or a single character. -/
theorem isMarked_allErrors (r : Registry) (text : Text) :
    ∀ e ∈ (Builder.empty.run text (tokens r text)).allErrors, e.IsMarked text := by
  refine List.forall_mem_append.2 ⟨(Builder.pointed_tokens r text).errors, ?_⟩
  intro e he
  obtain ⟨f, hf, rfl⟩ := List.mem_map.1 he
  have hopened : f.position ∈ (Matching.of text).opened := by
    rw [← (Builder.follows_tokens r text).opened]
    exact List.mem_map_of_mem hf
  exact .inr ⟨_, rfl, rfl, (Matching.placed_of text).opened _ hopened⟩

/-- Every error of a formula shows what it is about. -/
theorem shows_parse (r : Registry) (text : Text) :
    ∀ e ∈ (parse r text).errors, e.Shows text (parse r text).items := by
  intro e he
  cases hidentifier : e.identifier?.isSome with
  | true => exact ParseError.IsMarked.shows (.inl hidentifier) (isPlaced_parse r text e he) _
  | false =>
    have hplaced := isPlaced_parse r text e he
    simp only [parse] at he
    rw [mem_collapse_iff hidentifier] at he
    rcases List.mem_append.1 he with he | he
    · exact (isMarked_allErrors r text e he).shows hplaced _
    · exact shows_of_mem_argumentErrors he

/-- **Errors and hints point at what they are about.**  What is written at the place of an error is
the unknown identifier, the character that is out of place, the operator, the function name or the
slot; a hint stands at a function name that is not called.  The labels of the reports are the ranges
of bytes that cut out just that. -/
theorem places_parse (r : Registry) (text : Text) :
    (∀ e ∈ (parse r text).errors, ∃ t, e.IsAbout (parse r text).items t ∧
      e.length = t.length ∧ (Excerpt.mk e.start t).StandsIn text ∧
      CutsOut text (byteRange text e.start e.length) t) ∧
    (∀ h ∈ (parse r text).hints, h.IsUncalled r text ∧
      CutsOut text (byteRange text h.start h.length) h.identifier) ∧
    (parse r text).diagnostics.flatMap (fun d => d.labels.map (·.range)) =
      ((parse r text).errors.map fun e => byteRange text e.start e.length) ++
        (parse r text).hints.map fun h => byteRange text h.start h.length := by
  refine ⟨?_, ?_, ?_⟩
  · intro e he
    obtain ⟨t, habout, hlength, hstands⟩ := shows_parse r text e he
    refine ⟨t, habout, hlength, hstands, ?_⟩
    rw [hlength]
    exact hstands.cutsOut
  · intro h hh
    have huncalled := (Builder.pointed_tokens r text).hints h hh
    exact ⟨huncalled, huncalled.stands.cutsOut⟩
  · rw [Parse.diagnostics, List.flatMap_append, List.flatMap_map, List.flatMap_map]
    simp only [ParseError.diagnostic, Hint.diagnostic, List.map_cons, List.map_nil]
    rw [← List.map_eq_flatMap, ← List.map_eq_flatMap]
    rfl

end Formula

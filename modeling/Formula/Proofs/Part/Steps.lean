import Formula.Part.Builder
import Mathlib.Tactic.Common

/-!
# The steps of the builder

What a token does to a builder is said by one equation for each kind of token.  An opening
parenthesis begins the slots of a call if a function name waits for it, so the equations say which
of the two it is; a list in which no function name waits is `Ready`.
-/

namespace Formula

/-- The last part of a sibling list, which comes first here, is no function name that waits for its
parenthesis. -/
def Ready (items : List Part) : Prop :=
  ∀ f name before, items ≠ .call f name [] :: before

theorem ready_nil : Ready [] := by
  intro f name before h
  cases h

theorem ready_number (e : Excerpt) (before : List Part) : Ready (.number e :: before) := by
  intro f name before' h
  cases h

theorem ready_ofSymbol {s : Symbol} (hs : s.isCallable = false) (e : Excerpt)
    (before : List Part) : Ready (.ofSymbol s e :: before) := by
  intro f name before' h
  cases s with
  | function => cases hs
  | operator | constant | free => cases h

theorem ready_group (e : Excerpt) (items before : List Part) : Ready (.group e items :: before) := by
  intro f name before' h
  cases h

/-- A call that is closed has slots. -/
theorem ready_call (f : Operation) (name : Excerpt) {slots : List Slot} (hne : slots ≠ [])
    (before : List Part) : Ready (.call f name slots :: before) := by
  intro g name' before' h
  cases h
  exact hne rfl

namespace Builder

variable {text : Text} {b : Builder}

theorem run_singleton (b : Builder) (tok : Token) : b.run text [tok] = b.step text tok := rfl

theorem run_cons (b : Builder) (tok : Token) (ts : List Token) :
    b.run text (tok :: ts) = (b.step text tok).run text ts := rfl

theorem run_append (b : Builder) (ss ts : List Token) :
    b.run text (ss ++ ts) = (b.run text ss).run text ts := List.foldl_append

theorem withPosition_eq {n : Nat} (h : b.position = n) : { b with position := n } = b := by
  rw [← h]

/-- A token leaves the position to the step that takes it in. -/
theorem position_take (text : Text) (b : Builder) (tok : Token) :
    (b.take text tok).position = b.position := by
  cases tok with
  | opening =>
    rw [take, openBracket.eq_def]
    split <;> rfl
  | closing =>
    rw [take, closeBracket]
    split <;> rfl
  | comma =>
    rw [take, separate.eq_def]
    split <;> rfl
  | blank | number | symbol | unknown | repeatedPoint | uncalled => rfl

/-- Tokens taken in after others, if it is said where the second ones start. -/
theorem run_run {ts us : List Token} {start stop : Nat}
    (h : stop = start + (ts.flatMap Token.text).length) :
    run text { run text { b with position := start } ts with position := stop } us =
      run text { b with position := start } (ts ++ us) := by
  have hposition : (run text { b with position := start } ts).position = stop := by
    rw [position_run, h]
  rw [run_append, ← hposition]

/-- A part that is no number, or that does not touch a minus sign, is put at the end. -/
theorem push_eq_or (p : Part) (items : List Part) :
    push p items = p :: items ∨
      ∃ e op sign, p = .number e ∧ items = [.operator op sign] ∧ op.literal = ['-'] ∧
        sign.stop = e.start ∧ push p items = [.number ⟨sign.start, sign.text ++ e.text⟩] := by
  rw [push.eq_def]
  split
  · rename_i e op sign
    split
    · rename_i h
      simp only [Bool.and_eq_true, decide_eq_true_eq] at h
      exact .inr ⟨e, op, sign, rfl, rfl, h.1, h.2, rfl⟩
    · exact .inl rfl
  · exact .inl rfl

theorem push_ofSymbol (s : Symbol) (e : Excerpt) (items : List Part) :
    push (.ofSymbol s e) items = .ofSymbol s e :: items := by
  rcases push_eq_or (.ofSymbol s e) items with h | ⟨e', op, sign, h, -⟩
  · exact h
  · cases s <;> cases h

theorem step_symbol (b : Builder) (s : Symbol) (w : Text) :
    b.step text (.symbol s w) =
      { b with
        position := b.position + w.length
        items := .ofSymbol s ⟨b.position, w⟩ :: b.items } := by
  rw [step, take, push_ofSymbol]
  rfl

/-- A parenthesis that no function name waits for opens a group. -/
theorem step_opening (h : Ready b.items) :
    b.step text .opening =
      { b with
        position := b.position + 1
        items := []
        frames := ⟨.group, b.position, b.items⟩ :: b.frames } := by
  rw [step, take, openBracket.eq_def]
  split
  · rename_i f name before hitems
    exact absurd hitems (h f name before)
  · rfl

/-- A parenthesis that a function name waits for opens a call. -/
theorem step_opening_call {f : Operation} {name : Excerpt} {before : List Part}
    (h : b.items = .call f name [] :: before) :
    b.step text .opening =
      { b with
        position := b.position + 1
        items := []
        frames := ⟨.call f name [] (b.position + 1), b.position, before⟩ :: b.frames } := by
  rw [step, take, openBracket, h]
  rfl

theorem step_closing_group {opened : Nat} {before : List Part} {outer : List Frame}
    (h : b.frames = ⟨.group, opened, before⟩ :: outer) :
    b.step text .closing =
      { b with
        position := b.position + 1
        items := .group ⟨opened, text.slice opened (b.position + 1)⟩ b.items.reverse :: before
        frames := outer } := by
  rw [step, take, closeBracket, h]
  rfl

theorem step_closing_call {f : Operation} {name : Excerpt} {slots : List Slot}
    {slotStart opened : Nat} {before : List Part} {outer : List Frame}
    (h : b.frames = ⟨.call f name slots slotStart, opened, before⟩ :: outer) :
    b.step text .closing =
      { b with
        position := b.position + 1
        items := .call f name (.mk ⟨slotStart, text.slice slotStart b.position⟩ b.items.reverse ::
          slots).reverse :: before
        frames := outer } := by
  rw [step, take, closeBracket, h]
  rfl

theorem step_comma {f : Operation} {name : Excerpt} {slots : List Slot}
    {slotStart opened : Nat} {before : List Part} {outer : List Frame}
    (h : b.frames = ⟨.call f name slots slotStart, opened, before⟩ :: outer) :
    b.step text .comma =
      { b with
        position := b.position + 1
        items := []
        frames := ⟨.call f name (.mk ⟨slotStart, text.slice slotStart b.position⟩ b.items.reverse ::
          slots) (b.position + 1), opened, before⟩ :: outer } := by
  rw [step, take, separate, h]
  rfl

/-- A closing parenthesis where none is open. -/
theorem take_closing_nil (h : b.frames = []) (n : Nat) :
    take text { b with position := n } .closing =
      report { b with position := n } ⟨.unmatchedClosing, n, 1⟩ := by
  rw [take, closeBracket, h]

/-- A comma that separates no arguments. -/
theorem take_comma_group (h : ∀ f ∈ b.frames.head?, f.bracket = .group) (n : Nat) :
    take text { b with position := n } .comma =
      report { b with position := n } ⟨.misplacedComma, n, 1⟩ := by
  rw [take, separate.eq_def]
  split
  · rename_i hframes
    rw [hframes] at h
    cases h _ rfl
  · rfl

/-- Parentheses that no function name waits for, with the tokens between them. -/
theorem run_group (hready : Ready b.items) {inner : List Token} {n : Nat} {items : List Part}
    {hints : List Hint} (hrun : (b.run text [.opening]).run text inner =
      { b.run text [.opening] with position := n, items := items, hints := hints }) :
    b.run text ([Token.opening] ++ inner ++ [Token.closing]) =
      { b with
        position := n + 1
        items := .group ⟨b.position, text.slice b.position (n + 1)⟩ items.reverse :: b.items
        hints := hints } := by
  rw [run_append, run_append, hrun, run_singleton, run_singleton, step_opening hready]
  exact step_closing_group rfl

section Slot

variable {f : Operation} {name : Excerpt} {slots : List Slot} {slotStart opened n : Nat}
  {items before : List Part} {outer : List Frame} {hints : List Hint} {ts : List Token}

/-- The tokens of a slot and the comma after it. -/
theorem run_slot_comma (h : b.frames = ⟨.call f name slots slotStart, opened, before⟩ :: outer)
    (hrun : b.run text ts = { b with position := n, items := items, hints := hints }) :
    b.run text (ts ++ [Token.comma]) =
      { b with
        position := n + 1
        items := []
        frames := ⟨.call f name (.mk ⟨slotStart, text.slice slotStart n⟩ items.reverse :: slots)
          (n + 1), opened, before⟩ :: outer
        hints := hints } := by
  rw [run_append, hrun, run_singleton]
  exact step_comma h

/-- The tokens of the last slot and the parenthesis after it. -/
theorem run_slot_closing (h : b.frames = ⟨.call f name slots slotStart, opened, before⟩ :: outer)
    (hrun : b.run text ts = { b with position := n, items := items, hints := hints }) :
    b.run text (ts ++ [Token.closing]) =
      { b with
        position := n + 1
        items := .call f name (.mk ⟨slotStart, text.slice slotStart n⟩ items.reverse ::
          slots).reverse :: before
        frames := outer
        hints := hints } := by
  rw [run_append, hrun, run_singleton]
  exact step_closing_call h

end Slot

theorem ready_push_number (e : Excerpt) (items : List Part) : Ready (push (.number e) items) := by
  rcases push_eq_or (.number e) items with hpush | ⟨e', op, sign, -, -, -, -, hpush⟩
  · rw [hpush]
    exact ready_number e items
  · rw [hpush]
    exact ready_number _ []

theorem ready_closeBracket (h : Ready b.items) : Ready (b.closeBracket text).items := by
  obtain ⟨position, items, frames, errors, hints⟩ := b
  match frames with
  | [] => exact h
  | ⟨.group, opened, before⟩ :: outer =>
    intro f name before' heq
    cases heq
  | ⟨.call g name slots slotStart, opened, before⟩ :: outer =>
    intro f name' before' heq
    simp [closeBracket, close] at heq

theorem ready_separate (h : Ready b.items) : Ready (b.separate text).items := by
  obtain ⟨position, items, frames, errors, hints⟩ := b
  match frames with
  | [] => exact h
  | ⟨.group, opened, before⟩ :: outer => exact h
  | ⟨.call g name slots slotStart, opened, before⟩ :: outer => exact ready_nil

/-- **Only a function name makes a list wait** for a parenthesis. -/
theorem ready_step (h : Ready b.items) {tok : Token}
    (htok : ∀ f w, tok ≠ .symbol (.function f) w) : Ready (b.step text tok).items := by
  cases tok with
  | blank | uncalled | unknown | repeatedPoint => exact h
  | opening =>
    rw [step_opening h]
    exact ready_nil
  | closing => exact ready_closeBracket h
  | comma => exact ready_separate h
  | number n => exact ready_push_number _ b.items
  | symbol s w =>
    rw [step_symbol]
    cases s with
    | function f => exact absurd rfl (htok f w)
    | operator | constant | free => exact ready_ofSymbol rfl _ _

end Builder

end Formula

import Formula.Proofs.Part.Leaves
import Formula.Proofs.Part.SiblingLists

/-!
# The parts built so far

A token adds at most one part to what has been built, and no part is ever changed: a number or a
symbol is new by itself, and a closing parenthesis makes one new group or call of the parts inside
it.  At the end of the formula, each open parenthesis is closed in the same way.

What is said of all parts of a tree is proved from these cases, one part at a time.
-/

namespace Formula

/-- The parts in the complete slots of a call that is open. -/
def Bracket.parts : Bracket → List Part
  | group => []
  | call _ _ slots _ => walkSlots slots

/-- The parts before an open parenthesis, in its sibling list and in complete slots. -/
def Frame.parts (f : Frame) : List Part :=
  walkAll f.before ++ f.bracket.parts

namespace Builder

/-- All parts of what has been built so far. -/
def parts (b : Builder) : List Part :=
  b.frames.flatMap Frame.parts ++ walkAll b.items

variable {text : Text} {b : Builder} {q : Part}

theorem mem_parts : q ∈ b.parts ↔ (∃ f ∈ b.frames, q ∈ f.parts) ∨ q ∈ walkAll b.items := by
  rw [parts, List.mem_append, List.mem_flatMap]

/-- What a closed parenthesis leaves is one new part in front of those before it. -/
theorem mem_walkAll_close {f : Frame} {items : List Part} {inner outer : Nat}
    (h : q ∈ walkAll (close text f items inner outer)) :
    q ∈ f.parts ∨ q ∈ walkAll items ∨ close text f items inner outer = q :: f.before := by
  obtain ⟨bracket, position, before⟩ := f
  cases bracket with
  | group =>
    simp only [close, walkAll_cons, Part.walk, List.mem_append, List.mem_cons] at h
    rcases h with (rfl | h) | h
    · exact .inr (.inr rfl)
    · rw [mem_walkAll] at h
      obtain ⟨p, hp, hq⟩ := h
      exact .inr (.inl (mem_walkAll.2 ⟨p, List.mem_reverse.1 hp, hq⟩))
    · exact .inl (List.mem_append_left _ h)
  | call g name slots slotStart =>
    simp only [close, walkAll_cons, Part.walk, List.mem_append, List.mem_cons] at h
    rcases h with (rfl | h) | h
    · exact .inr (.inr rfl)
    · rw [mem_walkSlots] at h
      obtain ⟨s, hs, hq⟩ := h
      rw [List.mem_reverse, List.mem_cons] at hs
      rcases hs with rfl | hs
      · rw [Slot.items, mem_walkAll] at hq
        obtain ⟨p, hp, hq⟩ := hq
        exact .inr (.inl (mem_walkAll.2 ⟨p, List.mem_reverse.1 hp, hq⟩))
      · exact .inl (List.mem_append_right _ (mem_walkSlots.2 ⟨s, hs, hq⟩))
    · exact .inl (List.mem_append_left _ h)

theorem mem_parts_openBracket (h : q ∈ b.openBracket.parts) : q ∈ b.parts := by
  rw [openBracket] at h
  split at h
  · rename_i f name before hitems
    rw [mem_parts] at h ⊢
    rcases h with ⟨g, hg, hq⟩ | hq
    · rcases List.mem_cons.1 hg with rfl | hg
      · rw [hitems, walkAll_cons]
        simp only [Frame.parts, Bracket.parts, walkSlots, List.append_nil] at hq
        exact .inr (List.mem_append_right _ hq)
      · exact .inl ⟨g, hg, hq⟩
    · simp [walkAll] at hq
  · rw [mem_parts] at h ⊢
    rcases h with ⟨g, hg, hq⟩ | hq
    · rcases List.mem_cons.1 hg with rfl | hg
      · simp only [Frame.parts, Bracket.parts, List.append_nil] at hq
        exact .inr hq
      · exact .inl ⟨g, hg, hq⟩
    · simp [walkAll] at hq

theorem mem_parts_closeBracket (h : q ∈ (b.closeBracket text).parts) :
    q ∈ b.parts ∨ ∃ f outer, b.frames = f :: outer ∧
      close text f b.items b.position (b.position + 1) = q :: f.before := by
  rw [closeBracket] at h
  split at h
  · exact .inl h
  · rename_i f outer hframes
    simp only [mem_parts, hframes] at h ⊢
    rcases h with ⟨g, hg, hq⟩ | hq
    · exact .inl (.inl ⟨g, List.mem_cons_of_mem _ hg, hq⟩)
    · rcases mem_walkAll_close hq with hq | hq | hq
      · exact .inl (.inl ⟨f, List.mem_cons_self, hq⟩)
      · exact .inl (.inr hq)
      · exact .inr ⟨f, outer, rfl, hq⟩

theorem mem_parts_separate (h : q ∈ (b.separate text).parts) : q ∈ b.parts := by
  rw [separate] at h
  split at h
  · rename_i f name slots slotStart opened before outer hframes
    simp only [mem_parts, hframes] at h ⊢
    rcases h with ⟨g, hg, hq⟩ | hq
    · rcases List.mem_cons.1 hg with rfl | hg
      · simp only [Frame.parts, Bracket.parts, walkSlots_cons, List.mem_append] at hq
        rcases hq with hq | hq | hq
        · exact .inl ⟨_, List.mem_cons_self, List.mem_append_left _ hq⟩
        · rw [Slot.items, mem_walkAll] at hq
          obtain ⟨p, hp, hq⟩ := hq
          exact .inr (mem_walkAll.2 ⟨p, List.mem_reverse.1 hp, hq⟩)
        · exact .inl ⟨_, List.mem_cons_self, List.mem_append_right _ hq⟩
      · exact .inl ⟨g, List.mem_cons_of_mem _ hg, hq⟩
    · simp [walkAll] at hq
  · exact h

theorem mem_parts_push {p : Part} (hwalk : p.walk = [p]) {position : Nat}
    {errors : List ParseError} {hints : List Hint}
    (h : q ∈ Builder.parts ⟨position, push p b.items, b.frames, errors, hints⟩) :
    q ∈ b.parts ∨ q = p ∨ ∃ e, q = .number e := by
  rw [mem_parts] at h ⊢
  rcases h with h | h
  · exact .inl (.inl h)
  · rcases push_eq_or p b.items with hpush | ⟨e, op, sign, -, -, -, -, hpush⟩
    · rw [hpush, walkAll_cons, hwalk, List.singleton_append, List.mem_cons] at h
      rcases h with h | h
      · exact .inr (.inl h)
      · exact .inl (.inr h)
    · rw [hpush] at h
      simp only [walkAll, Part.walk, List.append_nil, List.mem_singleton] at h
      exact .inr (.inr ⟨_, h⟩)

/-- **A token adds at most one part**: a number, a symbol, or what a closing parenthesis closes. -/
theorem mem_parts_step {tok : Token} (h : q ∈ (b.step text tok).parts) :
    q ∈ b.parts ∨ (∃ e, q = .number e) ∨ (∃ s t e, tok = .symbol s t ∧ q = .ofSymbol s e) ∨
      (tok = .closing ∧ ∃ f outer, b.frames = f :: outer ∧
        close text f b.items b.position (b.position + 1) = q :: f.before) := by
  change q ∈ (b.take text tok).parts at h
  cases tok with
  | blank | unknown | repeatedPoint | uncalled => exact .inl h
  | opening => exact .inl (mem_parts_openBracket h)
  | comma => exact .inl (mem_parts_separate h)
  | closing =>
    rcases mem_parts_closeBracket h with h | h
    · exact .inl h
    · exact .inr (.inr (.inr ⟨rfl, h⟩))
  | number t =>
    rcases mem_parts_push (by simp [Part.walk]) h with h | h | h
    · exact .inl h
    · exact .inr (.inl ⟨_, h⟩)
    · exact .inr (.inl h)
  | symbol s t =>
    have hwalk : (Part.ofSymbol s ⟨b.position, t⟩).walk = [.ofSymbol s ⟨b.position, t⟩] := by
      cases s <;> simp [Part.ofSymbol, Part.walk, walkSlots]
    rcases mem_parts_push hwalk h with h | h | h
    · exact .inl h
    · exact .inr (.inr (.inl ⟨_, _, _, rfl, h⟩))
    · exact .inr (.inl h)

theorem mem_walkAll_closeAll {stop : Nat} {frames : List Frame} {items : List Part}
    (h : q ∈ walkAll (closeAll text stop items frames)) :
    (∃ f ∈ frames, q ∈ f.parts) ∨ q ∈ walkAll items ∨
      ∃ inner f outer, frames = inner ++ f :: outer ∧
        close text f (closeAll text stop items inner) stop stop = q :: f.before := by
  induction frames generalizing items with
  | nil => exact .inr (.inl h)
  | cons f outer ih =>
    rw [closeAll] at h
    rcases ih h with ⟨g, hg, hq⟩ | hq | ⟨inner, g, outer, rfl, hq⟩
    · exact .inl ⟨g, List.mem_cons_of_mem _ hg, hq⟩
    · rcases mem_walkAll_close hq with hq | hq | hq
      · exact .inl ⟨f, List.mem_cons_self, hq⟩
      · exact .inr (.inl hq)
      · exact .inr (.inr ⟨[], f, outer, rfl, hq⟩)
    · exact .inr (.inr ⟨f :: inner, g, outer, rfl, hq⟩)

/-- **The parts of the finished tree** have been built before, or they close a parenthesis that is
open at the end. -/
theorem mem_walkAll_finish (h : q ∈ walkAll (b.finish text)) :
    q ∈ b.parts ∨ ∃ inner f outer, b.frames = inner ++ f :: outer ∧
      close text f (closeAll text b.position b.items inner) b.position b.position =
        q :: f.before := by
  have hclose : q ∈ walkAll (closeAll text b.position b.items b.frames) := by
    obtain ⟨p, hp, hq⟩ := mem_walkAll.1 h
    exact mem_walkAll.2 ⟨p, List.mem_reverse.1 hp, hq⟩
  rcases mem_walkAll_closeAll hclose with h | h | h
  · exact .inl (mem_parts.2 (.inl h))
  · exact .inl (mem_parts.2 (.inr h))
  · exact .inr h

end Builder

end Formula

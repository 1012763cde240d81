import Formula.Proofs.Scan.Agreement

/-!
# Reading a formula comes to an end

The loop that reads a formula does not always move its cursor, and it starts itself again at each
opening parenthesis.  It ends all the same: an iteration that leaves the cursor where it is takes in
a word that was pending, and leaves none.

Here an iteration is everything from the look at a character up to the next look of the same
activation, with all the activations that have been started in between.
-/

namespace Formula

open StateTransition (Reaches eval)

namespace Scan

variable {r : Registry} {text : Text} {s t u : Scan}

theorem cursor_le_of_reaches (hs : Sound text s) (h : Reaches (step r text) s t) :
    s.cursor ≤ t.cursor := by
  have hboth : Sound text t ∧ s.cursor ≤ t.cursor := by
    induction h with
    | refl => exact ⟨hs, Nat.le_refl _⟩
    | tail _ hstep ih =>
      exact ⟨ih.1.step hstep, ih.2.trans (cursor_le_of_move (ih.1.move_of_step hstep))⟩
  exact hboth.2

theorem First.reaches {P : Scan → Prop} (h : First r text P s u) : Reaches (step r text) s u := by
  induction h with
  | here => exact .refl
  | later _ hstep _ ih => exact .head hstep ih

/-- What is true of all states, iterations and activations of a scan, which is read as a formula at
its end. -/
structure Progresses (r : Registry) (text : Text) : Prop where
  /-- The word of an activation, if it is not empty, is what is written between its start and the
  cursor, in lower case. -/
  words : ∀ s, Reaches (step r text) start s → ∀ a ∈ s.current :: s.callers, a.word.text ≠ [] →
    a.word.start ≤ s.cursor ∧ a.word.text = (text.slice a.word.start s.cursor).lower
  /-- The cursor never moves back. -/
  forward : ∀ s t, Reaches (step r text) start s → Reaches (step r text) s t → s.cursor ≤ t.cursor
  /-- Where a character is left, there is an iteration, and it comes to an end. -/
  iterates : ∀ s, Reaches (step r text) start s → s.closing? = none → s.cursor < text.length →
    ∃ u, Iteration r text s u
  /-- An iteration moves the cursor, or it leaves the cursor and empties a word. -/
  progress : ∀ s u, Reaches (step r text) start s → Iteration r text s u → s.cursor < u.cursor ∨
    u.cursor = s.cursor ∧ s.current.word.text ≠ [] ∧ u.current.word.text = []
  /-- Every activation returns. -/
  returns : ∀ s, Reaches (step r text) start s → ∃ u, Returns r text s u
  /-- It returns with an empty word. -/
  clear : ∀ s u, Reaches (step r text) start s → Returns r text s u → u.current.word.text = []
  /-- The activation for the whole formula returns at the end of the formula. -/
  finish : ∀ s u, Reaches (step r text) start s → s.callers = [] → Returns r text s u →
    u.closing? = some .finish ∧ u.cursor = text.length
  /-- The scan ends, and what has been built then is the formula as read. -/
  reads : ∃ s ∈ eval (step r text) start, s.result r text = parse r text

/-- The scan ends with the formula as read. -/
theorem exists_mem_eval (r : Registry) (text : Text) :
    ∃ s ∈ eval (step r text) start, s.result r text = parse r text := by
  obtain ⟨u, hu⟩ := exists_returns (r := r) (sound_start text)
  obtain ⟨hcallers, hclosing⟩ := hu.holds
  obtain ⟨hfinish, -⟩ := (hu.clear (sound_start text)).2 rfl
  have hend : u.step r text = none := step_eq_none_iff.2 ⟨hclosing, hcallers⟩
  exact ⟨u, StateTransition.mem_eval.2 ⟨hu.reaches, hend⟩,
    result_eq_parse hu.reaches hfinish hcallers⟩

end Scan

/-- **Every scan makes progress.**  Whatever the registry and the formula are, in each state a word
that is pending is the text before the cursor in lower case, the cursor never moves back, and an
iteration moves it or takes in a word.  So all activations return, with nothing pending, the one for
the whole formula at the end of the formula, and the formula has then been read. -/
theorem progresses_scan (r : Registry) (text : Text) : Scan.Progresses r text where
  words s h a ha hne := by
    have hs := Scan.sound_of_reaches h
    rcases List.mem_cons.1 ha with rfl | ha
    · rcases hs.word with hclear | hspells
      · exact absurd hclear.1 hne
      · exact ⟨hspells.start_le, hspells.text_eq⟩
    · exact absurd (hs.waiting a ha).1 hne
  forward _ _ h := Scan.cursor_le_of_reaches (Scan.sound_of_reaches h)
  iterates _ h := Scan.exists_iteration (Scan.sound_of_reaches h)
  progress _ _ h hiteration := (hiteration.progress (Scan.sound_of_reaches h)).2
  returns _ h := Scan.exists_returns (Scan.sound_of_reaches h)
  clear _ _ h hreturns := (hreturns.clear (Scan.sound_of_reaches h)).1
  finish _ _ h hcallers hreturns := (hreturns.clear (Scan.sound_of_reaches h)).2 hcallers
  reads := Scan.exists_mem_eval r text

end Formula

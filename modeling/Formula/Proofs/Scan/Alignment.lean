import Formula.Proofs.Part.Steps
import Formula.Proofs.Scan.Progress
import Formula.Proofs.Token.Enclosed

/-!
# Activations and parentheses

The loop asks the activation that runs whether a comma separates arguments, and the builder asks the
innermost parenthesis.  The two agree: for each open parenthesis there is an activation that reads
what the parenthesis begins, and besides these there is the one for the whole formula.

An activation starts when a parenthesis is opened, and the parenthesis is closed when the activation
has returned.  In between words are taken in, and these are no parentheses.
-/

namespace Formula

variable {r : Registry} {text : Text}

theorem isMark_eq_false_of_mem_pieces (following : Text) (budget : Nat) (word : Text) :
    ∀ tok ∈ pieces r following budget word, tok.isMark = false := by
  fun_induction pieces with
  | case1 => exact List.forall_mem_nil _
  | case2 budget c rest s hs left ih => exact List.forall_mem_cons.2 ⟨rfl, ih⟩
  | case3 budget c rest hs ih => exact List.forall_mem_cons.2 ⟨rfl, ih⟩

theorem isMark_eq_false_of_mem_decompose (following word : Text) :
    ∀ tok ∈ decompose r following word, tok.isMark = false :=
  isMark_eq_false_of_mem_pieces following _ word

/-- Tokens that are no marks leave the open parentheses as they are. -/
theorem frames_run {ts : List Token} (hts : ∀ tok ∈ ts, tok.isMark = false) (b : Builder) :
    (b.run text ts).frames = b.frames := by
  induction ts generalizing b with
  | nil => rfl
  | cons tok ts ih =>
    obtain ⟨htok, hts⟩ := List.forall_mem_cons.1 hts
    rw [Builder.run_cons, ih hts]
    cases tok with
    | opening | closing | comma => cases htok
    | blank | number | symbol | unknown | repeatedPoint | uncalled => rfl

namespace Scan

variable {s t : Scan}

theorem isMark_eq_false_of_mem_resolveAt (x : Symbol) (start : Nat) :
    ∀ tok ∈ resolveAt r text x start, tok.isMark = false := by
  rw [resolveAt]
  split
  · exact List.forall_mem_cons.2 ⟨rfl, isMark_eq_false_of_mem_decompose _ _⟩
  · exact List.forall_mem_singleton.2 rfl

theorem isMark_eq_false_of_mem_closedTokens (w : Word) :
    ∀ tok ∈ closedTokens r text w, tok.isMark = false := by
  rw [closedTokens]
  split
  · exact List.forall_mem_singleton.2 rfl
  · split
    · exact isMark_eq_false_of_mem_resolveAt _ _
    · exact isMark_eq_false_of_mem_decompose _ _

theorem isMark_eq_false_of_mem_brokenTokens (w : Word) (cursor : Nat) :
    ∀ tok ∈ brokenTokens r text w cursor, tok.isMark = false := by
  rw [brokenTokens]
  split
  · exact isMark_eq_false_of_mem_resolveAt _ _
  · split
    · exact List.forall_mem_singleton.2 rfl
    · exact isMark_eq_false_of_mem_decompose _ _

/-- What is read after a parenthesis. -/
def scopeOf : Bracket → Scope
  | .group => .group
  | .call .. => .argument

/-- There is an activation for each open parenthesis, which reads what the parenthesis begins, and
one for the whole formula. -/
inductive Aligned : Activation → List Activation → List Frame → Prop
  /-- No parenthesis is open. -/
  | whole {a : Activation} : Aligned a [] []
  /-- The innermost parenthesis. -/
  | inner {a caller : Activation} {outer : List Activation} {f : Frame} {frames : List Frame}
    (hscope : a.scope = scopeOf f.bracket) (h : Aligned caller outer frames) :
    Aligned a (caller :: outer) (f :: frames)

theorem Aligned.of_scope {a a' : Activation} {callers : List Activation} {frames : List Frame}
    (h : Aligned a callers frames) (hscope : a'.scope = a.scope) : Aligned a' callers frames := by
  cases h with
  | whole => exact .whole
  | inner hhead h => exact .inner (hscope.trans hhead) h

/-- The activations of a state belong to the parentheses that are open. -/
def IsAligned (s : Scan) : Prop := Aligned s.current s.callers s.built.frames

/-- No parenthesis is open around the activation for the whole formula. -/
theorem IsAligned.frames_eq_nil (h : s.IsAligned) (hcallers : s.callers = []) :
    s.built.frames = [] := by
  rw [IsAligned, hcallers] at h
  generalize s.built.frames = frames at h ⊢
  cases h
  rfl

/-- Where no argument is read, the innermost parenthesis begins a group. -/
theorem IsAligned.bracket_head (h : s.IsAligned) (hscope : s.current.scope ≠ .argument) :
    ∀ f ∈ s.built.frames.head?, f.bracket = .group := by
  rw [IsAligned] at h
  generalize s.built.frames = frames, s.callers = callers at h ⊢
  cases h with
  | whole => nofun
  | @inner _ caller outer f frames hbracket h =>
    rintro _ ⟨⟩
    cases hf : f.bracket with
    | group => rfl
    | call => exact absurd (hbracket.trans (congrArg scopeOf hf)) hscope

/-- Two states with the same activations and the same open parentheses, whatever has been read. -/
structure Beside (s t : Scan) : Prop where
  /-- The activations that run read the same. -/
  scope : t.current.scope = s.current.scope
  /-- The same activations wait. -/
  callers : t.callers = s.callers
  /-- The same parentheses are open. -/
  frames : t.built.frames = s.built.frames

theorem Beside.isAligned (h : s.Beside t) (ha : s.IsAligned) : t.IsAligned := by
  rw [IsAligned, h.callers, h.frames]
  exact ha.of_scope h.scope

theorem beside_flush (r : Registry) (text : Text) (s : Scan) : s.Beside (s.flush r text) := by
  rw [flush]
  split
  · exact ⟨rfl, rfl, rfl⟩
  · exact ⟨rfl, rfl, frames_run (isMark_eq_false_of_mem_closedTokens _) _⟩

theorem beside_backOff (r : Registry) (text : Text) (s : Scan) : s.Beside (s.backOff r text) := by
  rw [backOff]
  split
  · refine ⟨rfl, rfl, frames_run ?_ _⟩
    simp [Token.isMark]
  · exact ⟨rfl, rfl, frames_run (isMark_eq_false_of_mem_brokenTokens _ _) _⟩

theorem beside_extendNumber (c : Char) (s : Scan) : s.Beside (s.extendNumber r text c) := by
  have hflush := beside_flush r text s
  rw [extendNumber]
  split
  · exact ⟨rfl, rfl, rfl⟩
  · split
    · split
      · exact ⟨hflush.scope, hflush.callers, hflush.frames⟩
      · exact ⟨rfl, rfl, rfl⟩
    · exact hflush

theorem beside_extendWord (c : Char) (s : Scan) : s.Beside (s.extendWord r text c) := by
  rw [extendWord]
  split
  · split
    · exact ⟨rfl, rfl, frames_run (isMark_eq_false_of_mem_resolveAt _ _) _⟩
    · exact ⟨rfl, rfl, rfl⟩
  · exact ⟨rfl, rfl, rfl⟩
  · split
    · exact ⟨rfl, rfl, rfl⟩
    · have hback := beside_backOff r text (s.setWord (s.current.word.push c s.cursor))
      exact ⟨hback.scope, hback.callers, hback.frames⟩

/-- A parenthesis that is opened begins arguments if a function name waits for it. -/
theorem exists_frames_openBracket (b : Builder) :
    ∃ f, b.openBracket.frames = f :: b.frames ∧
      (if opensCall b.items then Scope.argument else .group) = scopeOf f.bracket := by
  rw [Builder.openBracket.eq_def]
  split
  · rename_i f name before hitems
    exact ⟨_, rfl, by rw [hitems]; rfl⟩
  · rename_i hitems
    refine ⟨_, rfl, if_neg ?_⟩
    rw [opensCall.eq_def]
    split
    · rename_i f name before hcall
      exact absurd hcall (hitems f name before)
    · exact Bool.false_ne_true

theorem isAligned_enter (ha : s.IsAligned) : s.enter.IsAligned := by
  obtain ⟨f, hframes, hscope⟩ := exists_frames_openBracket { s.built with position := s.cursor }
  rw [IsAligned, enter, hframes]
  exact .inner hscope ha

theorem isAligned_iterate (c : Char) (ha : s.IsAligned) : (s.iterate r text c).IsAligned := by
  have hflush := (beside_flush r text s).isAligned ha
  rw [iterate]
  split
  · split
    · exact hflush
    · exact hflush
  · split
    · exact isAligned_enter hflush
    · split
      · split
        · exact hflush
        · exact hflush
      · split
        · exact hflush
        · split
          · exact (beside_extendNumber c s).isAligned ha
          · exact (beside_extendWord c s).isAligned ha

theorem Sound.isAligned_resume (hs : Sound text s) {closing : Closing} {caller : Activation}
    {outer : List Activation} (hclosing : s.closing? = some closing)
    (hcallers : s.callers = caller :: outer) (ha : s.IsAligned) :
    (s.resume text closing caller outer).IsAligned := by
  have hfits := hs.closing closing hclosing
  rw [IsAligned, hcallers] at ha
  generalize hframes : s.built.frames = frames at ha
  cases ha with
  | @inner _ _ _ f frames hscope ha =>
    cases closing with
    | parenthesis => simpa only [IsAligned, resume, Builder.closeBracket, hframes] using ha
    | comma =>
      obtain ⟨bracket, opened, before⟩ := f
      cases bracket with
      | group => rw [hfits.2] at hscope; cases hscope
      | call g name slots slotStart =>
        simp only [IsAligned, resume, Builder.separate, hframes]
        exact .inner rfl ha
    | finish => simpa only [IsAligned, resume, closeUnfinished, Builder.report, hframes] using ha

/-- **The activations of the next state belong to its parentheses.** -/
theorem Sound.isAligned_step (hs : Sound text s) (h : s.step r text = some t) (ha : s.IsAligned) :
    t.IsAligned := by
  rw [Scan.step] at h
  split at h
  · split at h
    · obtain rfl := Option.some.inj h
      exact isAligned_iterate _ ha
    · obtain rfl := Option.some.inj h
      exact (beside_flush r text s).isAligned ha
  · rename_i hclosing hcallers
    obtain rfl := Option.some.inj h
    exact hs.isAligned_resume hclosing hcallers ha
  · cases h

end Scan

end Formula

import Formula.Proofs.Scan.Basic

/-!
# The scan makes progress

What a step can do to the cursor, to the words and to the activations is said once, without the tree
that is built (`Move`), and everything else follows from that.

A word that is pending is what is written between its start and the cursor, activations that wait
have none, and the depth of an activation is the number of those that wait for it (`Sound`).  With
this each step makes the remaining work smaller (`work`): a character that is read counts more than
all that can follow from it, a word that is given up at the cursor leaves one thing less to do, and
so does an activation that returns.
-/

namespace Formula

namespace Scan

variable {r : Registry} {text : Text} {s t : Scan}

/-- What a step can do to the cursor, to the words and to the activations. -/
inductive Move (text : Text) (s : Scan) : Scan → Prop
  /-- The character under the cursor is added to the word. -/
  | grow {c : Char} {w : Word} {built : Builder} (hloop : s.closing? = none)
    (hc : text.lower[s.cursor]? = some c) (htext : w.text = s.current.word.text ++ [c])
    (hstart : w.start = if s.current.word.text = [] then s.cursor else s.current.word.start) :
    Move text s { s.setWord w with cursor := s.cursor + 1, built := built }
  /-- The character is taken in, after the word. -/
  | pass {w : Word} {built : Builder} (hloop : s.closing? = none) (hlt : s.cursor < text.length)
    (hw : w.IsClear) : Move text s { s.setWord w with cursor := s.cursor + 1, built := built }
  /-- The word is taken in, and the character will be looked at again. -/
  | reread {w : Word} {built : Builder} (hloop : s.closing? = none) (hlt : s.cursor < text.length)
    (hne : s.current.word.text ≠ []) (hw : w.IsClear) :
    Move text s { s.setWord w with built := built }
  /-- An activation starts after a parenthesis. -/
  | enter {w : Word} {scope : Scope} {built : Builder} (hloop : s.closing? = none)
    (hlt : s.cursor < text.length) (hw : w.IsClear) :
    Move text s ⟨s.cursor + 1, ⟨scope, s.current.depth + 1, .empty⟩, none,
      { s.current with word := w } :: s.callers, built⟩
  /-- An activation returns after a closing parenthesis or a comma. -/
  | leave {w : Word} {closing : Closing} {built : Builder} (hloop : s.closing? = none)
    (hlt : s.cursor < text.length) (hw : w.IsClear)
    (hclosing : closing = .parenthesis ∧ 0 < s.current.depth ∨
      closing = .comma ∧ s.current.scope = .argument) :
    Move text s { (s.setWord w).leave closing with cursor := s.cursor + 1, built := built }
  /-- An activation returns at the end of the formula. -/
  | finish {w : Word} {built : Builder} (hloop : s.closing? = none)
    (hend : text.length ≤ s.cursor) (hw : w.IsClear) :
    Move text s { (s.setWord w).leave .finish with built := built }
  /-- The activation that started the one that has returned goes on. -/
  | resume {closing : Closing} {caller : Activation} {outer : List Activation} {built : Builder}
    (hclosing : s.closing? = some closing) (hne : closing ≠ .comma)
    (hcallers : s.callers = caller :: outer) : Move text s ⟨s.cursor, caller, none, outer, built⟩
  /-- The next argument of a call is read. -/
  | next {caller : Activation} {outer : List Activation} {built : Builder}
    (hclosing : s.closing? = some .comma) (hcallers : s.callers = caller :: outer) :
    Move text s ⟨s.cursor, ⟨.argument, s.current.depth, .empty⟩, none, caller :: outer, built⟩

/-- Taking the word in leaves none, and changes nothing else but what has been built. -/
theorem exists_flush (r : Registry) (text : Text)
    (hs : s.current.word.text = [] → s.current.word.inNumber = false) :
    ∃ w built, w.IsClear ∧ s.flush r text = { s.setWord w with built := built } := by
  by_cases hword : s.current.word.text = []
  · exact ⟨s.current.word, s.built, ⟨hword, hs hword⟩, if_pos hword⟩
  · exact ⟨_, _, Word.isClear_clear _, if_neg hword⟩

theorem move_extendNumber {c : Char} (hc : text.lower[s.cursor]? = some c)
    (hloop : s.closing? = none) (hlt : s.cursor < text.length)
    (hs : s.current.word.text = [] → s.current.word.inNumber = false)
    (hnumber : s.current.word.inNumber = true) : Move text s (s.extendNumber r text c) := by
  have hne : s.current.word.text ≠ [] := fun hnil => by simp [hs hnil] at hnumber
  obtain ⟨w, built, hw, hflush⟩ := exists_flush r text hs
  rw [extendNumber, hflush]
  split
  · exact .grow hloop hc rfl rfl
  · split
    · split
      · exact .pass hloop hlt hw
      · exact .grow hloop hc rfl rfl
    · exact .reread hloop hlt hne hw

theorem move_extendWord {c : Char} (hc : text.lower[s.cursor]? = some c)
    (hloop : s.closing? = none) (hlt : s.cursor < text.length) :
    Move text s (s.extendWord r text c) := by
  rw [extendWord]
  split
  · split
    · exact .pass hloop hlt (Word.isClear_clear _)
    · exact .grow hloop hc rfl rfl
  · exact .grow hloop hc rfl rfl
  · split
    · exact .grow hloop hc rfl rfl
    · rw [backOff]
      split
      · exact .pass hloop hlt (Word.isClear_clear _)
      · rename_i hne
        refine .reread hloop hlt ?_ (Word.isClear_clear _)
        simpa [setWord, Word.push] using hne

theorem move_iterate {c : Char} (hc : text.lower[s.cursor]? = some c) (hloop : s.closing? = none)
    (hs : s.current.word.text = [] → s.current.word.inNumber = false) :
    Move text s (s.iterate r text c) := by
  have hlt : s.cursor < text.length := by
    simpa using (List.getElem?_eq_some_iff.1 hc).1
  obtain ⟨w, built, hw, hflush⟩ := exists_flush r text hs
  rw [iterate, hflush]
  split
  · split
    · rename_i hdepth
      exact .leave hloop hlt hw (.inl ⟨rfl, hdepth⟩)
    · exact .pass hloop hlt hw
  · split
    · exact .enter hloop hlt hw
    · split
      · split
        · rename_i hscope
          exact .leave hloop hlt hw (.inr ⟨rfl, hscope⟩)
        · exact .pass hloop hlt hw
      · split
        · exact .pass hloop hlt hw
        · split
          · rename_i hnumber
            exact move_extendNumber hc hloop hlt hs hnumber
          · exact move_extendWord hc hloop hlt

/-- **A step is a move.** -/
theorem move_of_step (h : s.step r text = some t)
    (hs : s.current.word.text = [] → s.current.word.inNumber = false) : Move text s t := by
  rw [step] at h
  split at h
  · rename_i hloop
    split at h
    · rename_i c hc
      obtain rfl := Option.some.inj h
      exact move_iterate hc hloop hs
    · rename_i hend
      obtain rfl := Option.some.inj h
      obtain ⟨w, built, hw, hflush⟩ := exists_flush r text hs
      rw [hflush]
      exact .finish hloop (by simpa using hend) hw
  · rename_i closing caller outer hclosing hcallers
    obtain rfl := Option.some.inj h
    cases closing with
    | parenthesis => exact .resume hclosing nofun hcallers
    | comma => exact .next hclosing hcallers
    | finish => exact .resume hclosing nofun hcallers
  · cases h

/-- The scan ends when the activation for the whole formula has returned. -/
theorem step_eq_none_iff : s.step r text = none ↔ s.closing? ≠ none ∧ s.callers = [] := by
  rw [step]
  split
  · rename_i hloop
    split <;> simp [hloop]
  · rename_i hcallers
    simp [hcallers]
  · rename_i hclosing hcallers
    simp [hclosing, hcallers]

/-- A word is pending, and it is in lower case what is written from its start up to the cursor. -/
structure Word.Spells (text : Text) (cursor : Nat) (w : Word) : Prop where
  /-- There is such a word. -/
  ne_nil : w.text ≠ []
  /-- It starts before the cursor. -/
  start_le : w.start ≤ cursor
  /-- Its characters are those of the formula. -/
  text_eq : w.text = (text.slice w.start cursor).lower

/-- A word is clear or what is written before the cursor. -/
def Word.Holds (text : Text) (cursor : Nat) (w : Word) : Prop :=
  w.IsClear ∨ w.Spells text cursor

theorem Word.Holds.inNumber_eq_false {cursor : Nat} {w : Word} (h : w.Holds text cursor)
    (hnil : w.text = []) : w.inNumber = false := by
  rcases h with h | ⟨hne, -, -⟩
  · exact h.2
  · exact absurd hnil hne

/-- The depth of an activation is the number of those that wait for it, and the outermost one reads
no argument. -/
inductive Nested : Activation → List Activation → Prop
  /-- The activation for the whole formula. -/
  | whole {a : Activation} (hscope : a.scope = .group) (hdepth : a.depth = 0) : Nested a []
  /-- An activation after a parenthesis. -/
  | inner {a caller : Activation} {outer : List Activation} (hdepth : a.depth = caller.depth + 1)
    (h : Nested caller outer) : Nested a (caller :: outer)

theorem Nested.withWord {a : Activation} {callers : List Activation} (h : Nested a callers)
    (w : Word) : Nested { a with word := w } callers := by
  cases h with
  | whole hscope hdepth => exact .whole hscope hdepth
  | inner hdepth h => exact .inner hdepth h

theorem Nested.callers_ne_nil {a : Activation} {callers : List Activation} (h : Nested a callers)
    (ha : 0 < a.depth ∨ a.scope = .argument) : callers ≠ [] := by
  rintro rfl
  cases h with
  | whole hscope hdepth =>
    rcases ha with ha | ha
    · omega
    · rw [hscope] at ha
      cases ha

theorem Nested.callers_eq_nil {a : Activation} {callers : List Activation} (h : Nested a callers)
    (hdepth : a.depth = 0) : callers = [] := by
  cases h with
  | whole => rfl
  | inner hinner =>
    rw [hdepth] at hinner
    cases hinner

/-- What is known of an activation that has returned. -/
def Closing.Fits (text : Text) (s : Scan) : Closing → Prop
  | .parenthesis => 0 < s.cursor ∧ 0 < s.current.depth
  | .comma => 0 < s.cursor ∧ s.current.scope = .argument
  | .finish => s.cursor = text.length

/-- What is true of every state of a scan. -/
structure Sound (text : Text) (s : Scan) : Prop where
  /-- The cursor stays inside the formula. -/
  cursor_le : s.cursor ≤ text.length
  /-- The pending word is what is written before the cursor. -/
  word : s.current.word.Holds text s.cursor
  /-- Nothing is pending while an activation waits. -/
  waiting : ∀ a ∈ s.callers, a.word.IsClear
  /-- Activations are inside one another. -/
  nested : Nested s.current s.callers
  /-- Nothing is pending when an activation has returned. -/
  returned : s.closing? ≠ none → s.current.word.IsClear
  /-- The way in which it has returned fits. -/
  closing : ∀ closing, s.closing? = some closing → closing.Fits text s

theorem sound_start (text : Text) : Sound text start where
  cursor_le := Nat.zero_le _
  word := .inl Word.isClear_empty
  waiting := nofun
  nested := .whole rfl rfl
  returned h := absurd rfl h
  closing := nofun

theorem Word.Holds.grow {cursor : Nat} {w w' : Word} {c : Char} (h : w.Holds text cursor)
    (hc : text.lower[cursor]? = some c) (htext : w'.text = w.text ++ [c])
    (hstart : w'.start = if w.text = [] then cursor else w.start) :
    w'.Spells text (cursor + 1) := by
  have hne' : w'.text ≠ [] := by simp [htext]
  rcases h with hclear | ⟨hne, hle, hword⟩
  · rw [if_pos hclear.1] at hstart
    refine ⟨hne', by omega, ?_⟩
    rw [hstart, htext, Text.lower_slice, Text.slice_succ (Nat.le_refl _) hc, hclear.1]
    simp [Text.slice]
  · rw [if_neg hne] at hstart
    refine ⟨hne', by omega, ?_⟩
    rw [hstart, htext, Text.lower_slice, Text.slice_succ hle hc, ← Text.lower_slice, ← hword]

/-- **Moves keep the invariant.** -/
theorem Sound.move (hs : Sound text s) (h : Move text s t) : Sound text t := by
  cases h with
  | @grow c w built hloop hc htext hstart =>
    have hlt : s.cursor < text.length := by simpa using (List.getElem?_eq_some_iff.1 hc).1
    exact ⟨hlt, .inr (hs.word.grow hc htext hstart), hs.waiting, hs.nested.withWord w,
      absurd hloop, by simp [setWord, hloop]⟩
  | @pass w built hloop hlt hw =>
    exact ⟨hlt, .inl hw, hs.waiting, hs.nested.withWord w, absurd hloop, by simp [setWord, hloop]⟩
  | @reread w built hloop hlt hne hw =>
    exact ⟨hs.cursor_le, .inl hw, hs.waiting, hs.nested.withWord w, absurd hloop,
      by simp [setWord, hloop]⟩
  | @enter w scope built hloop hlt hw =>
    exact ⟨hlt, .inl Word.isClear_empty, List.forall_mem_cons.2 ⟨hw, hs.waiting⟩,
      .inner rfl (hs.nested.withWord w), absurd rfl, nofun⟩
  | @leave w closing built hloop hlt hw hclosing =>
    refine ⟨hlt, .inl hw, hs.waiting, hs.nested.withWord w, fun _ => hw, ?_⟩
    rintro _ ⟨⟩
    rcases hclosing with ⟨rfl, hdepth⟩ | ⟨rfl, hscope⟩
    · exact ⟨Nat.succ_pos _, hdepth⟩
    · exact ⟨Nat.succ_pos _, hscope⟩
  | @finish w built hloop hend hw =>
    refine ⟨hs.cursor_le, .inl hw, hs.waiting, hs.nested.withWord w, fun _ => hw, ?_⟩
    rintro _ ⟨⟩
    exact Nat.le_antisymm hs.cursor_le hend
  | @resume closing caller outer built hclosing hne hcallers =>
    have hwaiting := hs.waiting
    have hnested := hs.nested
    rw [hcallers] at hwaiting hnested
    cases hnested with
    | inner hdepth hnested =>
      exact ⟨hs.cursor_le, .inl (hwaiting caller List.mem_cons_self),
        fun a ha => hwaiting a (List.mem_cons_of_mem _ ha), hnested, absurd rfl, nofun⟩
  | @next caller outer built hclosing hcallers =>
    have hwaiting := hs.waiting
    have hnested := hs.nested
    rw [hcallers] at hwaiting hnested
    cases hnested with
    | inner hdepth hnested =>
      exact ⟨hs.cursor_le, .inl Word.isClear_empty, hwaiting, .inner hdepth hnested, absurd rfl,
        nofun⟩

theorem Sound.move_of_step (hs : Sound text s) (h : s.step r text = some t) : Move text s t :=
  Scan.move_of_step h hs.word.inNumber_eq_false

theorem Sound.step (hs : Sound text s) (h : s.step r text = some t) : Sound text t :=
  hs.move (hs.move_of_step h)

/-- **The invariant holds in every state that is reached.** -/
theorem sound_of_reaches (h : StateTransition.Reaches (step r text) start s) : Sound text s := by
  induction h with
  | refl => exact sound_start text
  | tail _ hstep ih => exact ih.step hstep

/-- What is left to do about an activation: it has to return, or to be followed by another one. -/
def closingWork : Option Closing → Nat
  | none => 1
  | some .comma => 2
  | some _ => 0

/-- What is left to do.  Reading a character may start an activation, which has to return, and leave
a word, which has to be taken in. -/
def work (text : Text) (s : Scan) : Nat :=
  4 * (text.length - s.cursor) + 2 * s.callers.length + (if s.current.word.text = [] then 0 else 1) +
    closingWork s.closing?

/-- **Moves decrease the measure.** -/
theorem Sound.work_lt_of_move (hs : Sound text s) (h : Move text s t) : t.work text < s.work text := by
  cases h with
  | @grow c w built hloop hc htext hstart =>
    have hlt : s.cursor < text.length := by simpa using (List.getElem?_eq_some_iff.1 hc).1
    simp only [work, setWord, hloop, htext]
    split <;> split <;> omega
  | pass hloop hlt hw =>
    simp only [work, setWord, hloop, hw.1, if_true]
    omega
  | reread hloop hlt hne hw =>
    simp only [work, setWord, hloop, hw.1, if_true, if_neg hne]
    omega
  | enter hloop hlt hw =>
    simp only [work, hloop, List.length_cons, Word.empty, if_true]
    omega
  | @leave w closing built hloop hlt hw hclosing =>
    have hle : closingWork (some closing) ≤ 2 := by
      cases closing <;> decide
    simp only [work, setWord, leave, hloop, hw.1, if_true]
    omega
  | finish hloop hend hw =>
    simp only [work, setWord, leave, hloop, hw.1, if_true, closingWork]
    omega
  | @resume closing caller outer built hclosing hne hcallers =>
    have hclear : caller.word.text = [] :=
      (hs.waiting caller (by rw [hcallers]; exact List.mem_cons_self)).1
    simp only [work, hcallers, List.length_cons, hclear, if_true, closingWork]
    omega
  | next hclosing hcallers =>
    simp only [work, hclosing, hcallers, Word.empty, if_true, closingWork]
    omega

/-- The cursor never moves back. -/
theorem cursor_le_of_move (h : Move text s t) : s.cursor ≤ t.cursor := by
  cases h <;> simp [setWord, leave]

/-! ## The first state with a property -/

/-- A run up to the first state with a property. -/
inductive First (r : Registry) (text : Text) (P : Scan → Prop) : Scan → Scan → Prop
  /-- The run ends. -/
  | here {s : Scan} (h : P s) : First r text P s s
  /-- The run goes on. -/
  | later {s t u : Scan} (hs : ¬ P s) (hstep : s.step r text = some t) (h : First r text P t u) :
    First r text P s u

variable {P I : Scan → Prop} {u : Scan}

theorem First.holds (h : First r text P s u) : P u := by
  induction h with
  | here h => exact h
  | later _ _ _ ih => exact ih

/-- What the steps before the end of a run keep holds there. -/
theorem First.keeps (h : First r text P s u) (hs : Sound text s) (hI : I s)
    (hkeep : ∀ s t, Sound text s → ¬ P s → I s → Move text s t → I t) : Sound text u ∧ I u := by
  induction h with
  | here => exact ⟨hs, hI⟩
  | later hP hstep _ ih =>
    exact ih (hs.step hstep) (hkeep _ _ hs hP hI (hs.move_of_step hstep))

/-- **A state with a property is reached** if the states in which the scan ends have it. -/
theorem exists_first (hs : Sound text s) (hI : I s)
    (hkeep : ∀ s t, Sound text s → ¬ P s → I s → Move text s t → I t)
    (hend : ∀ s, I s → s.closing? ≠ none → s.callers = [] → P s) : ∃ u, First r text P s u := by
  induction hn : s.work text using Nat.strong_induction_on generalizing s with
  | _ n ih =>
    by_cases hP : P s
    · exact ⟨s, .here hP⟩
    · cases hstep : s.step r text with
      | none =>
        obtain ⟨hclosing, hcallers⟩ := step_eq_none_iff.1 hstep
        exact absurd (hend s hI hclosing hcallers) hP
      | some t =>
        have hmove := hs.move_of_step hstep
        have hlt : t.work text < n := hn ▸ hs.work_lt_of_move hmove
        obtain ⟨u, hu⟩ := ih _ hlt (hs.move hmove) (hkeep s t hs hP hI hmove) rfl
        exact ⟨u, .later hP hstep hu⟩

/-! ## Iterations and activations -/

/-- An iteration of the activation that runs, which looks at the character under the cursor.  It
ends when no activation is left that it has started. -/
def Iteration (r : Registry) (text : Text) (s u : Scan) : Prop :=
  s.closing? = none ∧ s.cursor < text.length ∧
    ∃ t, s.step r text = some t ∧ First r text (·.callers = s.callers) t u

/-- The activation that runs has returned in `u`, and not before. -/
def Returns (r : Registry) (text : Text) (s u : Scan) : Prop :=
  First r text (fun t => t.callers = s.callers ∧ t.closing? ≠ none) s u

/-- The activations that wait at some time go on waiting, until the one that they wait for has
returned. -/
theorem suffix_of_move {callers : List Activation} (h : Move text s t)
    (hsuffix : callers <:+ s.callers) (hne : s.closing? ≠ none → s.callers ≠ callers) :
    callers <:+ t.callers := by
  cases h with
  | grow | pass | reread | leave | finish => exact hsuffix
  | enter => exact hsuffix.trans (List.suffix_cons _ _)
  | next hclosing hcallers => rwa [← hcallers]
  | resume hclosing _ hcallers =>
    rw [hcallers, List.suffix_cons_iff] at hsuffix
    refine hsuffix.resolve_left fun heq => ?_
    exact hne (by simp [hclosing]) (hcallers.trans heq.symm)

theorem exists_iteration (hs : Sound text s) (hloop : s.closing? = none)
    (hlt : s.cursor < text.length) : ∃ u, Iteration r text s u := by
  obtain ⟨t, hstep⟩ : ∃ t, s.step r text = some t := by
    refine Option.ne_none_iff_exists'.1 fun hnone => ?_
    exact (step_eq_none_iff.1 hnone).1 hloop
  have hmove := hs.move_of_step hstep
  obtain ⟨u, hu⟩ := exists_first (r := r) (P := (·.callers = s.callers))
    (I := (s.callers <:+ ·.callers)) (hs.move hmove)
    (suffix_of_move hmove List.suffix_rfl (absurd hloop))
    (fun _ _ _ hP hsuffix h => suffix_of_move h hsuffix fun _ => hP)
    (fun v hsuffix _ hnil => (hnil.trans (List.suffix_nil.1 (hnil ▸ hsuffix)).symm))
  exact ⟨u, hloop, hlt, t, hstep, hu⟩

theorem exists_returns (hs : Sound text s) : ∃ u, Returns r text s u := by
  refine exists_first (I := (s.callers <:+ ·.callers)) hs List.suffix_rfl ?_ ?_
  · exact fun _ _ _ hP hsuffix h => suffix_of_move h hsuffix fun hclosing heq => hP ⟨heq, hclosing⟩
  · intro v hsuffix hclosing hnil
    exact ⟨hnil.trans (List.suffix_nil.1 (hnil ▸ hsuffix)).symm, hclosing⟩

/-- **An iteration moves the cursor, or it takes in a word that was pending.** -/
theorem Iteration.progress (h : Iteration r text s u) (hs : Sound text s) :
    u.callers = s.callers ∧ (s.cursor < u.cursor ∨
      u.cursor = s.cursor ∧ s.current.word.text ≠ [] ∧ u.current.word.text = []) := by
  obtain ⟨hloop, hlt, t, hstep, hfirst⟩ := h
  refine ⟨hfirst.holds, ?_⟩
  have hmove := hs.move_of_step hstep
  -- the activations that are started do not move the cursor back
  have hle : t.cursor ≤ u.cursor :=
    (hfirst.keeps (I := (t.cursor ≤ ·.cursor)) (hs.move hmove) (Nat.le_refl _)
      fun _ _ _ _ hI h => hI.trans (cursor_le_of_move h)).2
  cases hmove with
  | grow | pass | enter | leave => exact .inl (Nat.lt_of_succ_le hle)
  | reread _ _ hne hw =>
    cases hfirst with
    | here => exact .inr ⟨rfl, hne, hw.1⟩
    | later hs => exact absurd rfl hs
  | finish _ hend => omega
  | resume hclosing => simp [hloop] at hclosing
  | next hclosing => simp [hloop] at hclosing

/-- **An activation returns without a word**, and the one for the whole formula at its end. -/
theorem Returns.clear (h : Returns r text s u) (hs : Sound text s) :
    u.current.word.text = [] ∧
      (s.callers = [] → u.closing? = some .finish ∧ u.cursor = text.length) := by
  obtain ⟨hcallers, hclosing⟩ := h.holds
  have hsound : Sound text u :=
    (h.keeps (I := fun _ => True) hs trivial fun _ _ _ _ _ _ => trivial).1
  refine ⟨(hsound.returned hclosing).1, fun hnil => ?_⟩
  obtain ⟨closing, hclosing⟩ := Option.ne_none_iff_exists'.1 hclosing
  have hfits := hsound.closing closing hclosing
  cases closing with
  | finish => exact ⟨hclosing, hfits⟩
  | parenthesis => exact absurd (hcallers.trans hnil) (hsound.nested.callers_ne_nil (.inl hfits.2))
  | comma => exact absurd (hcallers.trans hnil) (hsound.nested.callers_ne_nil (.inr hfits.2))

end Scan

end Formula

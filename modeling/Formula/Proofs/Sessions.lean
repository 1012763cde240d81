import Formula.Proofs.Lines
import Formula.Proofs.Responses

/-!
# Whole sessions

The variables of a session are what its lines have made of them, one after the other.  A line sets a
variable, takes one away or takes all away, and every other line leaves them as they are, also one
that should set a variable but has no name or no value.

What is stored can be written down: a name has no outer blanks and no equals sign, so the rows of
the listing are assignments, and setting the variables of all rows makes the same variables again,
if the values are written such that they can be read back.
-/

namespace Formula

/-- A change of the variables. -/
inductive Change
  /-- A variable has a new value. -/
  | assign (name : Text) (value : Float)
  /-- A variable has no value any more. -/
  | drop (name : Text)
  /-- No variable has a value any more. -/
  | dropAll

/-- The values of the variables after a change. -/
def Change.apply (values : Text → Option Float) : Change → Text → Option Float
  | assign name value => Function.update values name (some value)
  | drop name => Function.update values name none
  | dropAll => fun _ => none

/-- What a line does to the variables, by its text. -/
inductive Makes (t : Text) : Change → Prop
  /-- A variable is set, if there is a name before the first equals sign and a number after it. -/
  | assign {before after : Text} {value : Float} :
    Commands t ".set".toList (before ++ '=' :: after) → '=' ∉ before → before.trim ≠ [] →
      Numeral.read after.trim = .ok value → Makes t (.assign before.trim value)
  /-- A variable is taken away. -/
  | drop {name : Text} : Commands t ".unset".toList name → Makes t (.drop name)
  /-- All variables are taken away. -/
  | dropAll {argument : Text} : Commands t ".clear".toList argument → Makes t .dropAll

/-- What a line does to the variables. -/
def Line.change? : Line → Option Change
  | .clear => some .dropAll
  | .set assignment _ =>
    match Assignment.ofText assignment with
    | .ok a => some (.assign a.name a.value)
    | .error _ => none
  | .unset name => some (.drop name)
  | .blank | .help | .list | .tree _ | .unknown _ | .formula _ => none

section Changes

variable {t : Text} {c : Change}

theorem Line.makes_of_change? {l : Line} (h : Line.Reads t l) (hc : l.change? = some c) :
    Makes t c := by
  cases h with
  | clear h =>
    cases hc
    exact .dropAll h
  | unset h =>
    cases hc
    exact .drop h
  | @set assignment h =>
    rw [Line.change?] at hc
    split at hc
    · rename_i a ha
      cases hc
      obtain ⟨before, after, rfl, hbefore, hname, hne, hvalue⟩ := Assignment.ofText_eq_ok_iff.1 ha
      rw [← hname] at hne ⊢
      exact .assign h hbefore hne hvalue
    · cases hc
  | blank | help | list | tree | unknown | formula => cases hc

/-- **The changes by the texts of the lines.** -/
theorem change?_eq_some_iff : (Line.ofText t).change? = some c ↔ Makes t c := by
  refine ⟨Line.makes_of_change? (Line.reads_ofText t), fun h => ?_⟩
  cases h with
  | dropAll h => rw [Line.ofText_eq_of_reads (.clear h), Line.change?]
  | drop h => rw [Line.ofText_eq_of_reads (.unset h), Line.change?]
  | @assign before after value h hbefore hne hvalue =>
    have ha : Assignment.ofText (before ++ '=' :: after) = .ok ⟨before.trim, value⟩ :=
      Assignment.ofText_eq_ok_iff.2 ⟨before, after, rfl, hbefore, rfl, hne, hvalue⟩
    rw [Line.ofText_eq_of_reads (.set h), Line.change?, ha]

end Changes

/-- A text that a variable may be called: it is not empty, has no outer blanks and no equals
sign. -/
structure IsName (name : Text) : Prop where
  /-- There is a name. -/
  ne_nil : name ≠ []
  /-- There are no blanks around it. -/
  trim_eq : name.trim = name
  /-- There is no equals sign in it. -/
  not_mem : '=' ∉ name

/-- What is set has a name. -/
theorem Makes.isName {t name : Text} {value : Float} (h : Makes t (.assign name value)) :
    IsName name := by
  cases h with
  | assign _ hbefore hne _ =>
    exact ⟨hne, Text.trim_trim _, fun hmem => hbefore (Text.mem_of_mem_trim hmem)⟩

theorem Bindings.get?_insert_eq_update (b : Bindings) (name : Text) (value : Float) :
    (b.insert name value).get? = Function.update b.get? name (some value) := by
  funext other
  rw [Bindings.get?_insert, Function.update_apply]
  exact if_congr eq_comm rfl rfl

theorem Bindings.get?_erase_eq_update (b : Bindings) (name : Text) :
    (b.erase name).get? = Function.update b.get? name none := by
  funext other
  rw [Bindings.get?_erase, Function.update_apply]
  exact if_congr eq_comm rfl rfl

namespace Session

theorem get?_step {l : Line} {c : Change} (h : l.change? = some c) (s : Session) :
    (s.step l).1.bindings.get? = c.apply s.bindings.get? := by
  cases l with
  | clear =>
    cases h
    rfl
  | unset name =>
    cases h
    exact s.bindings.get?_erase_eq_update name
  | set assignment line =>
    rw [Line.change?] at h
    split at h
    · rename_i a ha
      cases h
      rw [step, ha]
      exact s.bindings.get?_insert_eq_update a.name a.value
    · cases h
  | blank | help | list | tree | unknown | formula => cases h

theorem step_of_change?_eq_none {l : Line} (h : l.change? = none) (s : Session) :
    (s.step l).1 = s := by
  cases l with
  | clear | unset => cases h
  | set assignment line =>
    rw [Line.change?] at h
    split at h
    · cases h
    · rename_i e he
      rw [step, he]
  | blank | help | list | tree | unknown | formula => rfl

/-- **What a line does**: it changes the variables, or leaves the session as it is. -/
theorem handle_cases (s : Session) (t : Text) :
    (∃ c, Makes t c ∧ (s.handle t).1.bindings.get? = c.apply s.bindings.get?) ∨
      (∀ c, ¬ Makes t c) ∧ (s.handle t).1 = s := by
  cases hc : (Line.ofText t).change? with
  | some c => exact .inl ⟨c, change?_eq_some_iff.1 hc, get?_step hc s⟩
  | none =>
    refine .inr ⟨fun c hmakes => ?_, step_of_change?_eq_none hc s⟩
    rw [change?_eq_some_iff.2 hmakes] at hc
    cases hc

/-- What a line makes of the variables. -/
theorem get?_handle (s : Session) (t : Text) :
    (s.handle t).1.bindings.get? =
      (Line.ofText t).change?.toList.foldl Change.apply s.bindings.get? := by
  cases hc : (Line.ofText t).change? with
  | some c => exact get?_step hc s
  | none => rw [handle, step_of_change?_eq_none hc]; rfl

/-- A line reports no missing values. -/
theorem code_ne_of_mem_handle {s : Session} {t : Text} {d : Diagnostic}
    (h : d ∈ (s.handle t).2.diagnostics) : d.code ≠ "EVAL".toList := by
  have hcommand : "CMD".toList ≠ "EVAL".toList := by decide
  rw [handle] at h
  cases hl : Line.ofText t with
  | blank | help | list | clear | unset =>
    rw [hl] at h
    cases h
  | set assignment line =>
    rw [hl, step] at h
    split at h
    · cases h
    · obtain rfl := List.mem_singleton.1 h
      exact hcommand
  | tree text =>
    rw [hl] at h
    exact code_ne_of_mem_diagnostics h
  | unknown command =>
    rw [hl] at h
    obtain rfl := List.mem_singleton.1 h
    exact hcommand
  | formula text =>
    rw [hl] at h
    exact code_ne_of_mem_formulaResponse h

/-- **The variables after several lines.** -/
theorem get?_after (s : Session) (lines : List Text) :
    (s.after lines).bindings.get? =
      (lines.filterMap fun t => (Line.ofText t).change?).foldl Change.apply s.bindings.get? := by
  induction lines generalizing s with
  | nil => rfl
  | cons t lines ih =>
    rw [after_cons, ih, get?_handle, List.filterMap_cons]
    cases (Line.ofText t).change? <;> rfl

/-- All names of a session are names. -/
def Named (s : Session) : Prop := ∀ name, s.bindings.get? name ≠ none → IsName name

theorem Named.handle {s : Session} (h : s.Named) (t : Text) : (s.handle t).1.Named := by
  rcases s.handle_cases t with ⟨c, hc, hget⟩ | ⟨-, hs⟩
  swap
  · rwa [hs]
  intro name hname
  rw [hget] at hname
  -- A change gives no value to any other name than the one that is set.
  cases c with
  | assign other value =>
    by_cases heq : name = other
    · subst heq
      exact hc.isName
    · rw [Change.apply, Function.update_of_ne heq] at hname
      exact h name hname
  | drop other =>
    by_cases heq : name = other
    · subst heq
      simp [Change.apply] at hname
    · rw [Change.apply, Function.update_of_ne heq] at hname
      exact h name hname
  | dropAll => exact absurd rfl hname

/-- **What is stored has a name.** -/
theorem Named.after {s : Session} (h : s.Named) (lines : List Text) : (s.after lines).Named := by
  induction lines generalizing s with
  | nil => exact h
  | cons t lines ih => exact ih (h.handle t)

theorem code_ne_of_mem_run {s : Session} {lines : List Text} {answer : Session × Response}
    (h : answer ∈ s.run lines) {d : Diagnostic} (hd : d ∈ answer.2.diagnostics) :
    d.code ≠ "EVAL".toList := by
  induction lines generalizing s with
  | nil => cases h
  | cons t lines ih =>
    rcases List.mem_cons.1 h with rfl | h
    · exact code_ne_of_mem_handle hd
    · exact ih h

end Session

/-! ## Listings -/

/-- The row of a variable in the listing. -/
def row (e : Text × Float) : Text := e.1 ++ " = ".toList ++ Numeral.write e.2

/-- **A row is an assignment**, if the value can be read back. -/
theorem ofText_row {name : Text} {value : Float} (hname : IsName name)
    (hvalue : Numeral.read (Numeral.write value) = .ok value) :
    Assignment.ofText (row (name, value)) = .ok ⟨name, value⟩ := by
  have hspace : ∀ c ∈ [' '], isBlank c = true := List.forall_mem_singleton.2 (by decide)
  refine Assignment.ofText_eq_ok_iff.2
    ⟨name ++ [' '], [' '] ++ Numeral.write value, by simp [row], ?_, ?_, hname.ne_nil, ?_⟩
  · simpa using hname.not_mem
  · rw [Text.trim_append_blanks hspace, hname.trim_eq]
  · rw [Text.trim_blanks_append hspace,
      (Text.isTrimmed_of_forall Numeral.isBlank_eq_false_of_mem_write).trim, hvalue]

/-- Setting the variables of all rows makes the same variables. -/
theorem Session.bindings_after_rows {s : Session} (h : s.Named)
    (hread : ∀ e ∈ s.bindings.entries, Numeral.read (Numeral.write e.2) = .ok e.2) :
    (start.after (s.bindings.entries.map fun e => setLine (row e))).bindings = s.bindings := by
  have hrows : List.Forall₂ (fun t a => Assignment.ofText t = .ok a)
      (s.bindings.entries.map row) (s.bindings.entries.map fun e => ⟨e.1, e.2⟩) := by
    rw [List.forall₂_map_left_iff, List.forall₂_map_right_iff, List.forall₂_same]
    intro e he
    have hstored : s.bindings.get? e.1 ≠ none := by
      intro hnone
      exact firstValue?_eq_none_iff.1 hnone (List.mem_map_of_mem he)
    exact ofText_row (h e.1 hstored) (hread e he)
  have hafter := bindings_after_sets hrows
  rw [List.map_map, List.map_map] at hafter
  have hpairs : s.bindings.entries.map
      ((fun a : Assignment => (a.name, a.value)) ∘ fun e => ⟨e.1, e.2⟩) = s.bindings.entries :=
    List.map_id _
  rw [hpairs, Bindings.ofList_entries] at hafter
  exact hafter

/-! ## Whole sessions -/

/-- The lines of a session and what it has kept of them. -/
structure Session.Faithful (lines : List Text) : Prop where
  /-- No line reports that a variable has no value. -/
  reports : ∀ answer ∈ start.run lines, ∀ d ∈ answer.2.diagnostics, d.code ≠ "EVAL".toList
  /-- The variables are what the changes of the lines make of none, in order. -/
  values : ∃ changes : List (Option Change),
    List.Forall₂ (fun t change => ∀ c, change = some c ↔ Makes t c) lines changes ∧
      (start.after lines).bindings.get? = (changes.filterMap id).foldl Change.apply fun _ => none
  /-- A line that makes no change leaves the session as it is. -/
  unchanged : ∀ t, (∀ c, ¬ Makes t c) → ((start.after lines).handle t).1 = start.after lines
  /-- What is stored has a name. -/
  names : ∀ e ∈ (start.after lines).bindings.entries, IsName e.1
  /-- Every variable has a row in the listing. -/
  listing : ((start.after lines).handle ".vars".toList).2.output =
    (start.after lines).bindings.entries.flatMap fun e => (row e).line
  /-- Setting the variables of all rows makes the same variables in a new session, if the values can
  be read back. -/
  restored : (∀ e ∈ (start.after lines).bindings.entries,
      Numeral.read (Numeral.write e.2) = .ok e.2) →
    (start.after ((start.after lines).bindings.entries.map fun e => setLine (row e))).bindings =
      (start.after lines).bindings

/-- **Every session keeps account of its lines.** -/
theorem Session.faithful (lines : List Text) : Faithful lines := by
  have hnamed : (start.after lines).Named := Named.after (fun _ h => absurd rfl h) lines
  exact {
    reports := fun _ hanswer _ hd => code_ne_of_mem_run hanswer hd
    values := by
      refine ⟨lines.map fun t => (Line.ofText t).change?, ?_, ?_⟩
      · rw [List.forall₂_map_right_iff, List.forall₂_same]
        exact fun t _ c => change?_eq_some_iff
      · rw [get?_after, List.filterMap_map]
        rfl
    unchanged := by
      intro t ht
      rcases (start.after lines).handle_cases t with ⟨c, hc, -⟩ | ⟨-, hs⟩
      · exact absurd hc (ht c)
      · exact hs
    names := by
      intro e he
      refine hnamed e.1 fun hnone => ?_
      exact firstValue?_eq_none_iff.1 hnone (List.mem_map_of_mem he)
    listing := by
      have hlist : Line.ofText ".vars".toList = .list := by decide
      rw [handle, hlist]
      rfl
    restored := bindings_after_rows hnamed }

/-- A variable that is set and taken away, one that is set twice, and a name with a space in it. -/
theorem Session.faithful_replay :
    (start.after [".set x = 1.5".toList, "  .set y=7\t".toList, ".set long name=0.25".toList,
        ".unset  x".toList, ".set =3".toList, "x + y".toList, ".set y=-2".toList]).bindings =
      (start.after [".set long name = 0.25".toList, ".set y = -2".toList]).bindings := by
  have hentries : (start.after [".set x = 1.5".toList, "  .set y=7\t".toList,
      ".set long name=0.25".toList, ".unset  x".toList, ".set =3".toList, "x + y".toList,
      ".set y=-2".toList]).bindings.entries =
        [("long name".toList, 0.25), ("y".toList, -2)] := by decide +kernel
  have hrows : [("long name".toList, (0.25 : Float)), ("y".toList, -2)].map
      (fun e => setLine (row e)) = [".set long name = 0.25".toList, ".set y = -2".toList] := by
    decide +kernel
  have hfaithful := faithful [".set x = 1.5".toList, "  .set y=7\t".toList,
    ".set long name=0.25".toList, ".unset  x".toList, ".set =3".toList, "x + y".toList,
    ".set y=-2".toList]
  have hrestored := hfaithful.restored (by rw [hentries]; decide +kernel)
  rw [hentries, hrows] at hrestored
  exact hrestored.symm

end Formula

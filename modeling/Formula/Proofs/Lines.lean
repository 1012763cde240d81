import Formula.Proofs.Assignments
import Formula.Proofs.Bindings
import Formula.Session

/-!
# Lines of a session

What a line asks for is said by its trimmed form alone.  It is a command with an argument, where the
command ends at the first space, or a formula, or nothing.

A line that sets a variable is handled like the assignment in it, so a session in which variables
have been set has the bindings made of the assignments, and has written and reported nothing.
-/

namespace Formula

/-- A line that consists of a command and an argument.  The command ends at the first space, and
blanks around the argument do not count. -/
inductive Commands (t command : Text) : Text → Prop
  /-- There is no space, so there is no argument. -/
  | bare : ' ' ∉ command → t.trim = command → Commands t command []
  /-- A space separates them. -/
  | argument {rest : Text} : ' ' ∉ command → t.trim = command ++ ' ' :: rest →
    Commands t command rest.trim

section Commands

variable {t command argument : Text}

/-- A line divided at its first space. -/
theorem commands_cut (t : Text) :
    Commands t ((t.trim.cut? ' ').getD (t.trim, [])).1
      ((t.trim.cut? ' ').getD (t.trim, [])).2.trim := by
  cases hcut : t.trim.cut? ' ' with
  | none => exact .bare (Text.cut?_eq_none_iff.1 hcut) rfl
  | some cut =>
    obtain ⟨htext, hspace⟩ := Text.cut?_eq_some_iff.1 hcut
    exact .argument hspace htext

/-- There is no other way to divide it. -/
theorem Commands.cut (h : Commands t command argument) :
    ∃ rest, (t.trim.cut? ' ').getD (t.trim, []) = (command, rest) ∧ Text.trim rest = argument := by
  cases h with
  | bare hspace htext =>
    refine ⟨[], ?_, rfl⟩
    rw [htext, Text.cut?_eq_none_iff.2 hspace]
    rfl
  | @argument rest hspace htext =>
    refine ⟨rest, ?_, rfl⟩
    rw [Text.cut?_eq_some_iff.2 ⟨htext, hspace⟩]
    rfl

theorem isCommand_append (h : isCommand command = true) (rest : Text) :
    isCommand (command ++ rest) = true := by
  rcases command with _ | ⟨c, _ | ⟨d, command⟩⟩
  · cases h
  · simp [isCommand] at h
  · rw [isCommand.eq_def] at h ⊢
    split at h
    · rename_i heq
      cases heq
      exact h
    · cases h

theorem Commands.isCommand (h : Commands t command argument)
    (hcommand : isCommand command = true) : isCommand t.trim = true := by
  cases h with
  | bare _ htext => rwa [htext]
  | argument _ htext =>
    rw [htext]
    exact isCommand_append hcommand _

/-- A word before an argument. -/
theorem commands_append (hcommand : isCommand command = true)
    (hword : ∀ c ∈ command, isBlank c = false) (hargument : argument.trim ≠ []) :
    Commands (command ++ ' ' :: argument) command argument.trim := by
  obtain ⟨s, u, hsplit, hs, hu⟩ := Text.exists_trim argument
  have hne : command ≠ [] := by
    rintro rfl
    cases hcommand
  have htrim : (command ++ ' ' :: argument).trim = command ++ ((' ' :: s) ++ argument.trim) := by
    have hall : command ++ ' ' :: argument =
        (command ++ ((' ' :: s) ++ argument.trim)) ++ u := by
      conv_lhs => rw [hsplit]
      simp
    rw [hall, Text.trim_append_blanks hu]
    exact ((Text.isTrimmed_of_forall hword).append (Text.isTrimmed_trim argument) hne hargument
      _).trim
  have hspace : ' ' ∉ command := fun hmem => absurd (hword ' ' hmem) (by decide)
  have hcommands : Commands _ command (Text.trim (s ++ argument.trim)) := .argument hspace htrim
  rwa [Text.trim_blanks_append hs, Text.trim_trim] at hcommands

end Commands

/-- The commands that there are. -/
def commandNames : List Text :=
  [".help", ".vars", ".clear", ".set", ".unset", ".tree"].map String.toList

/-- What a line asks for, by its text. -/
inductive Line.Reads (t : Text) : Line → Prop
  /-- The line is blank. -/
  | blank : t.trim = [] → Reads t .blank
  /-- The command for help; its argument does not matter. -/
  | help {argument : Text} : Commands t ".help".toList argument → Reads t .help
  /-- The command that lists the variables. -/
  | list {argument : Text} : Commands t ".vars".toList argument → Reads t .list
  /-- The command that takes all variables away. -/
  | clear {argument : Text} : Commands t ".clear".toList argument → Reads t .clear
  /-- The command that sets a variable. -/
  | set {assignment : Text} : Commands t ".set".toList assignment →
    Reads t (.set assignment t.trim)
  /-- The command that takes a variable away. -/
  | unset {name : Text} : Commands t ".unset".toList name → Reads t (.unset name)
  /-- The command that prints an outline. -/
  | tree {text : Text} : Commands t ".tree".toList text → Reads t (.tree text)
  /-- Any other command. -/
  | unknown {command argument : Text} : isCommand t.trim = true → Commands t command argument →
    command ∉ commandNames → Reads t (.unknown command)
  /-- Anything else is a formula. -/
  | formula : t.trim ≠ [] → isCommand t.trim = false → Reads t (.formula t.trim)

namespace Line

variable {t command argument : Text} {l : Line}

theorem ofText_of_isCommand (h : isCommand t.trim = true) : ofText t = ofCommand t.trim := by
  have hne : t.trim ≠ [] := by
    intro hnil
    rw [hnil] at h
    cases h
  simp only [ofText, if_neg hne, if_pos h]

theorem ofText_eq_of_reads (h : Reads t l) : ofText t = l := by
  cases h with
  | blank h => simp [ofText, h]
  | help h | list h | clear h | set h | unset h | tree h =>
    obtain ⟨rest, hcut, rfl⟩ := h.cut
    rw [ofText_of_isCommand (h.isCommand rfl), ofCommand, hcut]
    rfl
  | @unknown command _ hcommand h hnames =>
    obtain ⟨rest, hcut, rfl⟩ := h.cut
    rw [ofText_of_isCommand hcommand, ofCommand, hcut]
    simp only [commandNames, List.map_cons, List.map_nil, List.mem_cons, List.not_mem_nil, or_false,
      not_or] at hnames
    simp only [hnames, if_false]
  | formula hne hcommand => simp [ofText, hne, hcommand]

theorem reads_ofText (t : Text) : Reads t (ofText t) := by
  by_cases hblank : t.trim = []
  · rw [ofText, if_pos hblank]
    exact .blank hblank
  · cases hcommand : isCommand t.trim with
    | false =>
      have h : ofText t = formula t.trim := by simp [ofText, hblank, hcommand]
      rw [h]
      exact .formula hblank hcommand
    | true =>
      have hcommands := commands_cut t
      rw [ofText_of_isCommand hcommand, ofCommand]
      generalize (t.trim.cut? ' ').getD (t.trim, []) = cut at hcommands
      obtain ⟨command, rest⟩ := cut
      simp only at hcommands ⊢
      by_cases hhelp : command = ".help".toList
      · rw [if_pos hhelp]
        exact .help (hhelp ▸ hcommands)
      rw [if_neg hhelp]
      by_cases hvars : command = ".vars".toList
      · rw [if_pos hvars]
        exact .list (hvars ▸ hcommands)
      rw [if_neg hvars]
      by_cases hclear : command = ".clear".toList
      · rw [if_pos hclear]
        exact .clear (hclear ▸ hcommands)
      rw [if_neg hclear]
      by_cases hset : command = ".set".toList
      · rw [if_pos hset]
        exact .set (hset ▸ hcommands)
      rw [if_neg hset]
      by_cases hunset : command = ".unset".toList
      · rw [if_pos hunset]
        exact .unset (hunset ▸ hcommands)
      rw [if_neg hunset]
      by_cases htree : command = ".tree".toList
      · rw [if_pos htree]
        exact .tree (htree ▸ hcommands)
      rw [if_neg htree]
      refine .unknown hcommand hcommands ?_
      simp only [commandNames, List.map_cons, List.map_nil, List.mem_cons, List.not_mem_nil, hhelp,
        hvars, hclear, hset, hunset, htree, or_self, not_false_eq_true]

end Line

namespace Session

/-- A session after several lines. -/
def after (s : Session) (lines : List Text) : Session :=
  lines.foldl (fun s line => (s.handle line).1) s

theorem after_cons (s : Session) (line : Text) (lines : List Text) :
    s.after (line :: lines) = (s.handle line).1.after lines := rfl

theorem run_append (s : Session) (lines more : List Text) :
    s.run (lines ++ more) = s.run lines ++ (s.after lines).run more := by
  induction lines generalizing s with
  | nil => rfl
  | cons line lines ih => rw [List.cons_append, run, run, ih, List.cons_append, after_cons]

theorem handle_of_reads {t : Text} {l : Line} (h : Line.Reads t l) (s : Session) :
    s.handle t = s.step l := by
  rw [handle, Line.ofText_eq_of_reads h]

/-- The line that sets a variable. -/
def setLine (assignment : Text) : Text := ".set".toList ++ ' ' :: assignment

/-- **A line that sets a variable** is handled like the assignment in it. -/
theorem handle_set {t : Text} {a : Assignment} (h : Assignment.ofText t = .ok a) (s : Session) :
    s.handle (setLine t) = (⟨s.bindings.insert a.name a.value⟩, .silent) := by
  have hcommands : Commands (setLine t) ".set".toList t.trim :=
    commands_append rfl (Text.forall_isBlank_eq_false (by decide)) (Assignment.trim_ne_nil h)
  rw [handle_of_reads (.set hcommands), step, Assignment.ofText_trim h]

variable {written : List Text} {assignments : List Assignment}

/-- Several variables are set like the bindings of a list are made. -/
theorem after_sets (h : List.Forall₂ (fun t a => Assignment.ofText t = .ok a) written assignments)
    (s : Session) :
    (s.after (written.map setLine)).bindings =
      (assignments.map fun a => (a.name, a.value)).foldl (fun b e => b.insert e.1 e.2)
        s.bindings := by
  induction h generalizing s with
  | nil => rfl
  | cons hfirst _ ih =>
    rw [List.map_cons, after_cons, handle_set hfirst, ih, List.map_cons, List.foldl_cons]

/-- **The bindings after variables have been set.** -/
theorem bindings_after_sets
    (h : List.Forall₂ (fun t a => Assignment.ofText t = .ok a) written assignments) :
    (start.after (written.map setLine)).bindings =
      Bindings.ofList (assignments.map fun a => (a.name, a.value)) :=
  after_sets h start

/-- Nothing is written or reported while variables are set. -/
theorem responses_sets
    (h : List.Forall₂ (fun t a => Assignment.ofText t = .ok a) written assignments) (s : Session) :
    (s.run (written.map setLine)).map (·.2) = written.map fun _ => .silent := by
  induction h generalizing s with
  | nil => rfl
  | cons hfirst _ ih =>
    rw [List.map_cons, run, List.map_cons, ih, handle_set hfirst, List.map_cons]

end Session

end Formula

import Formula.Proofs.Collapse
import Formula.Proofs.Part.SiblingLists

/-!
# Formulas without errors

A formula has been read without errors if the builder has found none and the tree lacks no operand
and no argument.  Without unknown characters no missing operand is excused, so the second condition
is one on each sibling list by itself: `Complete hasLeft items` says that every operator of the list
has a value to its left and a part to its right, or may do without them, and that every call
supplies as many arguments as its function takes.
-/

namespace Formula

/-- Whether a part has the operands or arguments that it needs, between neighbours of which the left
one is a value (`hasLeft`) and the right one exists (`hasRight`). -/
def Part.Supplied (hasLeft hasRight : Bool) : Part → Prop
  | .operator op _ =>
    (hasLeft = true ∨ op.leftOptional = true) ∧ (hasRight = true ∨ op.rightOptional = true)
  | .call f _ slots =>
    f.signature.accepts (suppliedArguments slots) = true ∧
      (slots.length ≤ 1 ∨ ∀ s ∈ slots, s.isEmpty = false)
  | _ => True

/-- A sibling list, or the rest of one after a value (`hasLeft`), that lacks nothing. -/
def Complete (hasLeft : Bool) : List Part → Prop
  | [] => True
  | p :: ps => p.Supplied hasLeft (!ps.isEmpty) ∧ Complete (!p.isOperator) ps

theorem supplied_of_complete {items : List Part} {hasLeft : Bool} (h : Complete hasLeft items) :
    ∀ p ∈ items, ∃ hasLeft hasRight, p.Supplied hasLeft hasRight := by
  induction items generalizing hasLeft with
  | nil => simp
  | cons p items ih => exact List.forall_mem_cons.2 ⟨⟨_, _, h.1⟩, ih h.2⟩

theorem lackingOperand_eq_nil_iff {op : Operator} {e : Excerpt} {hasLeft hasRight : Bool}
    {gap stop : Nat} : lackingOperand [] op e hasLeft hasRight gap stop = [] ↔
      (hasLeft = true ∨ op.leftOptional = true) ∧ (hasRight = true ∨ op.rightOptional = true) := by
  cases hasLeft <;> cases hasRight <;> cases hl : op.leftOptional <;> cases hr : op.rightOptional <;>
    simp [lackingOperand, anyWithin, hl, hr]

theorem callErrors_eq_nil_iff {f : Operation} {e : Excerpt} {slots : List Slot} :
    callErrors f e slots = [] ↔ f.signature.accepts (suppliedArguments slots) = true ∧
      (slots.length ≤ 1 ∨ ∀ s ∈ slots, s.isEmpty = false) := by
  have hempty : emptySlotErrors slots = [] ↔
      slots.length ≤ 1 ∨ ∀ s ∈ slots, s.isEmpty = false := by
    simp only [emptySlotErrors]
    split
    · rename_i h
      simp [h]
    · rename_i h
      simp [h, List.filter_eq_nil_iff]
  simp only [callErrors, List.append_eq_nil_iff, hempty]
  split
  · rename_i h
    simp [h]
  · rename_i h
    simp [h]

theorem siblingErrors_eq_nil_iff {stop gap : Nat} {hasLeft : Bool} {items : List Part} :
    siblingErrors [] stop hasLeft gap items = [] ↔ Complete hasLeft items := by
  induction items generalizing hasLeft gap with
  | nil => simp [siblingErrors, Complete]
  | cons p ps ih =>
    cases p with
    | operator op e =>
      simp only [siblingErrors, List.append_eq_nil_iff, lackingOperand_eq_nil_iff, ih, Complete,
        Part.Supplied]
    | call f e slots =>
      simp only [siblingErrors, List.append_eq_nil_iff, callErrors_eq_nil_iff, ih, Complete,
        Part.Supplied]
    | number => simp [siblingErrors, ih, Complete, Part.Supplied]
    | constant => simp [siblingErrors, ih, Complete, Part.Supplied]
    | free => simp [siblingErrors, ih, Complete, Part.Supplied]
    | group => simp [siblingErrors, ih, Complete, Part.Supplied]

@[simp] theorem innerErrors_group {e : Excerpt} {items : List Part} :
    (Part.group e items).innerErrors [] = [] ↔
      innerErrorsAll [] items = [] ∧ Complete false items := by
  rw [Part.innerErrors, List.append_eq_nil_iff, siblingErrors_eq_nil_iff]

@[simp] theorem innerErrors_call {f : Operation} {e : Excerpt} {slots : List Slot} :
    (Part.call f e slots).innerErrors [] = [] ↔ slotErrors [] slots = [] := by
  rw [Part.innerErrors]

@[simp] theorem innerErrors_number (e : Excerpt) : (Part.number e).innerErrors [] = [] := by
  rw [Part.innerErrors] <;> simp

@[simp] theorem innerErrors_ofSymbol (s : Symbol) (e : Excerpt) :
    (Part.ofSymbol s e).innerErrors [] = [] := by
  cases s <;> simp [Part.ofSymbol, Part.innerErrors, slotErrors]

@[simp] theorem errors_slot {e : Excerpt} {items : List Part} :
    (Slot.mk e items).errors [] = [] ↔ innerErrorsAll [] items = [] ∧ Complete false items := by
  rw [Slot.errors, List.append_eq_nil_iff, siblingErrors_eq_nil_iff]

@[simp] theorem innerErrorsAll_eq_nil_iff {items : List Part} :
    innerErrorsAll [] items = [] ↔ ∀ p ∈ items, p.innerErrors [] = [] := by
  induction items with
  | nil => simp [innerErrorsAll]
  | cons p ps ih => simp [innerErrorsAll, ih]

@[simp] theorem slotErrors_eq_nil_iff {slots : List Slot} :
    slotErrors [] slots = [] ↔ ∀ s ∈ slots, s.errors [] = [] := by
  induction slots with
  | nil => simp [slotErrors]
  | cons s ss ih => simp [slotErrors, ih]

theorem argumentErrors_eq_nil_iff {stop : Nat} {items : List Part} :
    argumentErrors [] stop items = [] ↔
      (∀ p ∈ items, p.innerErrors [] = []) ∧ Complete false items := by
  rw [argumentErrors, List.append_eq_nil_iff, siblingErrors_eq_nil_iff, innerErrorsAll_eq_nil_iff]

/-- An error that is found in a tree is about one part: about an operator that lacks an operand, or
about the arguments of a call. -/
inductive Part.Causes : Part → ParseError → Prop
  /-- An operator. -/
  | operator (op : Operator) (e : Excerpt) :
    Causes (.operator op e) ⟨.operatorArguments op.operation.signature, e.start, e.length⟩
  /-- A call. -/
  | call {f : Operation} {name : Excerpt} {slots : List Slot} {error : ParseError}
    (h : error ∈ callErrors f name slots) : Causes (.call f name slots) error

section Causes

variable {unknowns : List Nat} {stop gap : Nat} {hasLeft : Bool} {items : List Part}
  {f : Operation} {name : Excerpt} {slots : List Slot} {error : ParseError}

theorem mem_emptySlotErrors_iff : error ∈ emptySlotErrors slots ↔ 1 < slots.length ∧
    ∃ s ∈ slots, s.isEmpty = true ∧
      error = ⟨.emptyArgument, s.excerpt.start, s.excerpt.length⟩ := by
  rw [emptySlotErrors]
  split
  · rename_i h
    simp [Nat.not_lt.2 h]
  · rename_i h
    simp only [Nat.lt_of_not_le h, true_and, List.mem_map, List.mem_filter, and_assoc]
    exact exists_congr fun s => and_congr_right fun _ => and_congr_right fun _ => eq_comm

/-- What may be wrong with a call: one of several slots is empty, or there are too few or too many
arguments. -/
theorem mem_callErrors_iff : error ∈ callErrors f name slots ↔
    (1 < slots.length ∧ ∃ s ∈ slots, s.isEmpty = true ∧
      error = ⟨.emptyArgument, s.excerpt.start, s.excerpt.length⟩) ∨
    f.signature.accepts (suppliedArguments slots) = false ∧
      error = ⟨.functionArguments f.signature (suppliedArguments slots), name.start,
        name.length⟩ := by
  simp only [callErrors, List.mem_append, mem_emptySlotErrors_iff]
  split
  · rename_i h
    simp [h]
  · rename_i h
    simp [h]

theorem exists_causes_of_mem_siblingErrors
    (h : error ∈ siblingErrors unknowns stop hasLeft gap items) : ∃ p ∈ items, p.Causes error := by
  induction items generalizing hasLeft gap with
  | nil => simp [siblingErrors] at h
  | cons p ps ih =>
    rw [siblingErrors.eq_def] at h
    rcases List.mem_append.1 h with h | h
    · refine ⟨p, List.mem_cons_self, ?_⟩
      cases p with
      | operator op e =>
        simp only [lackingOperand] at h
        split at h
        · obtain rfl := List.mem_singleton.1 h
          exact .operator op e
        · cases h
      | call f name slots => exact .call h
      | number | constant | free | group => cases h
    · obtain ⟨q, hq, hcauses⟩ := ih h
      exact ⟨q, List.mem_cons_of_mem _ hq, hcauses⟩

/-- What is wrong with a call does not depend on where the call stands. -/
theorem callErrors_subset_siblingErrors (h : .call f name slots ∈ items) :
    callErrors f name slots ⊆ siblingErrors unknowns stop hasLeft gap items := by
  induction items generalizing hasLeft gap with
  | nil => cases h
  | cons p ps ih =>
    intro e he
    rcases List.mem_cons.1 h with rfl | h
    · exact List.mem_append_left _ he
    · rw [siblingErrors.eq_def]
      exact List.mem_append_right _ (ih h he)

theorem mem_innerErrorsAll :
    error ∈ innerErrorsAll unknowns items ↔ ∃ p ∈ items, error ∈ p.innerErrors unknowns := by
  induction items with
  | nil => simp [innerErrorsAll]
  | cons p ps ih => simp [innerErrorsAll, ih]

theorem mem_slotErrors :
    error ∈ slotErrors unknowns slots ↔ ∃ s ∈ slots, error ∈ s.errors unknowns := by
  induction slots with
  | nil => simp [slotErrors]
  | cons s ss ih => simp [slotErrors, ih]

/-- The error of a list in a group or a slot is about a part of the list. -/
theorem exists_causes_of_mem_list (ih : ∀ p ∈ items, error ∈ p.innerErrors unknowns →
      ∃ q ∈ p.walk, q.Causes error)
    (h : error ∈ innerErrorsAll unknowns items ++ siblingErrors unknowns stop hasLeft gap items) :
    ∃ q ∈ walkAll items, q.Causes error := by
  rcases List.mem_append.1 h with h | h
  · obtain ⟨p, hp, herror⟩ := mem_innerErrorsAll.1 h
    obtain ⟨q, hq, hcauses⟩ := ih p hp herror
    exact ⟨q, mem_walkAll.2 ⟨p, hp, hq⟩, hcauses⟩
  · obtain ⟨p, hp, hcauses⟩ := exists_causes_of_mem_siblingErrors h
    exact ⟨p, mem_walkAll.2 ⟨p, hp, mem_walk_self p⟩, hcauses⟩

theorem Part.exists_causes (p : Part) :
    error ∈ p.innerErrors unknowns → ∃ q ∈ p.walk, q.Causes error := by
  induction p using Part.induction with
  | number | operator | constant | free =>
    intro h
    simp [Part.innerErrors] at h
  | group e items ih =>
    intro h
    rw [Part.innerErrors] at h
    obtain ⟨q, hq, hcauses⟩ := exists_causes_of_mem_list ih h
    exact ⟨q, by simp [Part.walk, hq], hcauses⟩
  | call f name slots ih =>
    intro h
    rw [Part.innerErrors] at h
    obtain ⟨s, hs, herror⟩ := mem_slotErrors.1 h
    obtain ⟨e, items⟩ := s
    rw [Slot.errors] at herror
    obtain ⟨q, hq, hcauses⟩ := exists_causes_of_mem_list (ih _ hs) herror
    exact ⟨q, by simp [Part.walk, mem_walkSlots.2 ⟨_, hs, hq⟩], hcauses⟩

/-- **The search for operands and arguments finds errors about the parts of the tree.** -/
theorem exists_causes_of_mem_argumentErrors (h : error ∈ argumentErrors unknowns stop items) :
    ∃ p ∈ walkAll items, p.Causes error :=
  exists_causes_of_mem_list (fun p _ => p.exists_causes) h

/-- The search goes through all sibling lists. -/
theorem SiblingList.errors_subset {l : List Part} (hl : SiblingList items l) :
    innerErrorsAll unknowns l ⊆ argumentErrors unknowns stop items ∧
      ∃ stop' gap, siblingErrors unknowns stop' false gap l ⊆ argumentErrors unknowns stop items := by
  -- what is found in a list inside a part of `l` is found inside `l`
  have hlist : ∀ {p : Part} {inner : List Part} {e : Excerpt} {l : List Part}, p ∈ l →
      innerErrorsAll unknowns l ⊆ argumentErrors unknowns stop items →
      innerErrorsAll unknowns inner ++ siblingErrors unknowns e.stop false e.start inner ⊆
        p.innerErrors unknowns →
      innerErrorsAll unknowns inner ⊆ argumentErrors unknowns stop items ∧
        ∃ stop' gap, siblingErrors unknowns stop' false gap inner ⊆
          argumentErrors unknowns stop items := by
    intro p inner e l hp hl hinner
    have hsubset : p.innerErrors unknowns ⊆ argumentErrors unknowns stop items :=
      fun a ha => hl (mem_innerErrorsAll.2 ⟨p, hp, ha⟩)
    exact ⟨fun a ha => hsubset (hinner (List.mem_append_left _ ha)), e.stop, e.start,
      fun a ha => hsubset (hinner (List.mem_append_right _ ha))⟩
  induction hl with
  | whole => exact ⟨List.subset_append_left _ _, stop, 0, List.subset_append_right _ _⟩
  | @group l inner e _ hmem ih =>
    refine hlist (e := e) hmem ih.1 ?_
    rw [Part.innerErrors]
    exact List.Subset.refl _
  | @slot l f name slots s _ hmem hs ih =>
    obtain ⟨e, inner⟩ := s
    refine hlist (e := e) hmem ih.1 fun a ha => ?_
    rw [Part.innerErrors]
    exact mem_slotErrors.2 ⟨_, hs, by rwa [Slot.errors]⟩

/-- **Whatever is wrong with a call of the tree is found.** -/
theorem callErrors_subset_argumentErrors (h : .call f name slots ∈ walkAll items) :
    callErrors f name slots ⊆ argumentErrors unknowns stop items := by
  obtain ⟨l, hl, hmem⟩ := mem_walkAll_iff.1 h
  obtain ⟨stop', gap, hsubset⟩ : ∃ stop' gap, siblingErrors unknowns stop' false gap l ⊆
      argumentErrors unknowns stop items := hl.errors_subset.2
  exact fun e he => hsubset (callErrors_subset_siblingErrors hmem he)

end Causes

/-! ## Kinds of errors -/

/-- Whether an error is about the operands of an operator or the arguments of a call. -/
def ParseError.concernsArguments (e : ParseError) : Bool :=
  match e.cause with
  | .functionArguments _ _ | .operatorArguments _ | .emptyArgument => true
  | _ => false

/-- The search for operands and arguments finds no other errors. -/
theorem concernsArguments_of_mem_argumentErrors {unknowns : List Nat} {stop : Nat}
    {items : List Part} :
    ∀ e ∈ argumentErrors unknowns stop items, e.concernsArguments = true := by
  intro e he
  obtain ⟨p, -, hcauses⟩ := exists_causes_of_mem_argumentErrors he
  cases hcauses with
  | operator => rfl
  | call h =>
    rcases mem_callErrors_iff.1 h with ⟨-, s, -, -, rfl⟩ | ⟨-, rfl⟩
    · rfl
    · rfl

theorem ParseError.identifier?_of_concernsArguments {e : ParseError}
    (h : e.concernsArguments = true) : e.identifier?.isSome = false := by
  obtain ⟨cause, start, length⟩ := e
  cases cause with
  | unknownIdentifier => cases h
  | _ => rfl

theorem identifier?_of_mem_argumentErrors {unknowns : List Nat} {stop : Nat} {items : List Part} :
    ∀ e ∈ argumentErrors unknowns stop items, e.identifier?.isSome = false :=
  fun e he => e.identifier?_of_concernsArguments (concernsArguments_of_mem_argumentErrors e he)

/-- Such errors are never joined. -/
theorem collapse_of_concernsArguments {errors : List ParseError}
    (h : ∀ e ∈ errors, e.concernsArguments = true) : collapse errors = errors :=
  (collapse_append fun e he => ParseError.identifier?_of_concernsArguments (h e he) :
    collapse ([] ++ errors) = collapse [] ++ errors)

/-! ## Reading without errors -/

/-- **A formula has been read without errors** if nothing is wrong with its tokens, all parentheses
are closed, and every sibling list lacks nothing. -/
theorem isClean_parse_iff {r : Registry} {text : Text} :
    (parse r text).isClean = true ↔
      (Builder.empty.run text (tokens r text)).errors = [] ∧
        (Builder.empty.run text (tokens r text)).frames = [] ∧
        (∀ p ∈ (parse r text).items, p.innerErrors [] = []) ∧
        Complete false (parse r text).items := by
  rw [Parse.isClean, List.isEmpty_iff]
  simp only [parse, collapse_eq_nil_iff, List.append_eq_nil_iff, Builder.allErrors,
    Builder.unclosed, List.map_eq_nil_iff]
  constructor
  · rintro ⟨⟨herrors, hframes⟩, hargs⟩
    rw [herrors, hframes] at hargs
    exact ⟨herrors, hframes, argumentErrors_eq_nil_iff.1 hargs⟩
  · rintro ⟨herrors, hframes, hargs⟩
    refine ⟨⟨herrors, hframes⟩, ?_⟩
    rw [herrors, hframes]
    exact argumentErrors_eq_nil_iff.2 hargs

end Formula

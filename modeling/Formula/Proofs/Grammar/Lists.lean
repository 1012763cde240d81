import Formula.Proofs.Grammar.Basic
import Formula.Proofs.Part.Operands
import Formula.Proofs.Part.Steps

/-!
# Sibling lists that are being built

While the tokens of a scope are taken in, its sibling list is there up to what stands last.  The list
is *fed* if it lacks nothing so far: everything but the right operand of the last operator is there,
and nothing is wrong inside the parts.  Here the rules of the grammar are those that the symbols
declare.
-/

namespace Formula

/-- The rules that symbols declare. -/
def Grammar.declared : Grammar where
  needsLeft op := !op.leftOptional
  needsRight op := !op.rightOptional
  takes f n := f.signature.accepts n

/-- What stands last in a sibling list, the last part first. -/
def Last.ofItems : List Part → Last
  | [] => .nothing
  | .operator op _ :: _ => .operator (!op.rightOptional)
  | _ :: _ => .value

/-- A sibling list, the last part first, that lacks nothing and has no errors inside its parts;
`hasRight` says whether something follows. -/
def Fed (hasRight : Bool) : List Part → Prop
  | [] => True
  | p :: before => p.Supplied (Last.ofItems before).isValue hasRight ∧ p.innerErrors [] = [] ∧
      Fed true before

theorem isValue_ofItems_cons (p : Part) (before : List Part) :
    (Last.ofItems (p :: before)).isValue = !p.isOperator := by
  cases p <;> rfl

theorem fed_false_iff {items : List Part} :
    Fed false items ↔ Fed true items ∧ (Last.ofItems items).isComplete = true := by
  cases items with
  | nil => simp [Fed, Last.ofItems, Last.isComplete]
  | cons p before =>
    cases p with
    | operator op e =>
      simp only [Fed, Part.Supplied, Last.ofItems, Last.isComplete, Bool.not_not, true_or,
        Bool.false_eq_true, false_or, and_true]
      tauto
    | _ => simp [Fed, Part.Supplied, Last.ofItems, Last.isComplete]

/-- A list that is built up and the rest of it, which follows. -/
private theorem complete_reverse_append {items after : List Part} :
    Complete false (items.reverse ++ after) ∧ (∀ p ∈ items, p.innerErrors [] = []) ↔
      Fed (!after.isEmpty) items ∧ Complete (Last.ofItems items).isValue after := by
  induction items generalizing after with
  | nil => simp [Fed, Last.ofItems, Last.isValue]
  | cons p before ih =>
    have happend : (p :: before).reverse ++ after = before.reverse ++ (p :: after) := by simp
    rw [happend, isValue_ofItems_cons]
    simp only [List.forall_mem_cons, Fed]
    have hih : Complete false (before.reverse ++ (p :: after)) ∧
        (∀ p ∈ before, p.innerErrors [] = []) ↔
        Fed true before ∧ Complete (Last.ofItems before).isValue (p :: after) := ih
    rw [Complete] at hih
    tauto

/-- A finished list lacks nothing if and only if it has been fed. -/
theorem complete_reverse_iff {items : List Part} :
    (∀ p ∈ items.reverse, p.innerErrors [] = []) ∧ Complete false items.reverse ↔
      Fed false items := by
  have h : Complete false (items.reverse ++ []) ∧ (∀ p ∈ items, p.innerErrors [] = []) ↔
      Fed false items ∧ Complete (Last.ofItems items).isValue [] := complete_reverse_append
  simp only [List.append_nil, Complete, and_true] at h
  simp only [List.mem_reverse]
  rw [and_comm]
  exact h

theorem slotCount_map_isEmpty (slots : List Slot) :
    slotCount (slots.map Slot.isEmpty) = suppliedArguments slots := by
  match slots with
  | [] => rfl
  | [s] =>
    cases h : s.isEmpty with
    | false => simp [slotCount, suppliedArguments, h]
    | true => simp [slotCount, suppliedArguments, h]
  | s :: u :: slots => simp [slotCount, suppliedArguments]

/-- What a call needs, by which of its slots are blank. -/
theorem supplied_call_iff {f : Operation} {e : Excerpt} {slots : List Slot}
    {hasLeft hasRight : Bool} : (Part.call f e slots).Supplied hasLeft hasRight ↔
      Grammar.declared.Allows f (slots.map Slot.isEmpty) := by
  simp only [Part.Supplied, Grammar.Allows, Grammar.declared, slotCount_map_isEmpty,
    List.length_map, List.forall_mem_map]
  tauto

theorem isNothing_ofItems (items : List Part) :
    (Last.ofItems items).isNothing = items.isEmpty := by
  cases items with
  | nil => rfl
  | cons p before => cases p <;> rfl

theorem isEmpty_mk_reverse (e : Excerpt) (items : List Part) :
    (Slot.mk e items.reverse).isEmpty = items.isEmpty := by
  simp [Slot.isEmpty, Slot.items]

/-- The errors in a slot that has just been completed. -/
theorem errors_mk_iff {e : Excerpt} {items : List Part} :
    (Slot.mk e items.reverse).errors [] = [] ↔ Fed false items := by
  rw [errors_slot, innerErrorsAll_eq_nil_iff, complete_reverse_iff]

/-- The errors in a group that has just been closed. -/
theorem innerErrors_group_iff {e : Excerpt} {items : List Part} :
    (Part.group e items.reverse).innerErrors [] = [] ↔ Fed false items := by
  rw [innerErrors_group, innerErrorsAll_eq_nil_iff, complete_reverse_iff]

/-- A number that is added stands last, whether it joins a sign or not. -/
theorem exists_push_number (e : Excerpt) (items : List Part) :
    ∃ e' before, Builder.push (.number e) items = .number e' :: before ∧
      (Fed true items → Fed true before) := by
  rcases Builder.push_eq_or (.number e) items with hpush | ⟨e', op, sign, -, -, -, -, hpush⟩
  · exact ⟨e, items, hpush, id⟩
  · exact ⟨_, [], hpush, fun _ => trivial⟩

namespace Builder

/-- Silent tokens change the position and the hints only. -/
theorem run_silent (text : Text) (b : Builder) {ts : List Token} (hts : isSilent ts = true) :
    ∃ n hints, b.run text ts = { b with position := n, hints := hints } := by
  induction ts generalizing b with
  | nil => exact ⟨_, _, rfl⟩
  | cons tok ts ih =>
    simp only [isSilent, List.all_cons, Bool.and_eq_true] at hts
    obtain ⟨n, hints, hrun⟩ := ih (b.step text tok) hts.2
    rw [run_cons, hrun]
    cases tok with
    | blank | uncalled => exact ⟨n, hints, rfl⟩
    | opening | closing | comma | number | symbol | unknown | repeatedPoint => cases hts.1

/-- A function name and the parenthesis after it open a call. -/
theorem run_opening (text : Text) (b : Builder) (f : Operation) (w : Text) {gap : List Token}
    (hgap : isSilent gap = true) :
    ∃ n hints, b.run text ([Token.symbol (.function f) w] ++ gap ++ [Token.opening]) = { b with
      position := n + 1
      items := []
      frames := ⟨.call f ⟨b.position, w⟩ [] (n + 1), n, b.items⟩ :: b.frames
      hints := hints } := by
  obtain ⟨n, hints, hblanks⟩ := run_silent text (b.step text (.symbol (.function f) w)) hgap
  refine ⟨n, hints, ?_⟩
  rw [run_append, run_append, run_singleton, run_singleton, hblanks, step_symbol]
  exact step_opening_call rfl

end Builder

end Formula

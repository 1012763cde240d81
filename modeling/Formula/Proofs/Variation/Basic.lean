import Formula.Proofs.Compilation
import Formula.Proofs.Part.Leaves
import Formula.Proofs.Part.Operands

/-!
# Formulas that are written in another way

A *variation* of a formula may have numbers in parentheses where there are variables, and it may
have an operator written between two values that stand side by side.  Everything else is the same but
for the places where it stands.

What is said here of a formula and its variation does not depend on how they are read.  `Varies`
relates parts, and `Stacked` sibling lists in the order in which they are built, the last part first.
In the order of reading, `VaryAll` says of the rest of a list whether a value stands before it, as
what is asked of sibling lists does as well.
-/

namespace Formula

/-- What may be written in another way. -/
structure Variation where
  /-- The number, in parentheses, in the place of a variable. -/
  number? : Text → Option Text
  /-- An operator that may be written between two values. -/
  product? : Option Operator

mutual

/-- A part and what it is in a variation. -/
inductive Part.Varies (V : Variation) : Part → Part → Prop
  /-- A number is the same. -/
  | number {e e' : Excerpt} (htext : e'.text = e.text) : Part.Varies V (.number e) (.number e')
  /-- An operator is the same. -/
  | operator {op : Operator} {e e' : Excerpt} (htext : e'.text = e.text) :
    Part.Varies V (.operator op e) (.operator op e')
  /-- A constant is the same. -/
  | constant {literal expression : Text} {e e' : Excerpt} :
    Part.Varies V (.constant literal expression e) (.constant literal expression e')
  /-- A variable that stays is the same. -/
  | free {literal : Text} {e e' : Excerpt} (h : V.number? literal = none) :
    Part.Varies V (.free literal e) (.free literal e')
  /-- A variable may become a number in parentheses. -/
  | replaced {literal : Text} {e outer inner : Excerpt} (h : V.number? literal = some inner.text) :
    Part.Varies V (.free literal e) (.group outer [.number inner])
  /-- In a group the parts vary. -/
  | group {e e' : Excerpt} {items items' : List Part}
    (h : Stacked V items.reverse items'.reverse) : Part.Varies V (.group e items) (.group e' items')
  /-- In a call the slots vary. -/
  | call {f : Operation} {e e' : Excerpt} {slots slots' : List Slot}
    (h : SlotsVary V slots slots') : Part.Varies V (.call f e slots) (.call f e' slots')

/-- A sibling list and a variation of it, the last part first. -/
inductive Stacked (V : Variation) : List Part → List Part → Prop
  /-- Nothing. -/
  | nil : Stacked V [] []
  /-- A part more. -/
  | cons {p p' : Part} {ps ps' : List Part} (hp : Part.Varies V p p') (h : Stacked V ps ps') :
    Stacked V (p :: ps) (p' :: ps')
  /-- A value more, with an operator written between it and the value before it. -/
  | product {p p' l : Part} {ps ps' : List Part} {op : Operator} {e : Excerpt}
    (hop : V.product? = some op) (hvalue : p.isOperator = false) (hleft : l.isOperator = false)
    (hp : Part.Varies V p p') (h : Stacked V (l :: ps) ps') :
    Stacked V (p :: l :: ps) (p' :: .operator op e :: ps')

/-- The slots of a call and what they are in a variation. -/
inductive SlotsVary (V : Variation) : List Slot → List Slot → Prop
  /-- No slot. -/
  | nil : SlotsVary V [] []
  /-- A slot more. -/
  | cons {e e' : Excerpt} {items items' : List Part} {ss ss' : List Slot}
    (hs : Stacked V items.reverse items'.reverse) (h : SlotsVary V ss ss') :
    SlotsVary V (.mk e items :: ss) (.mk e' items' :: ss')

end

/-- The rest of a sibling list and of a variation of it, after a value or not. -/
inductive VaryAll (V : Variation) : Bool → List Part → List Part → Prop
  /-- Nothing is left. -/
  | nil {afterValue : Bool} : VaryAll V afterValue [] []
  /-- A part is followed by the rest. -/
  | cons {afterValue : Bool} {p p' : Part} {ps ps' : List Part} (hp : p.Varies V p')
    (h : VaryAll V (!p.isOperator) ps ps') : VaryAll V afterValue (p :: ps) (p' :: ps')
  /-- An operator is written between two values. -/
  | product {p p' : Part} {ps ps' : List Part} {op : Operator} {e : Excerpt}
    (hop : V.product? = some op) (hvalue : p.isOperator = false) (hp : p.Varies V p')
    (h : VaryAll V true ps ps') : VaryAll V true (p :: ps) (.operator op e :: p' :: ps')

variable {V : Variation}

theorem Part.Varies.isOperator_eq {p p' : Part} (h : p.Varies V p') :
    p'.isOperator = p.isOperator := by
  cases h <;> rfl

theorem VaryAll.concat {afterValue : Bool} {xs xs' : List Part} {p p' : Part}
    (h : VaryAll V afterValue xs xs') (hp : p.Varies V p') :
    VaryAll V afterValue (xs ++ [p]) (xs' ++ [p']) := by
  induction h with
  | nil => exact .cons hp .nil
  | cons hq _ ih => exact .cons hq ih
  | product hop hvalue hq _ ih => exact .product hop hvalue hq ih

theorem VaryAll.concat_product {afterValue : Bool} {xs ys xs' : List Part} {l p p' : Part}
    {op : Operator} {e : Excerpt} (h : VaryAll V afterValue ys xs') (hys : ys = xs ++ [l])
    (hop : V.product? = some op) (hleft : l.isOperator = false) (hvalue : p.isOperator = false)
    (hp : p.Varies V p') :
    VaryAll V afterValue (ys ++ [p]) (xs' ++ [.operator op e, p']) := by
  -- the induction goes down to the last part of the list, which is the value on the left
  have hend : ∀ {rest rest' : List Part}, (rest = [] → VaryAll V true rest rest' →
      VaryAll V true (rest ++ [p]) (rest' ++ [.operator op e, p'])) := by
    rintro rest rest' rfl h
    cases h
    exact .product hop hvalue hp .nil
  induction h generalizing xs with
  | nil => cases xs <;> cases hys
  | cons hq hrest ih =>
    cases xs with
    | nil =>
      obtain ⟨rfl, rfl⟩ := List.cons.inj hys
      rw [hleft] at hrest
      refine .cons hq ?_
      rw [hleft]
      exact hend rfl hrest
    | cons x xs => exact .cons hq (ih (List.cons.inj hys).2)
  | product hop' hvalue' hq hrest ih =>
    cases xs with
    | nil =>
      obtain ⟨rfl, rfl⟩ := List.cons.inj hys
      exact .product hop' hvalue' hq (hend rfl hrest)
    | cons x xs => exact .product hop' hvalue' hq (ih (List.cons.inj hys).2)

/-- **A list that is varied while it is built is varied when it is read.** -/
theorem Stacked.varyAll {xs xs' : List Part} (h : Stacked V xs xs') :
    VaryAll V false xs.reverse xs'.reverse := by
  induction xs generalizing xs' with
  | nil =>
    cases h
    exact .nil
  | cons p xs ih =>
    cases h with
    | cons hp h =>
      rw [List.reverse_cons, List.reverse_cons]
      exact (ih h).concat hp
    | @product _ p' l ps ps' op e hop hvalue hleft hp h =>
      have hsplit : (l :: ps).reverse = ps.reverse ++ [l] := List.reverse_cons
      have hrest : VaryAll V false ((l :: ps).reverse ++ [p])
          (ps'.reverse ++ [.operator op e, p']) :=
        (ih h).concat_product hsplit hop hleft hvalue hp
      simpa using hrest

theorem Stacked.varyAll_reverse {items items' : List Part}
    (h : Stacked V items.reverse items'.reverse) : VaryAll V false items items' := by
  simpa using h.varyAll

theorem VaryAll.eq_nil_iff {afterValue : Bool} {items items' : List Part}
    (h : VaryAll V afterValue items items') : items' = [] ↔ items = [] := by
  cases h <;> simp

theorem SlotsVary.length_eq {slots slots' : List Slot} (h : SlotsVary V slots slots') :
    slots'.length = slots.length := by
  induction slots generalizing slots' with
  | nil => cases h; rfl
  | cons s slots ih =>
    cases h with
    | cons hs h => rw [List.length_cons, List.length_cons, ih h]

theorem isEmpty_of_stacked {e e' : Excerpt} {items items' : List Part}
    (h : Stacked V items.reverse items'.reverse) :
    (Slot.mk e' items').isEmpty = (Slot.mk e items).isEmpty := by
  have hnil := h.varyAll_reverse.eq_nil_iff
  rw [Bool.eq_iff_iff]
  simpa [Slot.isEmpty, Slot.items] using hnil

theorem SlotsVary.map_isEmpty {slots slots' : List Slot} (h : SlotsVary V slots slots') :
    slots'.map Slot.isEmpty = slots.map Slot.isEmpty := by
  induction slots generalizing slots' with
  | nil => cases h; rfl
  | cons s slots ih =>
    cases h with
    | cons hs h => rw [List.map_cons, List.map_cons, ih h, isEmpty_of_stacked hs]

theorem suppliedArguments_eq_of_map_isEmpty {slots slots' : List Slot}
    (h : slots'.map Slot.isEmpty = slots.map Slot.isEmpty) :
    suppliedArguments slots' = suppliedArguments slots := by
  match slots, slots' with
  | [], [] => rfl
  | [s], [s'] => simp_all [suppliedArguments]
  | _ :: _ :: _, _ :: _ :: _ => simpa [suppliedArguments] using congrArg List.length h
  | [], _ :: _ | _ :: _, [] | [_], _ :: _ :: _ | _ :: _ :: _, [_] => simp at h

theorem Part.Varies.supplied {p p' : Part} {hasLeft hasRight : Bool} (h : p.Varies V p')
    (hsupplied : p.Supplied hasLeft hasRight) : p'.Supplied hasLeft hasRight := by
  cases h with
  | operator => exact hsupplied
  | call h =>
    have hempty := h.map_isEmpty
    have hall : ∀ ss : List Slot, (∀ s ∈ ss, s.isEmpty = false) ↔
        ∀ b ∈ ss.map Slot.isEmpty, b = false := by simp
    obtain ⟨haccepts, hfull⟩ := hsupplied
    refine ⟨suppliedArguments_eq_of_map_isEmpty hempty ▸ haccepts, ?_⟩
    rw [h.length_eq, hall, hempty, ← hall]
    exact hfull
  | number | constant | free | replaced | group => trivial

/-- What a value needs does not depend on its neighbours. -/
theorem Part.Supplied.of_value {p : Part} {hasLeft hasRight hasLeft' hasRight' : Bool}
    (hvalue : p.isOperator = false) (h : p.Supplied hasLeft hasRight) :
    p.Supplied hasLeft' hasRight' := by
  cases p with
  | operator => cases hvalue
  | call => exact h
  | number | constant | free | group => trivial

/-- **A variation of a list that lacks nothing lacks nothing**: an operator that is written between
two values has both its operands. -/
theorem VaryAll.complete {afterValue : Bool} {items items' : List Part}
    (h : VaryAll V afterValue items items') (hcomplete : Complete afterValue items) :
    Complete afterValue items' := by
  induction h with
  | nil => trivial
  | @cons afterValue p p' ps ps' hp hrest ih =>
    have hempty : ps'.isEmpty = ps.isEmpty := Bool.eq_iff_iff.2 (by simpa using hrest.eq_nil_iff)
    refine ⟨?_, hp.isOperator_eq ▸ ih hcomplete.2⟩
    rw [hempty]
    exact hp.supplied hcomplete.1
  | product hop hvalue hp hrest ih =>
    obtain ⟨hsupplied, hcomplete⟩ := hcomplete
    rw [hvalue] at hcomplete
    refine ⟨⟨.inl rfl, .inl rfl⟩, (hp.supplied hsupplied).of_value ?_, ?_⟩
    · rw [hp.isOperator_eq, hvalue]
    · rw [hp.isOperator_eq, hvalue]
      exact ih hcomplete

/-- What holds of the parts of a list, and of operators, passes to a variation of the list. -/
theorem VaryAll.forall_mem {P P' : Part → Prop} {afterValue : Bool} {items items' : List Part}
    (h : VaryAll V afterValue items items')
    (hparts : ∀ p ∈ items, ∀ p', p.Varies V p' → P p → P' p')
    (hoperator : ∀ op e, P' (.operator op e)) (hitems : ∀ p ∈ items, P p) : ∀ p ∈ items', P' p := by
  induction h with
  | nil => simp
  | cons hp _ ih =>
    obtain ⟨hpart, hparts⟩ := List.forall_mem_cons.1 hparts
    obtain ⟨hitem, hitems⟩ := List.forall_mem_cons.1 hitems
    exact List.forall_mem_cons.2 ⟨hpart _ hp hitem, ih hparts hitems⟩
  | product _ _ hp _ ih =>
    obtain ⟨hpart, hparts⟩ := List.forall_mem_cons.1 hparts
    obtain ⟨hitem, hitems⟩ := List.forall_mem_cons.1 hitems
    exact List.forall_mem_cons.2
      ⟨hoperator _ _, List.forall_mem_cons.2 ⟨hpart _ hp hitem, ih hparts hitems⟩⟩

/-- The lists in the slots of a call are varied one by one. -/
theorem SlotsVary.forall_mem {slots slots' : List Slot} (h : SlotsVary V slots slots') :
    ∀ s' ∈ slots', ∃ s ∈ slots, VaryAll V false s.items s'.items := by
  induction slots generalizing slots' with
  | nil =>
    cases h
    simp
  | cons s slots ih =>
    cases h with
    | cons hs h =>
      refine List.forall_mem_cons.2 ⟨⟨_, List.mem_cons_self, hs.varyAll_reverse⟩, ?_⟩
      intro s' hs'
      obtain ⟨s, hmem, hvary⟩ := ih h s' hs'
      exact ⟨s, List.mem_cons_of_mem _ hmem, hvary⟩

/-- **A variation of a part in which nothing is wrong has nothing wrong in it.** -/
theorem Part.Varies.innerErrors_eq_nil {p p' : Part} (h : p.Varies V p')
    (hp : p.innerErrors [] = []) : p'.innerErrors [] = [] := by
  induction p using Part.induction generalizing p' with
  | number => cases h; simp
  | operator op e =>
    cases h
    exact innerErrors_ofSymbol (.operator op) _
  | constant literal expression e =>
    cases h
    exact innerErrors_ofSymbol (.constant literal expression) _
  | free literal e =>
    cases h with
    | free => exact innerErrors_ofSymbol (.free literal) _
    | replaced => simp [Complete, Part.Supplied]
  | group e items ih =>
    cases h with
    | group h =>
      have hvary := h.varyAll_reverse
      simp only [innerErrors_group, innerErrorsAll_eq_nil_iff] at hp ⊢
      refine ⟨hvary.forall_mem ?_ ?_ hp.1, hvary.complete hp.2⟩
      · exact fun p hp p' hvaries => ih p hp hvaries
      · exact fun op e => innerErrors_ofSymbol (.operator op) e
  | call f e slots ih =>
    cases h with
    | call h =>
      simp only [innerErrors_call, slotErrors_eq_nil_iff] at hp ⊢
      intro s' hs'
      obtain ⟨⟨e, items⟩, hs, hvary⟩ := h.forall_mem s' hs'
      obtain ⟨e', items'⟩ := s'
      have hslot := hp _ hs
      simp only [errors_slot, innerErrorsAll_eq_nil_iff] at hslot ⊢
      refine ⟨hvary.forall_mem ?_ ?_ hslot.1, hvary.complete hslot.2⟩
      · exact fun p hp p' hvaries => ih _ hs p hp hvaries
      · exact fun op e => innerErrors_ofSymbol (.operator op) e

theorem VaryAll.innerErrors_eq_nil {items items' : List Part} (h : VaryAll V false items items')
    (hitems : ∀ p ∈ items, p.innerErrors [] = []) : ∀ p ∈ items', p.innerErrors [] = [] :=
  h.forall_mem (fun _ _ _ hvaries => hvaries.innerErrors_eq_nil)
    (fun op e => innerErrors_ofSymbol (.operator op) e) hitems

/-! ## Symbols -/

/-- The symbol that a part is written with. -/
def Part.symbol? : Part → Option Symbol
  | .operator op _ => some (.operator op)
  | .constant literal expression _ => some (.constant literal expression)
  | .free literal _ => some (.free literal)
  | .call f _ _ => some (.function f)
  | _ => none

section Symbols

variable {α : Type} {g g' : Symbol → Option α}

/-- What a function of symbols finds in a list of parts. -/
def foundIn (g : Symbol → Option α) (parts : List Part) : List α :=
  parts.filterMap fun p => p.symbol?.bind g

theorem mem_foundIn {a : α} {parts : List Part} :
    a ∈ foundIn g parts ↔ ∃ p ∈ parts, ∃ s, p.symbol? = some s ∧ g s = some a := by
  simp [foundIn, Option.bind_eq_some_iff]

/-- A function that does not find a value any more. -/
def excluding [DecidableEq α] (g : Symbol → Option α) (a : α) : Symbol → Option α :=
  fun s => if g s = some a then none else g s

theorem excluding_eq_none [DecidableEq α] {a : α} {s : Symbol} (h : g s = some a) :
    excluding g a s = none := if_pos h

theorem excluding_of_ne [DecidableEq α] {a : α} {s : Symbol} (h : g s ≠ some a) :
    excluding g a s = g s := if_neg h

theorem mem_foundIn_excluding [DecidableEq α] {a b : α} {parts : List Part} :
    b ∈ foundIn (excluding g a) parts ↔ b ∈ foundIn g parts ∧ b ≠ a := by
  have hone : ∀ s : Symbol, excluding g a s = some b ↔ g s = some b ∧ b ≠ a := by
    intro s
    by_cases hfound : g s = some a
    · simp [excluding_eq_none hfound, hfound, eq_comm]
    · rw [excluding_of_ne hfound]
      constructor
      · intro h
        exact ⟨h, fun heq => hfound (heq ▸ h)⟩
      · exact And.left
  simp only [mem_foundIn, hone]
  tauto

theorem foundIn_append (xs ys : List Part) : foundIn g (xs ++ ys) = foundIn g xs ++ foundIn g ys :=
  List.filterMap_append

theorem VaryAll.foundIn_eq {afterValue : Bool} {items items' : List Part}
    (h : VaryAll V afterValue items items')
    (hproduct : ∀ op, V.product? = some op → g' (.operator op) = none)
    (hparts : ∀ p ∈ items, ∀ p', p.Varies V p' → foundIn g' p'.walk = foundIn g p.walk) :
    foundIn g' (walkAll items') = foundIn g (walkAll items) := by
  induction h with
  | nil => rfl
  | cons hp _ ih =>
    obtain ⟨hpart, hparts⟩ := List.forall_mem_cons.1 hparts
    rw [walkAll_cons, walkAll_cons, foundIn_append, foundIn_append, hpart _ hp, ih hparts]
  | @product _ _ _ _ op e hop _ hp _ ih =>
    obtain ⟨hpart, hparts⟩ := List.forall_mem_cons.1 hparts
    have hnone : foundIn g' (Part.operator op e).walk = [] := by
      simp [foundIn, Part.walk, Part.symbol?, hproduct _ hop]
    rw [walkAll_cons, walkAll_cons, walkAll_cons, foundIn_append, foundIn_append, foundIn_append,
      hnone, hpart _ hp, ih hparts, List.nil_append]

theorem SlotsVary.foundIn_eq {slots slots' : List Slot} (h : SlotsVary V slots slots')
    (hproduct : ∀ op, V.product? = some op → g' (.operator op) = none)
    (hparts : ∀ s ∈ slots, ∀ p ∈ s.items, ∀ p', p.Varies V p' →
      foundIn g' p'.walk = foundIn g p.walk) :
    foundIn g' (walkSlots slots') = foundIn g (walkSlots slots) := by
  induction slots generalizing slots' with
  | nil =>
    cases h
    rfl
  | cons s slots ih =>
    cases h with
    | cons hs h =>
      obtain ⟨hslot, hslots⟩ := List.forall_mem_cons.1 hparts
      have hlist := hs.varyAll_reverse.foundIn_eq hproduct hslot
      rw [walkSlots_cons, walkSlots_cons, foundIn_append, foundIn_append, ih h hslots]
      exact congrArg (· ++ _) hlist

theorem foundIn_cons (p : Part) (ps : List Part) :
    foundIn g (p :: ps) = (p.symbol?.bind g).toList ++ foundIn g ps := by
  rw [foundIn, List.filterMap_cons, foundIn]
  cases p.symbol?.bind g <;> rfl

/-- **The symbols of a variation** are those of the formula, but for variables that are replaced and
operators that are written between values. -/
theorem Part.Varies.foundIn_eq {p p' : Part} (h : p.Varies V p')
    (hstays : ∀ s, (∀ literal, s = .free literal → V.number? literal = none) → g' s = g s)
    (hreplaced : ∀ literal, V.number? literal ≠ none → g (.free literal) = none)
    (hproduct : ∀ op, V.product? = some op → g' (.operator op) = none) :
    foundIn g' p'.walk = foundIn g p.walk := by
  induction p using Part.induction generalizing p' with
  | number e =>
    cases h
    rfl
  | operator op e =>
    cases h
    have hsame : g' (.operator op) = g (.operator op) := hstays (.operator op) (by simp)
    simp only [Part.walk, foundIn_cons]
    exact congrArg (·.toList ++ []) hsame
  | constant literal expression e =>
    cases h
    have hsame : g' (.constant literal expression) = g (.constant literal expression) :=
      hstays (.constant literal expression) (by simp)
    simp only [Part.walk, foundIn_cons]
    exact congrArg (·.toList ++ []) hsame
  | free literal e =>
    cases h with
    | free hnumber =>
      have hsame : g' (.free literal) = g (.free literal) := by
        apply hstays
        intro literal' heq
        obtain rfl := Symbol.free.inj heq
        exact hnumber
      simp only [Part.walk, foundIn_cons]
      exact congrArg (·.toList ++ []) hsame
    | replaced hnumber =>
      have hnone : g (.free literal) = none := hreplaced literal (by simp [hnumber])
      simp only [Part.walk, walkAll, foundIn_cons]
      simp [foundIn, Part.symbol?, hnone]
  | group e items ih =>
    cases h with
    | group h =>
      have hlist := h.varyAll_reverse.foundIn_eq hproduct fun p hp p' hvaries => ih p hp hvaries
      rw [Part.walk, Part.walk, foundIn_cons, foundIn_cons, hlist]
      rfl
  | call f e slots ih =>
    cases h with
    | call h =>
      have hslots := h.foundIn_eq hproduct fun s hs p hp p' hvaries => ih s hs p hp hvaries
      have hsame : g' (.function f) = g (.function f) := hstays (.function f) (by simp)
      rw [Part.walk, Part.walk, foundIn_cons, foundIn_cons, hslots]
      exact congrArg (·.toList ++ _) hsame

theorem VaryAll.foundIn_walkAll {afterValue : Bool} {items items' : List Part}
    (h : VaryAll V afterValue items items')
    (hstays : ∀ s, (∀ literal, s = .free literal → V.number? literal = none) → g' s = g s)
    (hreplaced : ∀ literal, V.number? literal ≠ none → g (.free literal) = none)
    (hproduct : ∀ op, V.product? = some op → g' (.operator op) = none) :
    foundIn g' (walkAll items') = foundIn g (walkAll items) :=
  h.foundIn_eq hproduct fun _ _ _ hvaries => hvaries.foundIn_eq hstays hreplaced hproduct

theorem filterMap_operation? (parts : List Part) :
    parts.filterMap Part.operation? = foundIn Symbol.operation? parts := by
  have hpart : ∀ p : Part, p.operation? = p.symbol?.bind Symbol.operation? := by
    intro p
    cases p <;> rfl
  rw [foundIn, funext hpart]

/-- The literal of a free variable. -/
def Symbol.freeName? : Symbol → Option Text
  | free literal => some literal
  | _ => none

theorem filterMap_freeName? (parts : List Part) :
    parts.filterMap Part.freeName? = foundIn Symbol.freeName? parts := by
  have hpart : ∀ p : Part, p.freeName? = p.symbol?.bind Symbol.freeName? := by
    intro p
    cases p <;> rfl
  rw [foundIn, funext hpart]

/-- The variables of a formula are those of its parts. -/
theorem mem_names_ofParse {p : Parse} {name : Text} :
    name ∈ (SymbolTable.ofParse p).names ↔ name ∈ foundIn Symbol.freeName? (walkAll p.items) := by
  have hmem : name ∈ p.freeVariables.map id ↔
      name ∈ ((walkAll p.items).filterMap Part.freeName?).map id := mem_map_distinctBy
  rw [List.map_id, List.map_id, filterMap_freeName?] at hmem
  exact hmem

/-- The literals of a table are those of the parts, and the one of the multiplication. -/
theorem mem_literals_ofParse {p : Parse} {literal : Text} :
    literal ∈ (SymbolTable.ofParse p).operations.map Operation.literal ↔
      literal ∈ foundIn (fun s => s.operation?.map Operation.literal) (walkAll p.items) ∨
        literal ∈ p.registry.multiplication?.toList.map Operator.literal := by
  have hliterals : (foundIn Symbol.operation? (walkAll p.items)).map Operation.literal =
      foundIn (fun s => s.operation?.map Operation.literal) (walkAll p.items) := by
    simp only [foundIn, List.map_filterMap, Option.map_bind]
    rfl
  simp only [SymbolTable.ofParse, mem_map_distinctBy, filterMap_operation?, List.map_append,
    List.map_map, hliterals, List.mem_append]
  rfl

end Symbols

/-! ## Empty lists -/

theorem VaryAll.exists_mem {afterValue : Bool} {items items' : List Part}
    (h : VaryAll V afterValue items items') : ∀ p ∈ items, ∃ p' ∈ items', p.Varies V p' := by
  induction h with
  | nil => simp
  | cons hp _ ih =>
    refine List.forall_mem_cons.2 ⟨⟨_, List.mem_cons_self, hp⟩, ?_⟩
    intro q hq
    obtain ⟨q', hmem, hvaries⟩ := ih q hq
    exact ⟨q', List.mem_cons_of_mem _ hmem, hvaries⟩
  | product _ _ hp _ ih =>
    refine List.forall_mem_cons.2 ⟨⟨_, List.mem_cons_of_mem _ List.mem_cons_self, hp⟩, ?_⟩
    intro q hq
    obtain ⟨q', hmem, hvaries⟩ := ih q hq
    exact ⟨q', List.mem_cons_of_mem _ (List.mem_cons_of_mem _ hmem), hvaries⟩

theorem SlotsVary.exists_mem {slots slots' : List Slot} (h : SlotsVary V slots slots') :
    ∀ s ∈ slots, ∃ s' ∈ slots', VaryAll V false s.items s'.items := by
  induction slots generalizing slots' with
  | nil => simp
  | cons s slots ih =>
    cases h with
    | cons hs h =>
      refine List.forall_mem_cons.2 ⟨⟨_, List.mem_cons_self, hs.varyAll_reverse⟩, ?_⟩
      intro u hu
      obtain ⟨u', hmem, hvary⟩ := ih h u hu
      exact ⟨u', List.mem_cons_of_mem _ hmem, hvary⟩

/-- An empty group is an empty group in a variation. -/
theorem Part.Varies.exists_empty {p p' : Part} (h : p.Varies V p') {e : Excerpt}
    (hempty : .group e [] ∈ p.walk) : ∃ e', .group e' [] ∈ p'.walk := by
  induction p using Part.induction generalizing p' with
  | number | operator | constant | free => simp [Part.walk] at hempty
  | group written items ih =>
    cases h with
    | @group _ written' _ items' h =>
      have hvary := h.varyAll_reverse
      rw [Part.walk, List.mem_cons] at hempty
      rcases hempty with heq | hinner
      · obtain ⟨-, rfl⟩ := Part.group.inj heq
        obtain rfl := hvary.eq_nil_iff.2 rfl
        exact ⟨written', mem_walk_self _⟩
      · obtain ⟨p, hp, hwalk⟩ := mem_walkAll.1 hinner
        obtain ⟨p', hmem, hvaries⟩ := hvary.exists_mem p hp
        obtain ⟨e', he'⟩ := ih p hp hvaries hwalk
        rw [Part.walk]
        exact ⟨e', List.mem_cons_of_mem _ (mem_walkAll.2 ⟨p', hmem, he'⟩)⟩
  | call f name slots ih =>
    cases h with
    | call h =>
      rw [Part.walk, List.mem_cons] at hempty
      rcases hempty with heq | hinner
      · cases heq
      · obtain ⟨s, hs, hwalk⟩ := mem_walkSlots.1 hinner
        obtain ⟨s', hs', hvary⟩ := h.exists_mem s hs
        obtain ⟨p, hp, hwalk⟩ := mem_walkAll.1 hwalk
        obtain ⟨p', hmem, hvaries⟩ := hvary.exists_mem p hp
        obtain ⟨e', he'⟩ := ih s hs p hp hvaries hwalk
        rw [Part.walk]
        exact ⟨e', List.mem_cons_of_mem _
          (mem_walkSlots.2 ⟨s', hs', mem_walkAll.2 ⟨p', hmem, he'⟩⟩)⟩

/-- **What is empty is empty in a variation.** -/
theorem VaryAll.holdsEmptyList {items items' : List Part} (h : VaryAll V false items items')
    (hempty : HoldsEmptyList items) : HoldsEmptyList items' := by
  rcases hempty with hnil | ⟨e, he⟩
  · exact .inl (h.eq_nil_iff.2 hnil)
  · obtain ⟨p, hp, hwalk⟩ := mem_walkAll.1 he
    obtain ⟨p', hmem, hvaries⟩ := h.exists_mem p hp
    obtain ⟨e', he'⟩ := hvaries.exists_empty hwalk
    exact .inr ⟨e', mem_walkAll.2 ⟨p', hmem, he'⟩⟩

end Formula

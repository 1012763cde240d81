import Formula.Proofs.Variation.Basic
import Formula.Proofs.Variation.Reduction

/-!
# Compiling a variation

If a formula can be compiled, a variation of it can be compiled too, and the two expressions have
the same shape.  The operator between two values that stand side by side is put there by the
compiler in the formula and by the writer in the variation, so the terms are the same.

What the two expressions have in common is left open: a relation `R` of expressions that holds of
constants, and passes from arguments to calls, holds of what the formula and its variation are
compiled to.  The tables of the two may number operations and variables in different ways.
-/

namespace Formula

/-- A relation between the expressions that are made with the symbols of two tables, in a formula
and in a variation of it. -/
structure Translates (V : Variation) (t t' : SymbolTable) (R : Expr → Expr → Prop) : Prop where
  /-- Constants are related to themselves. -/
  const : ∀ value, R (.const value) (.const value)
  /-- Calls of an operation with related arguments are related. -/
  call : ∀ f args args', List.Forall₂ R args args' →
    R (.call (t.operationIndex f) args) (.call (t'.operationIndex f) args')
  /-- A variable that stays is related to itself. -/
  free : ∀ name, V.number? name = none →
    R (.var (t.variableIndex name)) (.var (t'.variableIndex name))
  /-- A variable that is replaced is related to the value of the number in its place. -/
  replaced : ∀ name n, V.number? name = some n →
    ∃ value, constantValue n = .ok value ∧ R (.var (t.variableIndex name)) (.const value)
  /-- Neighbouring values are multiplied alike. -/
  multiplication : t'.multiplication? = t.multiplication?
  /-- What is written between values is the multiplication. -/
  product : ∀ op, V.product? = some op → t.multiplication? = some op

variable {V : Variation} {t t' : SymbolTable} {R : Expr → Expr → Prop}

theorem CompilesTo.compileTerms_eq {afterValue : Bool} {items : List Part} {terms : List Term}
    (h : CompilesTo t afterValue items terms) : compileTerms t afterValue items = .ok terms := by
  induction h with
  | nil => rw [compileTerms]
  | operator _ ih =>
    rw [compileTerms, ih]
    rfl
  | value hvalue hcompile _ ih =>
    rw [compileTerms_value hvalue, hcompile, ih]
    rfl
  | product hvalue hcompile hop _ ih =>
    rw [compileTerms_value hvalue, hcompile, ih, implicitMultiplication, if_pos rfl, hop]
    rfl

/-- **The terms of a variation** are those of the list, since a multiplication is one term whether it
is written or not. -/
theorem CompilesTo.exists_varied {afterValue : Bool} {items items' : List Part} {terms : List Term}
    (hR : Translates V t t' R) (h : CompilesTo t afterValue items terms)
    (hvary : VaryAll V afterValue items items')
    (hparts : ∀ p ∈ items, ∀ p' value, p.Varies V p' → p.compile t = .ok value →
      ∃ value', p'.compile t' = .ok value' ∧ R value value') :
    ∃ terms', CompilesTo t' afterValue items' terms' ∧
      List.Forall₂ (TermsMatch R) terms terms' := by
  induction h generalizing items' with
  | nil =>
    cases hvary
    exact ⟨[], .nil, .nil⟩
  | operator _ ih =>
    obtain ⟨-, hparts⟩ := List.forall_mem_cons.1 hparts
    cases hvary with
    | cons hp hvary =>
      cases hp with
      | operator =>
        obtain ⟨terms', hterms', hmatch⟩ := ih hvary hparts
        exact ⟨_, .operator hterms', .cons (.operator _ _ _) hmatch⟩
    | product _ hvalue => cases hvalue
  | value hvalue hcompile _ ih =>
    obtain ⟨hpart, hparts⟩ := List.forall_mem_cons.1 hparts
    cases hvary with
    | cons hp hvary =>
      rw [hvalue] at hvary
      obtain ⟨value', hcompile', hrelated⟩ := hpart _ _ hp hcompile
      obtain ⟨terms', hterms', hmatch⟩ := ih hvary hparts
      exact ⟨_, .value (hp.isOperator_eq.trans hvalue) hcompile' hterms',
        .cons (.value (.operand hrelated)) hmatch⟩
  | product hvalue hcompile hop _ ih =>
    obtain ⟨hpart, hparts⟩ := List.forall_mem_cons.1 hparts
    cases hvary with
    | cons hp hvary =>
      rw [hvalue] at hvary
      obtain ⟨value', hcompile', hrelated⟩ := hpart _ _ hp hcompile
      obtain ⟨terms', hterms', hmatch⟩ := ih hvary hparts
      exact ⟨_, .product (hp.isOperator_eq.trans hvalue) hcompile' (hR.multiplication.trans hop)
        hterms', .cons (.operator _ _ _) (.cons (.value (.operand hrelated)) hmatch)⟩
    | product hop' _ hp hvary =>
      obtain rfl := Option.some.inj (hop.symm.trans (hR.product _ hop'))
      obtain ⟨value', hcompile', hrelated⟩ := hpart _ _ hp hcompile
      obtain ⟨terms', hterms', hmatch⟩ := ih hvary hparts
      exact ⟨_, .operator (.value (hp.isOperator_eq.trans hvalue) hcompile' hterms'),
        .cons (.operator _ _ _) (.cons (.value (.operand hrelated)) hmatch)⟩

theorem TreesMatch.toExpr (hR : Translates V t t' R) {tree tree' : OperatorTree}
    (h : TreesMatch R tree tree') :
    R (tree.toExpr t.operationIndex) (tree'.toExpr t'.operationIndex) := by
  induction h with
  | operand h => exact h
  | absent value => exact hR.const value
  | apply op start start' _ _ ihleft ihright =>
    exact hR.call op.operation _ _ (.cons ihleft (.cons ihright .nil))

/-- **The trees of a sibling list and of its variation match.** -/
theorem exists_operatorTree_varied (hR : Translates V t t' R) {items items' : List Part}
    (hvary : VaryAll V false items items')
    (hparts : ∀ p ∈ items, ∀ p' value, p.Varies V p' → p.compile t = .ok value →
      ∃ value', p'.compile t' = .ok value' ∧ R value value')
    {start : Nat} {tree : OperatorTree} (h : operatorTree t start items = .ok tree) (start' : Nat) :
    ∃ tree', operatorTree t' start' items' = .ok tree' ∧ TreesMatch R tree tree' := by
  obtain ⟨terms, hterms, htree⟩ := bind_eq_ok_iff.1 h
  obtain ⟨terms', hterms', hmatch⟩ :=
    (compilesTo_of_compileTerms hterms).exists_varied hR hvary hparts
  obtain ⟨tree', htree', hmatch⟩ := reduce_match hmatch htree start'
  exact ⟨tree', bind_eq_ok_iff.2 ⟨terms', hterms'.compileTerms_eq, htree'⟩, hmatch⟩

theorem defaultArguments_eq_ok {f : Text} {start index : Nat} {parameters : List PlacedParameter}
    {values : List Expr} (h : defaultArguments f start index parameters = .ok values)
    (start' : Nat) : defaultArguments f start' index parameters = .ok values := by
  induction parameters generalizing index values with
  | nil => exact h
  | cons p parameters ih =>
    rw [defaultArguments] at h ⊢
    split at h
    · rename_i habsorbing
      rw [if_pos habsorbing]
      exact h
    · rename_i habsorbing
      rw [if_neg habsorbing]
      split at h
      · cases h
      · obtain ⟨value, hvalue, h⟩ := bind_eq_ok_iff.1 h
        obtain ⟨rest, hrest, h⟩ := bind_eq_ok_iff.1 h
        exact bind_eq_ok_iff.2 ⟨value, readLiteral_eq_ok hvalue start',
          bind_eq_ok_iff.2 ⟨rest, ih hrest, h⟩⟩

/-- The default values of a call are constants. -/
theorem forall₂_defaultArguments (hconst : ∀ value, R (.const value) (.const value)) {f : Text}
    {start index : Nat} {parameters : List PlacedParameter} {values : List Expr}
    (h : defaultArguments f start index parameters = .ok values) :
    List.Forall₂ R values values := by
  induction parameters generalizing index values with
  | nil =>
    obtain rfl := Except.ok.inj h
    exact .nil
  | cons p parameters ih =>
    rw [defaultArguments] at h
    split at h
    · obtain rfl := Except.ok.inj h
      exact .nil
    · split at h
      · cases h
      · obtain ⟨value, -, h⟩ := bind_eq_ok_iff.1 h
        obtain ⟨rest, hrest, h⟩ := bind_eq_ok_iff.1 h
        obtain rfl := Except.ok.inj h
        exact .cons (hconst value) (ih hrest)

theorem exists_compileSlots_varied (hR : Translates V t t' R) {slots slots' : List Slot}
    (h : SlotsVary V slots slots')
    (hparts : ∀ s ∈ slots, ∀ p ∈ s.items, ∀ p' value, p.Varies V p' → p.compile t = .ok value →
      ∃ value', p'.compile t' = .ok value' ∧ R value value')
    {values : List Expr} (hvalues : compileSlots t slots = .ok values) :
    ∃ values', compileSlots t' slots' = .ok values' ∧ List.Forall₂ R values values' := by
  induction slots generalizing slots' values with
  | nil =>
    cases h
    rw [compileSlots] at hvalues
    obtain rfl := Except.ok.inj hvalues
    exact ⟨[], by rw [compileSlots], .nil⟩
  | cons s slots ih =>
    cases h with
    | cons hs h =>
      obtain ⟨hslot, hslots⟩ := List.forall_mem_cons.1 hparts
      rw [compileSlots] at hvalues
      obtain ⟨value, hvalue, hvalues⟩ := bind_eq_ok_iff.1 hvalues
      obtain ⟨rest, hrest, hvalues⟩ := bind_eq_ok_iff.1 hvalues
      obtain rfl := Except.ok.inj hvalues
      obtain ⟨rest', hrest', hmatch⟩ := ih h hslots hrest
      rw [Slot.compile_eq] at hvalue
      obtain ⟨tree, htree, rfl⟩ := map_eq_ok_iff.1 hvalue
      obtain ⟨tree', htree', htrees⟩ :=
        exists_operatorTree_varied hR hs.varyAll_reverse hslot htree _
      refine ⟨tree'.toExpr t'.operationIndex :: rest', ?_, .cons (htrees.toExpr hR) hmatch⟩
      rw [compileSlots, Slot.compile_eq]
      exact bind_eq_ok_iff.2 ⟨_, map_eq_ok_iff.2 ⟨tree', htree', rfl⟩,
        bind_eq_ok_iff.2 ⟨rest', hrest', rfl⟩⟩

/-- A number in parentheses is compiled to its value. -/
theorem compile_group_number {outer inner : Excerpt} {value : Float}
    (h : constantValue inner.text = .ok value) :
    (Part.group outer [.number inner]).compile t = .ok (.const value) := by
  have hnumber : (Part.number inner).compile t = .ok (.const value) := by
    rw [Part.compile, readLiteral, h]
    rfl
  have hterms : CompilesTo t false [.number inner] [.value (.operand (.const value))] :=
    .value rfl hnumber .nil
  rw [compile_group, operatorTree, hterms.compileTerms_eq]
  rfl

/-- **The expressions of a part and of its variation are related.** -/
theorem Part.Varies.compile (hR : Translates V t t' R) {p p' : Part} (h : p.Varies V p')
    {value : Expr} (hvalue : p.compile t = .ok value) :
    ∃ value', p'.compile t' = .ok value' ∧ R value value' := by
  induction p using Part.induction generalizing p' value with
  | number e =>
    cases h with
    | number htext =>
      rw [Part.compile] at hvalue ⊢
      obtain ⟨x, hx, rfl⟩ := map_eq_ok_iff.1 hvalue
      exact ⟨.const x, map_eq_ok_iff.2 ⟨x, htext ▸ readLiteral_eq_ok hx _, rfl⟩, hR.const x⟩
  | operator op e =>
    rw [Part.compile] at hvalue
    cases hvalue
  | constant literal expression e =>
    cases h
    rw [Part.compile] at hvalue ⊢
    obtain ⟨x, hx, rfl⟩ := map_eq_ok_iff.1 hvalue
    exact ⟨.const x, map_eq_ok_iff.2 ⟨x, readLiteral_eq_ok hx _, rfl⟩, hR.const x⟩
  | free literal e =>
    rw [Part.compile] at hvalue
    obtain rfl := Except.ok.inj hvalue
    cases h with
    | free hstays => exact ⟨_, by rw [Part.compile], hR.free literal hstays⟩
    | replaced hnumber =>
      obtain ⟨x, hx, hrelated⟩ := hR.replaced literal _ hnumber
      exact ⟨.const x, compile_group_number hx, hrelated⟩
  | group e items ih =>
    cases h with
    | group h =>
      rw [compile_group] at hvalue
      obtain ⟨tree, htree, rfl⟩ := map_eq_ok_iff.1 hvalue
      obtain ⟨tree', htree', htrees⟩ := exists_operatorTree_varied hR h.varyAll_reverse
        (fun p hp p' value hvaries hcompile => ih p hp hvaries hcompile) htree _
      refine ⟨_, ?_, htrees.toExpr hR⟩
      rw [compile_group]
      exact map_eq_ok_iff.2 ⟨tree', htree', rfl⟩
  | call f e slots ih =>
    cases h with
    | @call _ _ e' _ slots' h =>
      obtain ⟨supplied, missing, hsupplied, hmissing, rfl⟩ := compile_call_eq_ok hvalue
      have hcount : suppliedArguments slots' = suppliedArguments slots :=
        suppliedArguments_eq_of_map_isEmpty h.map_isEmpty
      obtain ⟨supplied', hsupplied', hmatch⟩ : ∃ supplied',
          (if suppliedArguments slots = 0 then .ok [] else compileSlots t' slots') =
            Except.ok supplied' ∧ List.Forall₂ R supplied supplied' := by
        split at hsupplied
        · rename_i hzero
          obtain rfl := Except.ok.inj hsupplied
          exact ⟨[], if_pos hzero, .nil⟩
        · rename_i hne
          obtain ⟨supplied', hsupplied', hmatch⟩ := exists_compileSlots_varied hR h
            (fun s hs p hp p' value hvaries hcompile => ih s hs p hp hvaries hcompile) hsupplied
          exact ⟨supplied', (if_neg hne).trans hsupplied', hmatch⟩
      have hmissing' : missingArguments f e'.start (suppliedArguments slots) = .ok missing :=
        defaultArguments_eq_ok hmissing _
      refine ⟨.call (t'.operationIndex f) (supplied' ++ missing), ?_, ?_⟩
      · rw [compile_call, hcount]
        exact bind_eq_ok_iff.2 ⟨supplied', hsupplied', bind_eq_ok_iff.2 ⟨missing, hmissing', rfl⟩⟩
      · exact hR.call f _ _ (List.rel_append hmatch (forall₂_defaultArguments hR.const hmissing))

/-- **A formula and its variation are compiled to related expressions.** -/
theorem exists_compile_varied {p p' : Parse} (hR : Translates V (.ofParse p) (.ofParse p') R)
    (hvary : VaryAll V false p.items p'.items) (hclean : p'.isClean = true) {f : CompiledFormula}
    (h : compile p = .ok f) :
    ∃ root, compile p' = .ok ⟨root, (SymbolTable.ofParse p').operations,
      (SymbolTable.ofParse p').names⟩ ∧ R f.root root := by
  obtain ⟨-, tree, htree, rfl⟩ := builds_of_compile h
  obtain ⟨tree', htree', htrees⟩ := exists_operatorTree_varied hR hvary
    (fun p _ p' value hvaries hcompile => hvaries.compile hR hcompile) (htree 0) 0
  refine ⟨tree'.toExpr (SymbolTable.ofParse p').operationIndex, ?_, htrees.toExpr hR⟩
  rw [Parse.isClean] at hclean
  rw [Formula.compile, if_pos hclean]
  exact bind_eq_ok_iff.2 ⟨tree', htree', rfl⟩

end Formula

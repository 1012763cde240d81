import Formula.Evaluator
import Formula.Proofs.Arity
import Formula.Proofs.Tiling

/-!
# The tables of a compiled formula

A compiled formula refers to its variables and operations by their indices in two tables.  The names
are the free variables of the formula, each once, in the order in which they first occur.  The
variables of the expression, from left to right, are those of the formula: the reduction changes
which operands belong together, but not their order, and what is filled in has no variables.

All indices are in range.  An evaluation that fails at an index without an entry (`evalWithin?`)
therefore never fails if there is a value for each name.
-/

namespace Formula

section Distinct

variable {α κ : Type} [DecidableEq κ]

/-- What is left out of a list does not matter to first occurrences with other keys. -/
theorem filter_distinctBy (key : α → κ) (k : κ) (l : List α) :
    (distinctBy key l).filter (key · ≠ k) = distinctBy key (l.filter (key · ≠ k)) := by
  induction l with
  | nil => rfl
  | cons a l ih =>
    by_cases hk : key a = k
    · subst hk
      rw [distinctBy, List.filter_cons_of_neg (by simp), List.filter_cons_of_neg (by simp), ← ih,
        List.filter_filter]
      simp only [Bool.and_self]
    · have ha : decide (key a ≠ k) = true := by simpa using hk
      rw [distinctBy, List.filter_cons_of_pos (by exact ha), List.filter_cons_of_pos (by exact ha),
        distinctBy, ← ih, List.filter_filter, List.filter_filter]
      simp only [Bool.and_comm]

/-- The keys of first occurrences are the keys without repetition, in the same order. -/
theorem map_distinctBy [BEq κ] [LawfulBEq κ] (key : α → κ) (l : List α) :
    (distinctBy key l).map key = (l.map key).eraseDups := by
  induction hlength : l.length using Nat.strong_induction_on generalizing l with
  | _ n ih =>
    cases l with
    | nil => rfl
    | cons a l =>
      have hshorter : (l.filter (key · ≠ key a)).length < n := by
        rw [← hlength, List.length_cons]
        exact Nat.lt_succ_of_le (List.length_filter_le _ _)
      have hrest := ih _ hshorter _ rfl
      rw [distinctBy, List.map_cons, filter_distinctBy, hrest, List.map_cons, List.eraseDups_cons,
        List.filter_map]
      congr 3
      refine List.filter_congr fun b _ => ?_
      simp [Function.comp_apply, beq_eq_decide]

end Distinct

mutual

/-- The indices of the variables of an expression, from left to right. -/
def Expr.variableIndices : Expr → List Nat
  | .const _ => []
  | .var i => [i]
  | .call _ args => Expr.variableIndicesAll args

/-- The indices of the variables of several expressions. -/
def Expr.variableIndicesAll : List Expr → List Nat
  | [] => []
  | e :: es => e.variableIndices ++ Expr.variableIndicesAll es

end

@[simp] theorem Expr.variableIndices_const (value : Float) :
    (Expr.const value).variableIndices = [] := by
  rw [variableIndices]

@[simp] theorem Expr.variableIndices_var (i : Nat) : (Expr.var i).variableIndices = [i] := by
  rw [variableIndices]

@[simp] theorem Expr.variableIndicesAll_eq_flatMap (es : List Expr) :
    Expr.variableIndicesAll es = es.flatMap variableIndices := by
  induction es with
  | nil => rfl
  | cons e es ih => rw [variableIndicesAll, ih, List.flatMap_cons]

@[simp] theorem Expr.variableIndices_call (i : Nat) (args : List Expr) :
    (Expr.call i args).variableIndices = args.flatMap variableIndices := by
  rw [variableIndices, variableIndicesAll_eq_flatMap]

/-- The variables of an operand or operator of a tree. -/
def Term.variableIndices : Term → List Nat
  | .value (.operand e) => e.variableIndices
  | _ => []

/-- The variables of a tree are those of its operands, in order. -/
theorem variableIndices_toExpr (index : Operation → Nat) (tree : OperatorTree) :
    (tree.toExpr index).variableIndices = tree.inOrder.flatMap Term.variableIndices := by
  induction tree with
  | operand e => simp [OperatorTree.toExpr, OperatorTree.inOrder, Term.variableIndices]
  | absent value => simp [OperatorTree.toExpr, OperatorTree.inOrder, Term.variableIndices]
  | apply op start left right ihl ihr =>
    simp [OperatorTree.toExpr, OperatorTree.inOrder, Term.variableIndices, ihl, ihr]

/-- Default values have no variables. -/
theorem variables_of_defaultArguments {f : Text} {start index : Nat} {ps : List PlacedParameter}
    {values : List Expr} (h : defaultArguments f start index ps = .ok values) :
    values.flatMap Expr.variableIndices = [] := by
  induction ps generalizing index values with
  | nil =>
    cases h
    rfl
  | cons p ps ih =>
    simp only [defaultArguments] at h
    split at h
    · cases h
      rfl
    · split at h
      · cases h
      · obtain ⟨value, -, h⟩ := bind_eq_ok_iff.1 h
        obtain ⟨rest, hrest, h⟩ := bind_eq_ok_iff.1 h
        cases h
        simp [ih hrest]

/-- The free variables of a sibling list, in the order in which they are written. -/
def freeNames (items : List Part) : List Text :=
  (walkAll items).filterMap Part.freeName?

/-- The free variables of an element of a sibling list. -/
def Piece.freeNames : Piece → List Text
  | value p => Formula.freeNames [p]
  | _ => []

@[simp] theorem freeNames_nil : freeNames [] = [] := rfl

theorem freeNames_cons (p : Part) (items : List Part) :
    freeNames (p :: items) = freeNames [p] ++ freeNames items := by
  simp [freeNames, walkAll]

theorem freeNames_group (e : Excerpt) (items : List Part) :
    freeNames [.group e items] = freeNames items := by
  simp [freeNames, walkAll, Part.walk, List.filterMap_cons, Part.freeName?]

theorem freeNames_call (f : Operation) (name : Excerpt) (slots : List Slot) :
    freeNames [.call f name slots] = slots.flatMap fun s => freeNames s.items := by
  have hslots : (walkSlots slots).filterMap Part.freeName? =
      slots.flatMap fun s => freeNames s.items := by
    induction slots with
    | nil => rfl
    | cons s slots ih => simp [walkSlots_cons, ih, freeNames]
  simp [freeNames, walkAll, Part.walk, List.filterMap_cons, Part.freeName?, hslots]

/-- What is spelled out of a list has the variables of the list. -/
theorem freeNames_spelledOut (afterValue : Bool) (items : List Part) :
    (spelledOut afterValue items).flatMap Piece.freeNames = freeNames items := by
  induction items generalizing afterValue with
  | nil => rfl
  | cons p items ih =>
    rw [freeNames_cons]
    by_cases hp : p.isOperator = true
    · obtain ⟨op, e, rfl⟩ := exists_of_isOperator hp
      have hop : freeNames [.operator op e] = [] := by
        simp [freeNames, walkAll, Part.walk, Part.freeName?]
      rw [hop, List.nil_append, ← ih false]
      cases afterValue <;> cases hempty : items.isEmpty <;>
        simp [spelledOut, hempty, Piece.freeNames]
    · rw [Bool.not_eq_true] at hp
      rw [spelledOut_value hp, ← ih true]
      cases afterValue <;> simp [Piece.freeNames]

variable {t : SymbolTable}

/-- **The variables of a list** are those of its parts. -/
theorem variables_of_becomes {pieces : List Piece} {w : List Term}
    (h : List.Forall₂ (Piece.Becomes t) pieces w)
    (hparts : ∀ p, .value p ∈ pieces → ∀ e, p.compile t = .ok e →
      e.variableIndices = (freeNames [p]).map t.variableIndex) :
    w.flatMap Term.variableIndices = (pieces.flatMap Piece.freeNames).map t.variableIndex := by
  induction h with
  | nil => rfl
  | @cons piece x pieces w hx _ ih =>
    rw [List.flatMap_cons, List.flatMap_cons, List.map_append,
      ih fun p hp => hparts p (List.mem_cons_of_mem _ hp)]
    congr 1
    cases hx with
    | value hcompile => exact hparts _ List.mem_cons_self _ hcompile
    | operator | multiplication | absent => rfl

section Formulas

variable {r : Registry} {text : Text}

theorem Builds.variableIndices (hclean : (parse r text).isClean = true) {l : List Part}
    (hl : SiblingList (parse r text).items l) {tree : OperatorTree}
    (h : Builds (.ofParse (parse r text)) l tree)
    (hparts : ∀ p ∈ l, ∀ e, p.compile (.ofParse (parse r text)) = .ok e →
      e.variableIndices = (freeNames [p]).map (SymbolTable.ofParse (parse r text)).variableIndex) :
    (tree.toExpr (SymbolTable.ofParse (parse r text)).operationIndex).variableIndices =
      (freeNames l).map (SymbolTable.ofParse (parse r text)).variableIndex := by
  rw [variableIndices_toExpr, variables_of_becomes (hl.becomes hclean h) fun p hp =>
    hparts p (mem_spelledOut_value hp).1, freeNames_spelledOut]

/-- The variables of slots are those of their lists. -/
theorem variables_of_compileSlots {slots : List Slot} {values : List Expr}
    (h : compileSlots t slots = .ok values)
    (hslots : ∀ s ∈ slots, ∀ e, s.compile t = .ok e →
      e.variableIndices = (freeNames s.items).map t.variableIndex) :
    values.flatMap Expr.variableIndices =
      (slots.flatMap fun s => freeNames s.items).map t.variableIndex := by
  induction slots generalizing values with
  | nil =>
    rw [compileSlots] at h
    cases h
    rfl
  | cons s slots ih =>
    obtain ⟨hs, hslots⟩ := List.forall_mem_cons.1 hslots
    rw [compileSlots] at h
    obtain ⟨value, hvalue, h⟩ := bind_eq_ok_iff.1 h
    obtain ⟨rest, hrest, h⟩ := bind_eq_ok_iff.1 h
    cases h
    rw [List.flatMap_cons, List.flatMap_cons, List.map_append, hs value hvalue, ih hrest hslots]

/-- **The variables of a part** are those that are written in it. -/
theorem Part.variables_of_compile (hclean : (parse r text).isClean = true) (p : Part)
    {l : List Part} (hl : SiblingList (parse r text).items l) (hp : p ∈ l) {e : Expr}
    (h : p.compile (.ofParse (parse r text)) = .ok e) :
    e.variableIndices = (freeNames [p]).map (SymbolTable.ofParse (parse r text)).variableIndex := by
  induction p using Part.induction generalizing l e with
  | number written =>
    rw [Part.compile] at h
    obtain ⟨value, -, rfl⟩ := map_eq_ok_iff.1 h
    simp [freeNames, walkAll, Part.walk, Part.freeName?]
  | constant literal expression written =>
    rw [Part.compile] at h
    obtain ⟨value, -, rfl⟩ := map_eq_ok_iff.1 h
    simp [freeNames, walkAll, Part.walk, Part.freeName?]
  | free literal written =>
    rw [Part.compile] at h
    cases h
    simp [freeNames, walkAll, Part.walk, Part.freeName?]
  | operator op written =>
    rw [Part.compile] at h
    cases h
  | group written items ih =>
    rw [Formula.compile_group] at h
    obtain ⟨tree, htree, rfl⟩ := map_eq_ok_iff.1 h
    rw [freeNames_group]
    refine (builds_of_operatorTree htree).variableIndices hclean (hl.group hp) ?_
    exact fun q hq e he => ih q hq (hl.group hp) hq he
  | call f name slots ih =>
    obtain ⟨supplied, missing, hsupplied, hmissing, rfl⟩ := compile_call_eq_ok h
    rw [Expr.variableIndices_call, List.flatMap_append, variables_of_defaultArguments hmissing,
      List.append_nil, freeNames_call]
    split at hsupplied
    · rename_i hzero
      cases hsupplied
      have hnone : (slots.flatMap fun s => freeNames s.items) = [] := by
        rw [List.flatMap_eq_nil_iff]
        intro s hs
        rw [(eq_singleton_of_suppliedArguments hzero hs).2, freeNames_nil]
      rw [hnone]
      rfl
    · refine variables_of_compileSlots hsupplied fun s hs e hcompile => ?_
      rw [Slot.compile_eq] at hcompile
      obtain ⟨tree, htree, rfl⟩ := map_eq_ok_iff.1 hcompile
      refine (builds_of_operatorTree htree).variableIndices hclean (hl.slot hp hs) ?_
      exact fun q hq e he => ih s hs q hq (hl.slot hp hs) hq he

/-- The variables of a compiled formula are those that are written in it. -/
theorem variables_of_compile {c : CompiledFormula} (h : compile (parse r text) = .ok c) :
    c.root.variableIndices = (freeNames (parse r text).items).map c.names.idxOf := by
  obtain ⟨hclean, tree, htree, rfl⟩ := builds_of_compile h
  exact htree.variableIndices hclean .whole fun p hp e he => p.variables_of_compile hclean .whole hp he

end Formulas

/-! ## Evaluation -/

mutual

/-- The value of an expression, if all of its indices have entries. -/
def Expr.evalWithin? (operations : List Operation) (values : List Float) : Expr → Option Float
  | .const value => some value
  | .var i => values[i]?
  | .call i args => do
    let f ← operations[i]?
    let args ← Expr.evalAllWithin? operations values args
    return f.native.apply args

/-- The values of several expressions, if all of their indices have entries. -/
def Expr.evalAllWithin? (operations : List Operation) (values : List Float) :
    List Expr → Option (List Float)
  | [] => some []
  | e :: es => do
    let value ← e.evalWithin? operations values
    let rest ← Expr.evalAllWithin? operations values es
    return value :: rest

end

/-- Whether all indices of an expression have entries. -/
def Expr.InRange (operations : List Operation) (values : List Float) (e : Expr) : Prop :=
  (∀ i ∈ e.variableIndices, i < values.length) ∧ ∀ i args, (i, args) ∈ e.calls → i < operations.length

theorem Expr.InRange.arguments {operations : List Operation} {values : List Float} {i : Nat}
    {args : List Expr} (h : (Expr.call i args).InRange operations values) :
    ∀ e ∈ args, e.InRange operations values := by
  obtain ⟨hvariables, hcalls⟩ := h
  rw [variableIndices_call] at hvariables
  rw [calls_call] at hcalls
  exact fun e he => ⟨fun j hj => hvariables j (List.mem_flatMap.2 ⟨e, he, hj⟩),
    fun j as hj => hcalls j as (List.mem_cons_of_mem _ (List.mem_flatMap.2 ⟨e, he, hj⟩))⟩

section Evaluation

variable {operations : List Operation} {values : List Float}

mutual

/-- **Evaluation with indices in range** finds an entry for each of them. -/
theorem Expr.evalWithin?_eq : ∀ e : Expr, e.InRange operations values →
    e.evalWithin? operations values = some (e.eval operations values)
  | .const value, _ => by rw [Expr.evalWithin?, Expr.eval]
  | .var i, h => by
    have hi : i < values.length := h.1 i (by simp)
    rw [Expr.evalWithin?, Expr.eval, List.getElem?_eq_getElem hi, Option.getD_some]
  | .call i args, h => by
    have hi : i < operations.length := h.2 i args (by simp)
    rw [Expr.evalWithin?, Expr.eval, Expr.evalAllWithin?_eq args h.arguments,
      List.getElem?_eq_getElem hi]
    rfl

theorem Expr.evalAllWithin?_eq : ∀ es : List Expr, (∀ e ∈ es, e.InRange operations values) →
    Expr.evalAllWithin? operations values es = some (Expr.evalAll operations values es)
  | [], _ => by rw [Expr.evalAllWithin?, Expr.evalAll]
  | e :: es, h => by
    obtain ⟨he, hes⟩ := List.forall_mem_cons.1 h
    rw [Expr.evalAllWithin?, Expr.evalAll, Expr.evalWithin?_eq e he, Expr.evalAllWithin?_eq es hes]
    rfl

end

end Evaluation

/-! ## Whole formulas -/

section Tables

variable {r : Registry} {text : Text} {c : CompiledFormula}

/-- The literals of the operators and calls of a sibling list, in the order in which they start. -/
def usedLiterals (items : List Part) : List Text :=
  ((walkAll items).filterMap Part.operation?).map Operation.literal

theorem names_of_compile {p : Parse} (h : compile p = .ok c) :
    c.names = p.freeVariables ∧ c.names = (freeNames p.items).eraseDups := by
  obtain ⟨-, tree, -, rfl⟩ := builds_of_compile h
  refine ⟨rfl, ?_⟩
  have hnames := map_distinctBy id (freeNames p.items)
  rw [List.map_id, List.map_id] at hnames
  exact hnames

theorem literals_of_compile (h : compile (parse r text) = .ok c) :
    c.operations.map Operation.literal =
      (usedLiterals (parse r text).items).eraseDups ++
        if r.multiplication?.isSome = true ∧ ['*'] ∉ usedLiterals (parse r text).items
        then [['*']] else [] := by
  obtain ⟨-, tree, -, rfl⟩ := builds_of_compile h
  have hoperations := map_distinctBy Operation.literal
    ((walkAll (parse r text).items).filterMap Part.operation? ++
      r.multiplication?.toList.map (·.operation))
  rw [List.map_append, List.eraseDups_append] at hoperations
  refine hoperations.trans (congrArg ((usedLiterals (parse r text).items).eraseDups ++ ·) ?_)
  rw [← usedLiterals]
  cases hmul : r.multiplication? with
  | none => simp [List.removeAll]
  | some op =>
    have hliteral : op.operation.literal = ['*'] := literal_of_multiplication? hmul
    by_cases hmem : ['*'] ∈ usedLiterals (parse r text).items
    · simp [List.removeAll, hliteral, hmem]
    · simp [List.removeAll, hliteral, hmem, List.eraseDups_cons]

/-- The variables are looked up where they are. -/
theorem getElem?_names (h : compile (parse r text) = .ok c) :
    c.root.variableIndices.map (c.names[·]?) = (freeNames (parse r text).items).map some := by
  rw [variables_of_compile h, List.map_map]
  refine List.map_congr_left fun name hname => ?_
  have hmem : name ∈ c.names := by
    rw [(names_of_compile h).2, List.mem_eraseDups]
    exact hname
  have hlt := List.idxOf_lt_length_of_mem hmem
  rw [Function.comp_apply, List.getElem?_eq_getElem hlt, List.getElem_idxOf]

/-- The indices of a compiled formula have entries. -/
theorem inRange_of_compile (h : compile (parse r text) = .ok c) {values : List Float}
    (hvalues : values.length = c.names.length) : c.root.InRange c.operations values := by
  refine ⟨?_, ?_⟩
  · intro i hi
    have hfound : c.names[i]? ∈ (freeNames (parse r text).items).map some := by
      rw [← getElem?_names h]
      exact List.mem_map_of_mem hi
    obtain ⟨name, -, hname⟩ := List.mem_map.1 hfound
    rw [hvalues]
    exact (List.getElem?_eq_some_iff.1 hname.symm).1
  · intro i args hmem
    obtain ⟨f, rfl, hinvoked⟩ := invokes_of_compile h i args hmem
    obtain ⟨hclean, tree, -, rfl⟩ := builds_of_compile h
    exact (List.getElem?_eq_some_iff.1 (getElem?_operationIndex hclean hinvoked)).1

/-- The free variables of a formula stand one after another. -/
theorem pairwise_start_freeNames (r : Registry) (text : Text) :
    ((walkAll (parse r text).items).filter (·.freeName?.isSome)).Pairwise
      fun p q => p.start < q.start := by
  have hfree : (walkAll (parse r text).items).filter (·.freeName?.isSome) =
      (spelledParts (parse r text).items).filter (·.freeName?.isSome) := by
    rw [spelledParts, List.filter_filter]
    refine List.filter_congr fun p _ => ?_
    cases p <;> rfl
  rw [hfree]
  exact ((pairwise_spelledParts r text).imp And.left).filter _

/-- **The tables of a compiled formula.**  The names are the free variables of the formula, each once,
and the variables of the expression, from left to right, are those of the formula, as they are
written.  The operations are those of the operators and calls of the formula, each once and in the
order in which they first occur, with the multiplication at the end if an operator is registered for
it and it is not among them.  All indices are in range, so that there is a value whenever there is
one for each name. -/
theorem tables_of_compile (r : Registry) (text : Text) (c : CompiledFormula)
    (h : compile (parse r text) = .ok c) :
    (c.names = (parse r text).freeVariables ∧
      c.names = (freeNames (parse r text).items).eraseDups ∧ c.names.Nodup) ∧
    (c.root.variableIndices.map (c.names[·]?) = (freeNames (parse r text).items).map some ∧
      ((walkAll (parse r text).items).filter (·.freeName?.isSome)).Pairwise
        fun p q => p.start < q.start) ∧
    (c.operations.map Operation.literal =
      (usedLiterals (parse r text).items).eraseDups ++
        (if r.multiplication?.isSome = true ∧ ['*'] ∉ usedLiterals (parse r text).items
        then [['*']] else []) ∧
      (r.multiplication?.isSome = true ↔ ∃ op, .operator op ∈ r.symbols ∧ op.literal = ['*']) ∧
      (c.operations.map Operation.literal).Nodup) ∧
    (∀ i ∈ c.root.variableIndices, i < c.names.length) ∧
    (∀ i args, (i, args) ∈ c.root.calls → i < c.operations.length) ∧
    ∀ values : List Float, values.length = c.names.length →
      c.root.evalWithin? c.operations values = some (c.eval values) ∧
      (Evaluator.ofParse (parse r text)).evaluate values = .ok (c.eval values) := by
  have hrange : ∀ values : List Float, values.length = c.names.length →
      c.root.InRange c.operations values := fun _ => inRange_of_compile h
  obtain ⟨hfree, hnames⟩ := names_of_compile h
  have hdistinct : c.names.Nodup ∧ (c.operations.map Operation.literal).Nodup := by
    obtain ⟨-, tree, -, rfl⟩ := builds_of_compile h
    exact ⟨pairwise_distinctBy id _, List.pairwise_map.2 (pairwise_distinctBy Operation.literal _)⟩
  have hzeros : (List.replicate c.names.length (0 : Float)).length = c.names.length :=
    List.length_replicate
  refine ⟨⟨hfree, hnames, hdistinct.1⟩, ⟨getElem?_names h, pairwise_start_freeNames r text⟩,
    ⟨literals_of_compile h, isSome_multiplication?_iff, hdistinct.2⟩, ?_, (hrange _ hzeros).2, ?_⟩
  · intro i hi
    rw [← hzeros]
    exact (hrange _ hzeros).1 i hi
  · intro values hvalues
    refine ⟨Expr.evalWithin?_eq _ (hrange values hvalues), ?_⟩
    simp only [Evaluator.evaluate, Evaluator.formula, Evaluator.ofParse, h, Except.mapError]
    change (if values.length = c.names.length then _ else _) = _
    rw [if_pos hvalues]
    rfl

/-- Three variables with two names, and a multiplication that is not written. -/
theorem tables_of_compile_max :
    ∃ c, compile (parse .standard "-max(y,x)y".toList) = .ok c ∧
      c.names = [['y'], ['x']] ∧
      c.root.variableIndices.map (c.names[·]?) = [some ['y'], some ['x'], some ['y']] ∧
      c.operations.map Operation.literal = [['-'], "max".toList, ['*']] := by
  have hok : (compile (parse .standard "-max(y,x)y".toList)).isOk = true := by decide +kernel
  have hfree : freeNames (parse .standard "-max(y,x)y".toList).items = [['y'], ['x'], ['y']] := by
    decide +kernel
  have hused : usedLiterals (parse .standard "-max(y,x)y".toList).items =
      [['-'], "max".toList] := by decide +kernel
  have hmul : Registry.standard.multiplication?.isSome = true := by decide +kernel
  obtain ⟨c, hc⟩ := exists_of_isOk hok
  obtain ⟨⟨-, hnames, -⟩, ⟨hvariables, -⟩, ⟨hliterals, -⟩, -⟩ := tables_of_compile .standard _ c hc
  rw [hfree] at hnames hvariables
  rw [hused, hmul] at hliterals
  exact ⟨c, hc, hnames.trans (by decide), hvariables, hliterals.trans (by decide)⟩

end Tables

end Formula

import Formula.Proofs.InOrder

/-!
# The arguments of native operations

A native operation of fixed arity does not look at the number of its arguments: a missing one is not
a number, and what is too much is ignored.  The declaration of an operation is compared with its
arity when it is registered, so in a compiled formula a call of a function has as many arguments as
the native operation takes, with two exceptions.  A declaration with an absorbing parameter is not
compared with anything, and an operator always gets two arguments, however many it declares.
-/

namespace Formula

mutual

/-- The calls in an expression: the index of the operation and its arguments. -/
def Expr.calls : Expr → List (Nat × List Expr)
  | .const _ => []
  | .var _ => []
  | .call i args => (i, args) :: Expr.callsAll args

/-- The calls in several expressions. -/
def Expr.callsAll : List Expr → List (Nat × List Expr)
  | [] => []
  | e :: es => e.calls ++ Expr.callsAll es

end

@[simp] theorem Expr.calls_const (value : Float) : (Expr.const value).calls = [] := by
  rw [calls]

@[simp] theorem Expr.calls_var (i : Nat) : (Expr.var i).calls = [] := by
  rw [calls]

@[simp] theorem Expr.callsAll_eq_flatMap (es : List Expr) : Expr.callsAll es = es.flatMap calls := by
  induction es with
  | nil => rfl
  | cons e es ih => rw [callsAll, ih, List.flatMap_cons]

@[simp] theorem Expr.calls_call (i : Nat) (args : List Expr) :
    (Expr.call i args).calls = (i, args) :: args.flatMap calls := by
  rw [calls, callsAll_eq_flatMap]

/-- A call in the expression of a tree is one in an operand or that of an operator. -/
theorem mem_calls_toExpr {index : Operation → Nat} {tree : OperatorTree} {i : Nat}
    {args : List Expr} (h : (i, args) ∈ (tree.toExpr index).calls) :
    (∃ e, .value (.operand e) ∈ tree.inOrder ∧ (i, args) ∈ e.calls) ∨
      ∃ op start, .operator op start ∈ tree.inOrder ∧ i = index op.operation ∧ args.length = 2 := by
  induction tree with
  | operand e => exact .inl ⟨e, by simp [OperatorTree.inOrder], h⟩
  | absent value => simp [OperatorTree.toExpr] at h
  | apply op start left right ihl ihr =>
    simp only [OperatorTree.toExpr, Expr.calls_call, List.mem_cons, List.flatMap_cons,
      List.flatMap_nil, List.append_nil, List.mem_append] at h
    simp only [OperatorTree.inOrder, List.mem_append, List.mem_cons]
    rcases h with heq | h | h
    · cases heq
      exact .inr ⟨op, start, .inr (.inl rfl), rfl, rfl⟩
    · rcases ihl h with ⟨e, he, h⟩ | ⟨op', start', hop, h⟩
      · exact .inl ⟨e, .inl he, h⟩
      · exact .inr ⟨op', start', .inl hop, h⟩
    · rcases ihr h with ⟨e, he, h⟩ | ⟨op', start', hop, h⟩
      · exact .inl ⟨e, .inr (.inr he), h⟩
      · exact .inr ⟨op', start', .inr (.inr hop), h⟩

/-- Default values call nothing. -/
theorem calls_of_defaultArguments {f : Text} {start index : Nat} {ps : List PlacedParameter}
    {values : List Expr} (h : defaultArguments f start index ps = .ok values) :
    ∀ e ∈ values, e.calls = [] := by
  induction ps generalizing index values with
  | nil =>
    cases h
    simp
  | cons p ps ih =>
    simp only [defaultArguments] at h
    split at h
    · cases h
      simp
    · split at h
      · cases h
      · obtain ⟨value, -, h⟩ := bind_eq_ok_iff.1 h
        obtain ⟨rest, hrest, h⟩ := bind_eq_ok_iff.1 h
        cases h
        exact List.forall_mem_cons.2 ⟨Expr.calls_const value, ih hrest⟩

/-- Without an absorbing parameter, all parameters are filled in. -/
theorem length_of_defaultArguments {f : Text} {start index : Nat} {ps : List PlacedParameter}
    {values : List Expr} (habsorbing : ∀ p ∈ ps, p.parameter.absorbing = false)
    (h : defaultArguments f start index ps = .ok values) : values.length = ps.length := by
  induction ps generalizing index values with
  | nil =>
    cases h
    rfl
  | cons p ps ih =>
    rw [List.forall_mem_cons] at habsorbing
    simp only [defaultArguments, habsorbing.1, Bool.false_eq_true, if_false] at h
    split at h
    · cases h
    · obtain ⟨value, -, h⟩ := bind_eq_ok_iff.1 h
      obtain ⟨rest, hrest, h⟩ := bind_eq_ok_iff.1 h
      cases h
      rw [List.length_cons, List.length_cons, ih habsorbing.2 hrest]

/-- An accepted call that is filled up has the largest number of arguments that it may have. -/
theorem length_of_missingArguments {f : Operation} {start n m : Nat} {values : List Expr}
    (hmax : f.signature.maximum? = some m) (haccepts : f.signature.accepts n = true)
    (h : missingArguments f start n = .ok values) : n + values.length = m := by
  simp only [Signature.accepts, hmax, Option.all_some, Bool.and_eq_true, decide_eq_true_eq]
    at haccepts
  rw [Signature.maximum?] at hmax
  split at hmax
  · cases hmax
  · rename_i hnone
    obtain rfl := Option.some.inj hmax
    have habsorbing : ∀ p ∈ f.signature.parameters, p.parameter.absorbing = false := by
      simpa using hnone
    have hlength := length_of_defaultArguments
      (fun p hp => habsorbing p (List.mem_of_mem_drop hp)) h
    rw [hlength, List.length_drop, Nat.add_sub_cancel' haccepts.2]

theorem accepts_of_le {s : Signature} {n k : Nat} (h : s.accepts n = true) (hle : n ≤ k)
    (hmax : ∀ m, s.maximum? = some m → k = m) : s.accepts k = true := by
  simp only [Signature.accepts, Bool.and_eq_true, decide_eq_true_eq] at h ⊢
  refine ⟨Nat.le_trans h.1 hle, ?_⟩
  cases hs : s.maximum? with
  | none => rfl
  | some m => simp [hmax m hs]

/-- The operations that a formula applies, and to how many arguments. -/
inductive Invoked (p : Parse) : Operation → Nat → Prop
  /-- A function, to the arguments that are supplied and those that are filled in. -/
  | function {f : Operation} {name : Excerpt} {slots : List Slot} {missing : List Expr} :
    .call f name slots ∈ walkAll p.items →
    missingArguments f name.start (suppliedArguments slots) = .ok missing →
    Invoked p f (suppliedArguments slots + missing.length)
  /-- An operator, to two operands. -/
  | operator {op : Operator} {e : Excerpt} : .operator op e ∈ walkAll p.items →
    Invoked p op.operation 2
  /-- The multiplication of values that stand side by side. -/
  | multiplication {op : Operator} : p.registry.multiplication? = some op → Invoked p op.operation 2

/-- Whether all calls in an expression are of operations that a formula applies. -/
def Expr.Invokes (p : Parse) (e : Expr) : Prop :=
  ∀ i args, (i, args) ∈ e.calls →
    ∃ f, i = (SymbolTable.ofParse p).operationIndex f ∧ Invoked p f args.length

section Invokes

variable {r : Registry} {text : Text}

theorem invokes_of_calls_eq_nil {p : Parse} {e : Expr} (h : e.calls = []) : e.Invokes p := by
  intro i args hmem
  rw [h] at hmem
  cases hmem

/-- What a sibling list calls is called in its parts or by its operators. -/
theorem Builds.invokes (hclean : (parse r text).isClean = true) {l : List Part}
    (hl : SiblingList (parse r text).items l) {tree : OperatorTree}
    (h : Builds (.ofParse (parse r text)) l tree)
    (hparts : ∀ p ∈ l, ∀ e, p.compile (.ofParse (parse r text)) = .ok e →
      e.Invokes (parse r text)) :
    (tree.toExpr (SymbolTable.ofParse (parse r text)).operationIndex).Invokes (parse r text) := by
  obtain ⟨hoperands, hoperators⟩ := origin_of_becomes (hl.becomes hclean h)
  intro i args hmem
  rcases mem_calls_toExpr hmem with ⟨e, he, hmem⟩ | ⟨op, start, hop, rfl, hlength⟩
  · obtain ⟨p, hp, -, hcompile⟩ := hoperands e he
    exact hparts p hp e hcompile i args hmem
  · refine ⟨op.operation, rfl, ?_⟩
    rw [hlength]
    rcases hoperators op start hop with ⟨e, he, -⟩ | hmul
    · exact .operator (mem_walkAll_iff.2 ⟨l, hl, he⟩)
    · exact .multiplication hmul

/-- What a part calls is applied by the formula. -/
theorem Part.invokes (hclean : (parse r text).isClean = true) (p : Part) {l : List Part}
    (hl : SiblingList (parse r text).items l) (hp : p ∈ l) {e : Expr}
    (h : p.compile (.ofParse (parse r text)) = .ok e) : e.Invokes (parse r text) := by
  induction p using Part.induction generalizing l e with
  | number written =>
    rw [Part.compile] at h
    obtain ⟨value, -, rfl⟩ := map_eq_ok_iff.1 h
    exact invokes_of_calls_eq_nil (Expr.calls_const value)
  | constant literal expression written =>
    rw [Part.compile] at h
    obtain ⟨value, -, rfl⟩ := map_eq_ok_iff.1 h
    exact invokes_of_calls_eq_nil (Expr.calls_const value)
  | free literal written =>
    rw [Part.compile] at h
    cases h
    exact invokes_of_calls_eq_nil (Expr.calls_var _)
  | operator op written =>
    rw [Part.compile] at h
    cases h
  | group written items ih =>
    rw [Formula.compile_group] at h
    obtain ⟨tree, htree, rfl⟩ := map_eq_ok_iff.1 h
    refine (builds_of_operatorTree htree).invokes hclean (hl.group hp) ?_
    exact fun q hq e he => ih q hq (hl.group hp) hq he
  | call f name slots ih =>
    obtain ⟨supplied, missing, hsupplied, hmissing, rfl⟩ := compile_call_eq_ok h
    intro i args hmem
    rw [Expr.calls_call, List.mem_cons, List.flatMap_append, List.mem_append] at hmem
    rcases hmem with heq | hmem | hmem
    · cases heq
      refine ⟨f, rfl, ?_⟩
      rw [List.length_append, length_supplied hsupplied]
      exact .function (mem_walkAll_iff.2 ⟨l, hl, hp⟩) hmissing
    · obtain ⟨value, hvalue, hmem⟩ := List.mem_flatMap.1 hmem
      split at hsupplied
      · cases hsupplied
        cases hvalue
      · obtain ⟨s, hs, hcompile⟩ := exists_slot_of_compileSlots hsupplied value hvalue
        rw [Slot.compile_eq] at hcompile
        obtain ⟨tree, htree, rfl⟩ := map_eq_ok_iff.1 hcompile
        refine (builds_of_operatorTree htree).invokes hclean (hl.slot hp hs) ?_ i args hmem
        exact fun q hq e he => ih s hs q hq (hl.slot hp hs) hq he
    · obtain ⟨value, hvalue, hmem⟩ := List.mem_flatMap.1 hmem
      rw [calls_of_defaultArguments hmissing value hvalue] at hmem
      cases hmem

/-- **What a compiled formula calls is applied by the formula.** -/
theorem invokes_of_compile {c : CompiledFormula} (h : compile (parse r text) = .ok c) :
    c.root.Invokes (parse r text) := by
  obtain ⟨hclean, tree, htree, rfl⟩ := builds_of_compile h
  exact htree.invokes hclean .whole fun p hp e he => p.invokes hclean .whole hp he

end Invokes

/-! ## The table of operations -/

section Table

variable {r : Registry} {text : Text}

/-- Operations of a registry with one literal are those of one symbol. -/
theorem operation_eq_of_literal_eq {s s' : Symbol} {f g : Operation} (hs : s ∈ r.symbols)
    (hs' : s' ∈ r.symbols) (hf : s.operation? = some f) (hg : s'.operation? = some g)
    (h : f.literal = g.literal) : f = g := by
  have hliteral : ∀ {s : Symbol} {f : Operation}, s.operation? = some f → s.literal = f.literal := by
    intro s f hf
    cases s <;> cases hf <;> rfl
  obtain rfl : s = s' := Registry.eq_of_key_eq hs hs'
    (by rw [Symbol.key, Symbol.key, hliteral hf, hliteral hg, h])
  exact Option.some.inj (hf.symm.trans hg)

/-- What a formula that has been read without errors applies is registered.  A function gets a number
of arguments that it may be called with, the largest if there is one, and an operator two. -/
theorem registered_of_invoked (hclean : (parse r text).isClean = true) {f : Operation} {n : Nat}
    (h : Invoked (parse r text) f n) :
    ∃ s ∈ r.symbols, s.operation? = some f ∧
      (s.isCallable = true → f.signature.accepts n = true ∧
        ∀ m, f.signature.maximum? = some m → n = m) ∧
      (s.isCallable = false → n = 2) := by
  cases h with
  | function hcall hmissing =>
    obtain ⟨hsound, hasLeft, hasRight, haccepts, -⟩ := sound_of_mem_walkAll hclean hcall
    refine ⟨.function f, hsound.call.1, rfl, ?_, by simp [Symbol.isCallable]⟩
    intro _
    have hlength := fun m hmax => length_of_missingArguments (m := m) hmax haccepts hmissing
    exact ⟨accepts_of_le haccepts (Nat.le_add_right _ _) hlength, hlength⟩
  | operator hop =>
    have hsound := (sound_of_mem_walkAll hclean hop).1
    exact ⟨.operator _, hsound.operator, rfl, by simp [Symbol.isCallable], fun _ => rfl⟩
  | multiplication hmul =>
    exact ⟨.operator _, mem_of_multiplication? hmul, rfl, by simp [Symbol.isCallable], fun _ => rfl⟩

/-- The operations of a table are registered. -/
theorem registered_of_mem_operations (hclean : (parse r text).isClean = true) {f : Operation}
    (h : f ∈ (SymbolTable.ofParse (parse r text)).operations) :
    ∃ s ∈ r.symbols, s.operation? = some f := by
  rcases List.mem_append.1 (mem_of_mem_distinctBy h) with h | h
  · obtain ⟨p, hp, hf⟩ := List.mem_filterMap.1 h
    have hsound := (sound_of_mem_walkAll hclean hp).1
    cases p with
    | operator op e => exact ⟨.operator op, hsound.operator, hf⟩
    | call f name slots => exact ⟨.function f, hsound.call.1, hf⟩
    | number | constant | free | group => cases hf
  · obtain ⟨op, hop, rfl⟩ := List.mem_map.1 h
    exact ⟨.operator op, mem_of_multiplication? (Option.mem_toList.1 hop), rfl⟩

/-- The operations that a formula applies are in its table. -/
theorem literal_mem_of_invoked {p : Parse} {f : Operation} {n : Nat} (h : Invoked p f n) :
    f.literal ∈ (SymbolTable.ofParse p).operations.map Operation.literal := by
  have hused : ∀ {q : Part}, q ∈ walkAll p.items → q.operation? = some f →
      f.literal ∈ (SymbolTable.ofParse p).operations.map Operation.literal := fun hq hf =>
    mem_map_distinctBy.2 (List.mem_map_of_mem
      (List.mem_append_left _ (List.mem_filterMap.2 ⟨_, hq, hf⟩)))
  cases h with
  | function hcall _ => exact hused hcall rfl
  | operator hop => exact hused hop rfl
  | multiplication hmul =>
    exact mem_map_distinctBy.2 (List.mem_map_of_mem (List.mem_append_right _ (by simp [hmul])))

/-- **An operation that a formula applies is found at its index.** -/
theorem getElem?_operationIndex (hclean : (parse r text).isClean = true) {f : Operation} {n : Nat}
    (h : Invoked (parse r text) f n) :
    (SymbolTable.ofParse (parse r text)).operations[
      (SymbolTable.ofParse (parse r text)).operationIndex f]? = some f := by
  obtain ⟨s, hs, hf, -⟩ := registered_of_invoked hclean h
  obtain ⟨g, hg, hliteral⟩ := List.mem_map.1 (literal_mem_of_invoked h)
  have hlt : (SymbolTable.ofParse (parse r text)).operationIndex f <
      (SymbolTable.ofParse (parse r text)).operations.length :=
    List.findIdx_lt_length_of_exists ⟨g, hg, by simpa using hliteral⟩
  rw [List.getElem?_eq_getElem hlt]
  obtain ⟨s', hs', hg⟩ := registered_of_mem_operations hclean (List.getElem_mem hlt)
  have hfound := of_decide_eq_true (List.findIdx_getElem (w := hlt))
  rw [operation_eq_of_literal_eq hs' hs hg hf hfound]

end Table

/-! ## Arity -/

/-- Whether the declaration of a symbol makes all its calls have as many arguments as its native
operation takes: it has no absorbing parameter, and two parameters if it is an operator. -/
def Symbol.isExact (s : Symbol) : Bool :=
  s.operation?.all fun f => f.native.arity.isNone ||
    (f.signature.maximum?.isSome && (s.isCallable || f.signature.parameters.length == 2))

/-- Whether the native operations that a compiled formula calls get as many arguments as they
take. -/
def CompiledFormula.matchesArity (c : CompiledFormula) : Bool :=
  c.root.calls.all fun (i, args) =>
    c.operations[i]?.all fun f => f.native.arity.all (args.length = ·)

/-- A registered operation declares as many parameters as its native operation takes. -/
theorem maximum?_eq_arity {r : Registry} {s : Symbol} {f : Operation} {n m : Nat}
    (hs : s ∈ r.symbols) (hf : s.operation? = some f) (harity : f.native.arity = some n)
    (hmax : f.signature.maximum? = some m) : m = n := by
  have hflaw : f.flaw? = none := by
    have hsound := r.sound s hs
    rw [Symbol.flaw?.eq_def] at hsound
    split at hsound
    · cases hsound
    · cases s <;> cases hf <;> exact hsound
  rw [Operation.flaw?, harity, hmax] at hflaw
  by_contra hne
  simp [hne] at hflaw

/-- The calls of exactly declared symbols have the arity of the native operation. -/
theorem eq_arity_of_isExact {r : Registry} {s : Symbol} {f : Operation} {k n : Nat}
    (hs : s ∈ r.symbols) (hf : s.operation? = some f) (hexact : s.isExact = true)
    (hcallable : s.isCallable = true → f.signature.accepts k = true ∧
      ∀ m, f.signature.maximum? = some m → k = m)
    (hoperator : s.isCallable = false → k = 2) (harity : f.native.arity = some n) : k = n := by
  simp only [Symbol.isExact, hf, Option.all_some, harity, Option.isNone_some, Bool.false_or,
    Bool.and_eq_true, Bool.or_eq_true, beq_iff_eq] at hexact
  obtain ⟨m, hmax⟩ := Option.isSome_iff_exists.1 hexact.1
  have hmn : m = n := maximum?_eq_arity hs hf harity hmax
  by_cases hcall : s.isCallable = true
  · rw [(hcallable hcall).2 m hmax, hmn]
  · have htwo : f.signature.parameters.length = 2 := hexact.2.resolve_left hcall
    have hlength : f.signature.parameters.length = m := by
      rw [Signature.maximum?] at hmax
      split at hmax
      · cases hmax
      · exact Option.some.inj hmax
    rw [hoperator (by simpa using hcall), ← htwo, hlength, hmn]

/-- **How many arguments native operations get.**  The operation of a call in a compiled formula is
in the table, and it is registered.  A call of an operator has two arguments.  If the declaration has
no absorbing parameter, and two parameters in the case of an operator, then the call has as many
arguments as the native operation takes. -/
theorem arity_of_compile (r : Registry) (text : Text) (c : CompiledFormula)
    (h : compile (parse r text) = .ok c) :
    (∀ i args, (i, args) ∈ c.root.calls →
      ∃ s ∈ r.symbols, ∃ f, s.operation? = some f ∧ c.operations[i]? = some f ∧
        (s.isCallable = true → f.signature.accepts args.length = true ∧
          ∀ m, f.signature.maximum? = some m → args.length = m) ∧
        (s.isCallable = false → args.length = 2) ∧
        (s.isExact = true → ∀ n, f.native.arity = some n → args.length = n)) ∧
    ((∀ s ∈ r.symbols, s.isExact = true) → c.matchesArity = true) := by
  have hcalls : ∀ i args, (i, args) ∈ c.root.calls →
      ∃ s ∈ r.symbols, ∃ f, s.operation? = some f ∧ c.operations[i]? = some f ∧
        (s.isCallable = true → f.signature.accepts args.length = true ∧
          ∀ m, f.signature.maximum? = some m → args.length = m) ∧
        (s.isCallable = false → args.length = 2) ∧
        (s.isExact = true → ∀ n, f.native.arity = some n → args.length = n) := by
    intro i args hmem
    obtain ⟨f, rfl, hinvoked⟩ := invokes_of_compile h i args hmem
    obtain ⟨hclean, tree, -, rfl⟩ := builds_of_compile h
    obtain ⟨s, hs, hf, hcallable, hoperator⟩ := registered_of_invoked hclean hinvoked
    refine ⟨s, hs, f, hf, getElem?_operationIndex hclean hinvoked, hcallable, hoperator, ?_⟩
    intro hexact n harity
    exact eq_arity_of_isExact hs hf hexact hcallable hoperator harity
  refine ⟨hcalls, ?_⟩
  intro hexact
  refine List.all_eq_true.2 ?_
  rintro ⟨i, args⟩ hmem
  obtain ⟨s, hs, f, -, hfound, -, -, harity⟩ := hcalls i args hmem
  cases hnative : f.native.arity with
  | none => simp [hfound, hnative]
  | some n => simp [hfound, hnative, harity (hexact s hs) n hnative]

theorem isExact_of_mem_standard {s : Symbol} (hs : s ∈ Registry.standard.symbols) :
    s.isExact = true := by
  have h : standardSymbols.all Symbol.isExact = true := by decide +kernel
  exact List.all_eq_true.1 h s (Registry.mem_standard.1 hs)

/-- The standard symbols are declared exactly. -/
theorem arity_of_compile_log :
    ∃ c, compile (parse .standard "-log(8)max(x,y)".toList) = .ok c ∧ c.matchesArity = true := by
  have hok : (compile (parse .standard "-log(8)max(x,y)".toList)).isOk = true := by decide +kernel
  obtain ⟨c, hc⟩ := exists_of_isOk hok
  refine ⟨c, hc, (arity_of_compile .standard "-log(8)max(x,y)".toList c hc).2 ?_⟩
  intro s hs
  exact isExact_of_mem_standard hs

/-- A function of two numbers that is declared with an absorbing parameter. -/
def looseDifference : Symbol :=
  .named "f" "Difference" .sub Declaration.variadic

/-- An operator with a native operation on one number. -/
def negatingOperator : Symbol :=
  .operator ⟨⟨.declare "!".toList "Negation".toList Declaration.single, .unary (- ·)⟩, 10, none⟩

/-- **A native operation does not always get as many arguments as it takes**, neither in a call of a
function nor in one of an operator. -/
theorem exists_not_matchesArity :
    (∃ r c, Registry.ofSymbols [looseDifference] = .ok r ∧
      compile (parse r "f(1)".toList) = .ok c ∧ c.matchesArity = false) ∧
    ∃ r c, Registry.ofSymbols [negatingOperator] = .ok r ∧
      compile (parse r "1!2".toList) = .ok c ∧ c.matchesArity = false := by
  have hmismatch : ∀ (symbols : List Symbol) (text : Text),
      (Registry.ofSymbols symbols).toOption.any (fun r =>
        (compile (parse r text)).toOption.any (!·.matchesArity)) = true →
      ∃ r c, Registry.ofSymbols symbols = .ok r ∧ compile (parse r text) = .ok c ∧
        c.matchesArity = false := by
    intro symbols text h
    cases hr : Registry.ofSymbols symbols with
    | error e => simp [hr, Except.toOption] at h
    | ok r =>
      cases hc : compile (parse r text) with
      | error e => simp [hr, hc, Except.toOption] at h
      | ok c => exact ⟨r, c, rfl, hc, by simpa [hr, hc, Except.toOption] using h⟩
  exact ⟨hmismatch _ _ (by decide +kernel), hmismatch _ _ (by decide +kernel)⟩

end Formula

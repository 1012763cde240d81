import Formula.Proofs.Leading.Building
import Formula.Proofs.Leading.Reduction
import Formula.Proofs.Grammar.Inversion
import Formula.Proofs.Tables
import Formula.Proofs.Token.Spacing
import Formula.Proofs.WrittenProduct

/-!
# A minus sign in front of a number

A number right after a minus sign that begins a formula is a negative number.  With a blank between
the two the sign is an operator, which has a default value as its left operand.  The two readings
differ in the first operand only, unless a power follows the number: a sign binds more tightly than
every other operator, so it is applied to the number first.
-/

namespace Formula

/-- An expression in which operations and variables are called by name. -/
inductive NamedExpr
  /-- A constant. -/
  | const (value : Float)
  /-- A variable. -/
  | var (name : Text)
  /-- An operation applied to arguments. -/
  | call (literal : Text) (args : List NamedExpr)

mutual

/-- An expression with the names that tables of operations and variables have for its indices. -/
def Expr.named (operations names : List Text) : Expr → NamedExpr
  | .const value => .const value
  | .var i => .var (names[i]?.getD [])
  | .call i args => .call (operations[i]?.getD []) (Expr.namedAll operations names args)

/-- Several expressions with names. -/
def Expr.namedAll (operations names : List Text) : List Expr → List NamedExpr
  | [] => []
  | e :: es => e.named operations names :: Expr.namedAll operations names es

end

/-- A compiled formula with names. -/
def CompiledFormula.named (f : CompiledFormula) : NamedExpr :=
  f.root.named (f.operations.map Operation.literal) f.names

namespace NamedExpr

/-- The leaf of an expression that is leftmost. -/
def leftmost : NamedExpr → NamedExpr
  | call _ (e :: _) => e.leftmost
  | e => e

/-- An expression with another one in the place of its leftmost leaf. -/
def graft : NamedExpr → NamedExpr → NamedExpr
  | call literal (e :: es), new => call literal (e.graft new :: es)
  | _, new => new

end NamedExpr

theorem Expr.namedAll_eq_map (operations names : List Text) (es : List Expr) :
    Expr.namedAll operations names es = es.map (Expr.named operations names) := by
  induction es with
  | nil => rfl
  | cons e es ih => rw [Expr.namedAll, ih, List.map_cons]

theorem Expr.named_call (operations names : List Text) (i : Nat) (args : List Expr) :
    (Expr.call i args).named operations names =
      .call (operations[i]?.getD []) (args.map (Expr.named operations names)) := by
  rw [Expr.named, Expr.namedAll_eq_map]

/-- A tree with another leftmost operand is written with another leftmost leaf, if the operand is a
constant. -/
theorem OperatorTree.Grafted.named {value : Float} {new tree tree' : OperatorTree}
    (h : OperatorTree.Grafted (.operand (.const value)) new tree tree') (index : Operation → Nat)
    (operations names : List Text) :
    ((tree.toExpr index).named operations names).leftmost = .const value ∧
      (tree'.toExpr index).named operations names =
        ((tree.toExpr index).named operations names).graft
          ((new.toExpr index).named operations names) := by
  induction h with
  | here =>
    rw [toExpr, Expr.named]
    exact ⟨rfl, rfl⟩
  | left h ih =>
    simp only [toExpr, Expr.named_call, List.map_cons, ih.2]
    exact ⟨ih.1, rfl⟩

/-- The operator of the minus sign. -/
def minus : Operator := .sign "-" "Subtraction" .sub 10 25

theorem mem_minus : .operator minus ∈ Registry.standard.symbols :=
  Registry.mem_standard.2 (by simp [standardSymbols, standardOperators, minus])

theorem defaultsTo_minus : DefaultsTo minus.left? 0 := ⟨['0'], by decide, rfl⟩

section Formulas

variable (blanks : Text) {n rest : Text}

/-- The tokens of a minus sign and a number, with blanks between them. -/
theorem tokens_leadingMinus (hblanks : ∀ c ∈ blanks, isBlank c = true)
    (hn : Numeral.isPlain n = true) (hrest : continuesNumeral rest = false) :
    tokens .standard ('-' :: (blanks ++ n ++ rest)) = .symbol (.operator minus) ['-'] ::
      (blanks.map Token.blank ++ .number n :: tokens .standard rest) := by
  have hnumber : tokensFrom .standard .none (blanks ++ n ++ rest) =
      blanks.map Token.blank ++ .number n :: tokens .standard rest := by
    rw [List.append_assoc, tokensFrom_append_blanks hblanks,
      tokensFrom_number leavesNumerals_standard hn hrest]
    rfl
  have hsign := tokensFrom_symbol leavesNumerals_standard mem_minus (w := ['-'])
    (u := blanks ++ n ++ rest) (by decide) (by decide) (by simp [Symbol.isCallable])
    (.inr (startingWith_standard mem_minus))
  rw [hnumber] at hsign
  exact hsign

/-- What follows the number has to be a scope after a value. -/
theorem isClean_leadingMinus (hblanks : ∀ c ∈ blanks, isBlank c = true)
    (hn : Numeral.isPlain n = true) (hrest : continuesNumeral rest = false) :
    (parse .standard ('-' :: (blanks ++ n ++ rest))).isClean = true ↔
      Scope .declared .value (tokens .standard rest) := by
  rw [isClean_parse_iff_scope minusStandsAlone_standard,
    tokens_leadingMinus blanks hblanks hn hrest]
  have hneeds : Grammar.declared.needsLeft minus = false := by decide
  have hskip : ∀ {blanks : Text} {last : Last},
      Scope .declared last (blanks.map Token.blank ++ .number n :: tokens .standard rest) ↔
        Scope .declared .value (tokens .standard rest) := by
    intro blanks last
    induction blanks with
    | nil => exact ⟨Scope.of_number, .number⟩
    | cons c blanks ih => exact ⟨fun h => ih.1 h.of_blank, fun h => .silent rfl (ih.2 h)⟩
  constructor
  · exact fun h => hskip.1 h.of_operator.1
  · exact fun h => .operator (by simp [hneeds]) (hskip.2 h)

/-- Nothing is written in another way. -/
def Variation.plain : Variation := ⟨fun _ => none, none⟩

/-- What follows a value in two formulas is the same but for the places where it stands. -/
theorem varyAll_resumed {text text' : Text} {position position' : Nat} {ts : List Token}
    (h : Scope .declared .value ts) {m m' : Nat} {parts parts' : List Part}
    {hints hints' : List Hint}
    (hrun : ∀ base, Firm base → (Builder.resumed position base).run text ts =
      ⟨m, parts.reverse ++ base, [], [], hints⟩)
    (hrun' : ∀ base, Firm base → (Builder.resumed position' base).run text' ts =
      ⟨m', parts'.reverse ++ base, [], [], hints'⟩) : VaryAll .plain true parts parts' := by
  set value : Part := .number ⟨0, []⟩
  have hvalue : Firm [value] := firm_number _ []
  have hsame : value.Varies .plain value := .number rfl
  have hlinked : Builder.Linked .plain .value (Builder.resumed position [value])
      (Builder.resumed position' [value]) :=
    Builder.linked_value ⟨.cons hsame .nil, value, [], rfl, rfl⟩ hvalue.ready hvalue.ready
  have hrewrites : Rewrites .plain .value ts ts := by
    have hts := h.rewrites (V := .plain) .value (by decide)
    rwa [Variation.tokens_eq_self fun _ => rfl] at hts
  have htogether : Builder.Together .plain text text' _ _ ts ts :=
    Builder.together_of_rewrites hrewrites _ _ hlinked
  obtain ⟨_, items, _, _, items', _, hlast, hlast', hstacked⟩ := htogether
  rw [hrun _ hvalue] at hlast
  rw [hrun' _ hvalue] at hlast'
  obtain rfl : parts.reverse ++ [value] = items := congrArg Builder.items hlast
  obtain rfl : parts'.reverse ++ [value] = items' := congrArg Builder.items hlast'
  have hvary := hstacked.varyAll
  simp only [List.reverse_append, List.reverse_reverse, List.reverse_singleton,
    List.singleton_append] at hvary
  cases hvary with
  | cons _ hrest => exact hrest

/-- **What follows the number is the same**, whether the sign touches it or not, and an operator that
comes first there is written first. -/
theorem exists_items_leading (hn : Numeral.isPlain n = true) (hrest : continuesNumeral rest = false)
    (h : Scope .declared .value (tokens .standard rest)) : ∃ parts parts',
      (parse .standard ('-' :: (n ++ rest))).items = .number ⟨0, '-' :: n⟩ :: parts ∧
      (parse .standard ('-' :: ' ' :: (n ++ rest))).items =
        .operator minus ⟨0, ['-']⟩ :: .number ⟨2, n⟩ :: parts' ∧
      VaryAll .plain true parts parts' ∧ VaryAll .plain true parts' parts ∧
      ∀ op e, parts'.head? = some (.operator op e) → ∃ gap w us,
        tokens .standard rest = gap ++ [Token.symbol (.operator op) w] ++ us ∧
          isSilent gap = true := by
  set text : Text := '-' :: (n ++ rest)
  set text' : Text := '-' :: ' ' :: (n ++ rest)
  obtain ⟨m, parts, hints, hrun, -⟩ := Builder.exists_run_resumed text (1 + n.length) h
  obtain ⟨m', parts', hints', hrun', hfirst⟩ := Builder.exists_run_resumed text' (2 + n.length) h
  have htokens : tokens .standard text = _ := tokens_leadingMinus [] (by simp) hn hrest
  have htokens' : tokens .standard text' = _ :=
    tokens_leadingMinus [' '] (List.forall_mem_singleton.2 rfl) hn hrest
  have hbuilt : Builder.empty.run text (tokens .standard text) =
      ⟨m, parts.reverse ++ [.number ⟨0, '-' :: n⟩], [], [], hints⟩ := by
    rw [htokens, ← hrun _ (firm_number _ [])]
    rfl
  have hbuilt' : Builder.empty.run text' (tokens .standard text') =
      ⟨m', parts'.reverse ++ [.number ⟨2, n⟩, .operator minus ⟨0, ['-']⟩], [], [], hints'⟩ := by
    rw [htokens', ← hrun' _ (firm_number _ _)]
    rfl
  refine ⟨parts, parts', ?_, ?_, varyAll_resumed h hrun hrun', varyAll_resumed h hrun' hrun, hfirst⟩
  · rw [items_parse_of_frames (by rw [hbuilt]), hbuilt]
    simp
  · rw [items_parse_of_frames (by rw [hbuilt']), hbuilt']
    simp

end Formulas

section Tables

variable {p p' : Parse} {parts parts' : List Part} {e e' sign : Excerpt}

theorem names_leading (hitems : p.items = .number e :: parts)
    (hitems' : p'.items = .operator minus sign :: .number e' :: parts')
    (hvary : VaryAll .plain true parts parts') :
    (SymbolTable.ofParse p').names = (SymbolTable.ofParse p).names := by
  have hfound : foundIn Symbol.freeName? (walkAll parts') =
      foundIn Symbol.freeName? (walkAll parts) :=
    hvary.foundIn_walkAll (fun _ _ => rfl) (fun literal h => absurd rfl h) (fun _ h => by cases h)
  have hwalk : foundIn Symbol.freeName? (walkAll p'.items) =
      foundIn Symbol.freeName? (walkAll p.items) := by
    rw [hitems, hitems']
    exact hfound
  simp only [SymbolTable.ofParse, Parse.freeVariables, filterMap_freeName?, hwalk]

theorem literals_leading (hitems : p.items = .number e :: parts)
    (hitems' : p'.items = .operator minus sign :: .number e' :: parts')
    (hregistry : p'.registry = p.registry) (hvary : VaryAll .plain true parts parts') :
    ∀ literal, literal = ['-'] ∨
      literal ∈ (SymbolTable.ofParse p).operations.map Operation.literal →
        literal ∈ (SymbolTable.ofParse p').operations.map Operation.literal := by
  set h : Symbol → Option Text := fun s => s.operation?.map Operation.literal
  have hfound : foundIn h (walkAll parts') = foundIn h (walkAll parts) :=
    hvary.foundIn_walkAll (fun _ _ => rfl) (fun literal h => absurd rfl h) (fun _ h => by cases h)
  have hwalk : foundIn h (walkAll p'.items) = ['-'] :: foundIn h (walkAll p.items) := by
    rw [hitems, hitems']
    exact congrArg (['-'] :: ·) hfound
  intro literal hliteral
  rw [mem_literals_ofParse, hwalk, hregistry, List.mem_cons]
  rw [mem_literals_ofParse] at hliteral
  rcases hliteral with rfl | hmem | hmem
  · exact .inl (.inl rfl)
  · exact .inl (.inr hmem)
  · exact .inr hmem

end Tables

/-- **An expression whose indices are in range has the same names with other tables**, if they hold
its literals. -/
theorem translates_named {t t' : SymbolTable} (values : List Float)
    (hliterals : ∀ literal ∈ t.operations.map Operation.literal,
      literal ∈ t'.operations.map Operation.literal)
    (hnames : t'.names = t.names) (hmultiplication : t'.multiplication? = t.multiplication?) :
    Translates .plain t t' fun e e' => e.InRange t.operations values →
      e'.named (t'.operations.map Operation.literal) t'.names =
        e.named (t.operations.map Operation.literal) t.names where
  const value _ := rfl
  call f args args' hargs hrange := by
    have hmap : args'.map (Expr.named (t'.operations.map Operation.literal) t'.names) =
        args.map (Expr.named (t.operations.map Operation.literal) t.names) := by
      have hinside := hrange.arguments
      clear hrange
      induction hargs with
      | nil => rfl
      | cons harg _ ih =>
        obtain ⟨hfirst, hrest⟩ := List.forall_mem_cons.1 hinside
        rw [List.map_cons, List.map_cons, harg hfirst, ih hrest]
    have hmem : f.literal ∈ t.operations.map Operation.literal := by
      have hlt : t.operationIndex f < t.operations.length :=
        hrange.2 _ args (by rw [Expr.calls_call]; exact List.mem_cons_self)
      by_contra hnot
      have hnone := getElem?_literal t f
      rw [if_neg hnot, List.getElem?_eq_none_iff, List.length_map] at hnone
      omega
    rw [Expr.named_call, Expr.named_call, hmap, getElem?_literal, getElem?_literal, if_pos hmem,
      if_pos (hliterals _ hmem)]
  free name _ _ := by
    rw [Expr.named, Expr.named, SymbolTable.variableIndex, SymbolTable.variableIndex, hnames]
  replaced _ _ h := by cases h
  multiplication := hmultiplication
  product _ h := by cases h

/-! ## What comes after the number -/

/-- An operator that is written first is no power, if no power is written first. -/
theorem ne_power_of_first {rest w : Text} {gap us : List Token} {op : Operator}
    (htokens : tokens .standard rest = gap ++ [Token.symbol (.operator op) w] ++ us)
    (hgap : isSilent gap = true) (hpower : (rest.dropWhile isBlank).head? ≠ some '^') :
    .operator op ∈ Registry.standard.symbols ∧ op.literal ≠ ['^'] := by
  have hfits := fits_tokens .standard rest
  rw [htokens, List.append_assoc, inContext_append] at hfits
  obtain ⟨hblanks, ⟨hmem, hw, -⟩, -⟩ := hfits
  refine ⟨hmem, ?_⟩
  intro hliteral
  have hkey : (Symbol.operator op).key = ['^'] := by
    simp only [Symbol.key, Symbol.literal, hliteral]
    decide
  obtain rfl : w = ['^'] := eq_singleton_of_lower (by decide) (hw.trans hkey)
  have hrest : rest = gap.flatMap Token.text ++ '^' :: us.flatMap Token.text := by
    rw [← text_tokens .standard rest, htokens]
    simp [Token.text]
  apply hpower
  rw [hrest, List.dropWhile_append_of_pos (isBlank_of_isSilent hgap hblanks)]
  rfl

/-- No operator that comes first after the number binds more tightly than the sign. -/
theorem precedence_lt_of_first {t : SymbolTable} {rest : Text} {parts : List Part}
    {terms : List Term} (hterms : CompilesTo t true parts terms)
    (hmultiplication : t.multiplication? = Registry.standard.multiplication?)
    (hpower : (rest.dropWhile isBlank).head? ≠ some '^')
    (hfirst : ∀ op e, parts.head? = some (.operator op e) → ∃ gap w us,
      tokens .standard rest = gap ++ [Token.symbol (.operator op) w] ++ us ∧ isSilent gap = true) :
    ∀ op start more, terms = .operator op start :: more →
      op.precedence < minus.signPrecedence := by
  intro op start more heq
  have hop : .operator op ∈ Registry.standard.symbols ∧ op.literal ≠ ['^'] := by
    cases hterms with
    | nil => cases heq
    | operator =>
      obtain ⟨hop, -⟩ := Term.operator.inj (List.cons.inj heq).1
      subst hop
      obtain ⟨gap, w, us, htokens, hgap⟩ := hfirst _ _ rfl
      exact ne_power_of_first htokens hgap hpower
    | product _ _ hproduct =>
      obtain ⟨hop, -⟩ := Term.operator.inj (List.cons.inj heq).1
      subst hop
      rw [hmultiplication] at hproduct
      exact ⟨mem_of_multiplication? hproduct, by rw [literal_of_multiplication? hproduct]; decide⟩
  exact precedence_lt_of_mem_standard hop.1 hop.2

/-! ## Compiling -/

section Compiling

/-- The trees of a list that begins with a number, and of one that begins with a minus sign and another
number and goes on in the same way. -/
theorem exists_operatorTree_leading {t t' : SymbolTable} {R : Expr → Expr → Prop}
    (hR : Translates .plain t t' R) {e e' sign : Excerpt} {parts parts' : List Part}
    (hvary : VaryAll .plain true parts parts') (hcomplete : Complete true parts')
    (hless : ∀ terms, CompilesTo t' true parts' terms → ∀ op start more,
      terms = .operator op start :: more → op.precedence < minus.signPrecedence)
    {v w : Float} (hv : constantValue e.text = .ok v) (hw : constantValue e'.text = .ok w)
    {tree : OperatorTree} (h : operatorTree t 0 (.number e :: parts) = .ok tree) :
    ∃ tree' signed, TreesMatch R tree tree' ∧
      operatorTree t' 0 (.operator minus sign :: .number e' :: parts') = .ok signed ∧
      OperatorTree.Grafted (.operand (.const v))
        (.apply minus sign.start (.absent 0) (.operand (.const w))) tree' signed := by
  have hnumber : ∀ {t : SymbolTable} {e : Excerpt} {v : Float}, constantValue e.text = .ok v →
      (Part.number e).compile t = .ok (.const v) := by
    intro t e v hv
    rw [Part.compile, readLiteral, hv]
    rfl
  obtain ⟨terms, hterms, htree⟩ := bind_eq_ok_iff.1 h
  cases compilesTo_of_compileTerms hterms with
  | value _ hfirst hrest =>
    obtain rfl := Except.ok.inj ((hnumber hv).symm.trans hfirst)
    obtain ⟨terms', hrest', hmatch⟩ := hrest.exists_varied hR hvary
      fun p _ p' value hvaries hcompile => hvaries.compile hR hcompile
    -- the terms after the number are the same, and the sign is applied to the number first
    obtain ⟨tree', htree', htrees⟩ :=
      reduce_match (.cons (.value (.operand (hR.const v))) hmatch) htree 0
    have hbalanced : Balanced false false (.value (.operand (.const v)) :: terms') :=
      ⟨rfl, hrest'.balanced hcomplete⟩
    obtain ⟨signed, hsigned, hgrafted⟩ := reduce_grafted
      (.apply minus sign.start (.absent 0) (.operand (.const w))) hbalanced htree'
    rw [← reduce_sign 0 defaultsTo_minus (hless terms' hrest')] at hsigned
    have hall : CompilesTo t' false (.operator minus sign :: .number e' :: parts')
        (.operator minus sign.start :: .value (.operand (.const w)) :: terms') :=
      .operator (.value rfl (hnumber hw) hrest')
    exact ⟨tree', signed, htrees, bind_eq_ok_iff.2 ⟨_, hall.compileTerms_eq, hsigned⟩, hgrafted⟩

/-- An empty list does not depend on what stands in front of it. -/
theorem holdsEmptyList_leading {e e' sign : Excerpt} {parts parts' : List Part}
    (hvary : VaryAll .plain true parts parts') (hvary' : VaryAll .plain true parts' parts) :
    HoldsEmptyList (.operator minus sign :: .number e' :: parts') ↔
      HoldsEmptyList (.number e :: parts) := by
  have hnumber : ∀ {e : Excerpt} {parts : List Part}, HoldsEmptyList (.number e :: parts) ↔
      ∃ g, .group g [] ∈ walkAll parts := by
    intro e parts
    simp [HoldsEmptyList, walkAll_cons, Part.walk]
  have hsame : ∀ {parts parts' : List Part}, VaryAll .plain true parts parts' →
      HoldsEmptyList (.number e :: parts) → HoldsEmptyList (.number e :: parts') :=
    fun hvary hempty => VaryAll.holdsEmptyList (.cons (.number rfl) hvary) hempty
  have hsign : HoldsEmptyList (.operator minus sign :: .number e' :: parts') ↔
      HoldsEmptyList (.number e :: parts') := by
    rw [hnumber]
    simp [HoldsEmptyList, walkAll_cons, Part.walk]
  rw [hsign]
  exact ⟨hsame hvary', hsame hvary⟩

/-- **The expressions of a formula that begins with a number**, and of one that begins with a minus
sign and another number and goes on in the same way. -/
theorem named_leading {text text' : Text} {f g : CompiledFormula}
    (hf : compile (parse .standard text) = .ok f) (hg : compile (parse .standard text') = .ok g)
    {e e' sign : Excerpt} {parts parts' : List Part}
    (hitems : (parse .standard text).items = .number e :: parts)
    (hitems' : (parse .standard text').items = .operator minus sign :: .number e' :: parts')
    (hvary : VaryAll .plain true parts parts')
    (hless : ∀ terms, CompilesTo (.ofParse (parse .standard text')) true parts' terms →
      ∀ op start more, terms = .operator op start :: more → op.precedence < minus.signPrecedence)
    {v w : Float} (hv : constantValue e.text = .ok v) (hw : constantValue e'.text = .ok w) :
    g.names = f.names ∧ f.named.leftmost = .const v ∧
      g.named = f.named.graft (.call ['-'] [.const 0, .const w]) := by
  have hrange : f.root.InRange f.operations (List.replicate f.names.length 0) :=
    inRange_of_compile hf List.length_replicate
  obtain ⟨-, tree, htree, rfl⟩ := builds_of_compile hf
  obtain ⟨hclean, signed, hsigned, rfl⟩ := builds_of_compile hg
  have htree := htree 0
  have hsigned := hsigned 0
  rw [hitems] at htree
  rw [hitems'] at hsigned
  have hnames := names_leading hitems hitems' hvary
  have hliterals := literals_leading hitems hitems' rfl hvary
  have hR := translates_named
    (List.replicate (SymbolTable.ofParse (parse .standard text)).names.length 0)
    (fun literal hmem => hliterals literal (.inr hmem)) hnames rfl
  have hcomplete : Complete true parts' := by
    obtain ⟨-, -, -, hwhole⟩ := isClean_parse_iff.1 hclean
    rw [hitems'] at hwhole
    exact hwhole.2.2
  obtain ⟨tree', signed', htrees, hsigned', hgrafted⟩ :=
    exists_operatorTree_leading hR hvary hcomplete hless hv hw htree
  obtain rfl : signed' = signed := Except.ok.inj (hsigned'.symm.trans hsigned)
  obtain ⟨hleftmost, hgraft⟩ := hgrafted.named _ _ _
  rw [htrees.toExpr hR hrange] at hleftmost hgraft
  refine ⟨hnames, hleftmost, hgraft.trans (congrArg (NamedExpr.graft _) ?_)⟩
  have hminus : minus.operation.literal = ['-'] := rfl
  rw [OperatorTree.toExpr, Expr.named_call, getElem?_literal, hminus,
    if_pos (hliterals _ (.inl rfl))]
  rfl

end Compiling

/-- **A minus sign that touches a number and one that does not.**  If no power follows the number, the
two formulas are read without errors alike and are compiled alike, and the expressions differ in the
leaf on the left only: it is the negative number in one, and the difference of zero and the number in
the other. -/
theorem compile_leadingMinus {n rest : Text} (hn : Numeral.isPlain n = true)
    (hrest : continuesNumeral rest = false)
    (hpower : (rest.dropWhile isBlank).head? ≠ some '^') :
    let p := parse .standard ('-' :: (n ++ rest))
    let p' := parse .standard ('-' :: ' ' :: (n ++ rest))
    (p'.isClean = true ↔ p.isClean = true) ∧
      ((compile p').isOk = true ↔ (compile p).isOk = true) ∧
      ∀ f g, compile p = .ok f → compile p' = .ok g →
        ∃ v w, constantValue ('-' :: n) = .ok v ∧ constantValue n = .ok w ∧ g.names = f.names ∧
          f.named.leftmost = .const v ∧
          g.named = f.named.graft (.call ['-'] [.const 0, .const w]) := by
  intro p p'
  have hclean : p.isClean = true ↔ Scope .declared .value (tokens .standard rest) :=
    isClean_leadingMinus [] (by simp) hn hrest
  have hclean' : p'.isClean = true ↔ Scope .declared .value (tokens .standard rest) :=
    isClean_leadingMinus [' '] (List.forall_mem_singleton.2 rfl) hn hrest
  refine ⟨hclean'.trans hclean.symm, ?_, ?_⟩
  · rw [isOk_compile_standard_iff, isOk_compile_standard_iff]
    refine (and_congr_left' hclean').trans ((and_congr_right fun hscope => ?_).trans
      (and_congr_left' hclean).symm)
    obtain ⟨parts, parts', hitems, hitems', hvary, hvary', -⟩ :=
      exists_items_leading hn hrest hscope
    rw [hitems, hitems', holdsEmptyList_leading hvary hvary']
  · intro f g hf hg
    obtain ⟨v, hv⟩ := Numeral.constantValue_neg_of_isPlain hn
    obtain ⟨w, hw⟩ := Numeral.constantValue_of_isPlain hn
    obtain ⟨parts, parts', hitems, hitems', hvary, -, hfirst⟩ :=
      exists_items_leading hn hrest (hclean.1 (builds_of_compile hf).1)
    exact ⟨v, w, hv, hw, named_leading hf hg hitems hitems' hvary
      (fun terms hterms => precedence_lt_of_first hterms rfl hpower hfirst) hv hw⟩

/-- A product with a square and a sum. -/
theorem compile_leadingMinus_square :
    ∃ f g v w, compile (parse .standard "-3x^2 + .5".toList) = .ok f ∧
      compile (parse .standard "- 3x^2 + .5".toList) = .ok g ∧
      constantValue "-3".toList = .ok v ∧ constantValue "3".toList = .ok w ∧
      f.named.leftmost = .const v ∧
      g.named = f.named.graft (.call ['-'] [.const 0, .const w]) := by
  have hn : Numeral.isPlain "3".toList = true := by decide
  have hrest : continuesNumeral "x^2 + .5".toList = false := by decide
  have hpower : ("x^2 + .5".toList.dropWhile isBlank).head? ≠ some '^' := by decide
  obtain ⟨-, hcompiles, hnamed⟩ := compile_leadingMinus hn hrest hpower
  have htext : '-' :: ("3".toList ++ "x^2 + .5".toList) = "-3x^2 + .5".toList := rfl
  have htext' : '-' :: ' ' :: ("3".toList ++ "x^2 + .5".toList) = "- 3x^2 + .5".toList := rfl
  rw [htext, htext'] at hcompiles hnamed
  have hok : (compile (parse .standard "-3x^2 + .5".toList)).isOk = true := by decide +kernel
  obtain ⟨f, hf⟩ := exists_of_isOk hok
  obtain ⟨g, hg⟩ := exists_of_isOk (hcompiles.2 hok)
  obtain ⟨v, w, hv, hw, -, hleftmost, hgraft⟩ := hnamed f g hf hg
  exact ⟨f, g, v, w, hf, hg, hv, hw, hleftmost, hgraft⟩

end Formula

import Formula.Proofs.Compilation.Lists
import Formula.Proofs.Part.Outline
import Formula.Proofs.Registry.Standard

/-!
# Which formulas can be compiled

A formula that has been read without errors has all its operands and arguments, so its terms are
balanced and its calls supply what is required.  Compiling it can still fail, but only for a cause
that lies in the declarations of the registry or in a list that holds nothing:

* two values stand side by side, and no multiplication is registered;
* a default value is no number;
* a function declares a required parameter after one that is not;
* the formula or a group is empty.

No list holds a slot or a comma: they stand right inside calls only, by the type of the tree
(`nested_rowsOf`).  So there is no error for a part that is out of its place.
-/

namespace Formula

/-- Whether some parameter that is not required comes before a required one. -/
def Signature.Misordered (s : Signature) : Prop :=
  ∃ (i j : Nat) (p q : PlacedParameter), i < j ∧ s.parameters[i]? = some p ∧
    s.parameters[j]? = some q ∧
    p.parameter.isRequired = false ∧ q.parameter.isRequired = true

/-- Whether a text is declared as a default value, but is no number. -/
def Registry.UnreadableDefault (r : Registry) (literal : Text) : Prop :=
  (∃ s ∈ r.symbols, ∃ f, s.operation? = some f ∧
    ∃ p ∈ f.signature.parameters, p.parameter.default? = some literal) ∧
  ∃ e, constantValue literal = .error e

/-- Whether a registry declares a function that is called by a name and has misordered parameters. -/
def Registry.MisorderedFunction (r : Registry) (name : Text) : Prop :=
  ∃ f, .function f ∈ r.symbols ∧ f.literal = name ∧ f.signature.Misordered

/-- Whether a sibling list or a group inside it is empty. -/
def HoldsEmptyList (items : List Part) : Prop :=
  items = [] ∨ ∃ e, .group e [] ∈ walkAll items

/-- The cause of an error, where `empty` says that a sibling list is empty.  Errors that have no
cause never arise. -/
def CompileError.Caused (r : Registry) (empty : Prop) : CompileError → Prop
  | parseErrors _ => False
  | missingOperand _ _ => False
  | missingMultiplication _ => r.multiplication? = none
  | invalidLiteral literal _ => r.UnreadableDefault literal
  | missingArgument function _ _ => r.MisorderedFunction function
  | emptyExpression _ => empty

theorem invalidLiteral_of_readLiteral {literal : Text} {start : Nat} {e : CompileError}
    (h : readLiteral literal start = .error e) :
    e = .invalidLiteral literal start ∧ ∃ cause, constantValue literal = .error cause := by
  simp only [readLiteral] at h
  cases hv : constantValue literal with
  | ok x => rw [hv] at h; cases h
  | error cause => rw [hv] at h; cases h; exact ⟨rfl, cause, rfl⟩

theorem readLiteral_ne_error {literal : Text} {start : Nat} {e : CompileError}
    (h : ∃ x, constantValue literal = .ok x) : readLiteral literal start ≠ .error e := by
  obtain ⟨x, hx⟩ := h
  simp [readLiteral, hx]

/-- The number of a leaf has a value. -/
theorem Leaf.Genuine.number_ok {r : Registry} {e : Excerpt} (h : (Leaf.number e).Genuine r) :
    ∃ x, constantValue e.text = .ok x := by
  rcases h with h | ⟨t, ht, h⟩
  · exact Numeral.constantValue_of_isPlain h
  · rw [ht]
    exact Numeral.constantValue_neg_of_isPlain h

/-- A registered constant has a value. -/
theorem constantValue_of_mem {r : Registry} {literal expression : Text}
    (h : .constant literal expression ∈ r.symbols) : ∃ x, constantValue expression = .ok x := by
  have hsound := r.sound _ h
  simp only [Symbol.flaw?] at hsound
  split at hsound
  · cases hsound
  · cases hv : constantValue expression with
    | ok x => exact ⟨x, rfl⟩
    | error cause => rw [hv] at hsound; cases hsound

/-- If a call supplies as many arguments as are required, and a required parameter is left out all
the same, then one that is not required comes before it. -/
theorem misordered_of_mem_drop {s : Signature} {n : Nat} {q : PlacedParameter}
    (hn : s.required ≤ n) (hq : q ∈ s.parameters.drop n) (hreq : q.parameter.isRequired = true) :
    s.Misordered := by
  obtain ⟨k, hk⟩ := List.mem_iff_getElem?.1 hq
  rw [List.getElem?_drop] at hk
  by_contra hordered
  have hall : ∀ p ∈ s.parameters.take (n + k + 1), p.parameter.isRequired = true := by
    intro p hp
    obtain ⟨i, hi⟩ := List.mem_iff_getElem?.1 hp
    obtain ⟨hlt, hi⟩ : i < n + k + 1 ∧ s.parameters[i]? = some p := by
      rw [List.getElem?_take] at hi
      split at hi
      · exact ⟨by assumption, hi⟩
      · cases hi
    rcases Nat.lt_succ_iff_lt_or_eq.1 hlt with hlt | rfl
    · by_contra hp
      exact hordered ⟨i, n + k, p, q, hlt, hi, hk, by simpa using hp, hreq⟩
    · rw [hk] at hi
      rwa [← Option.some.inj hi]
  have hlength : n + k < s.parameters.length := (List.getElem?_eq_some_iff.1 hk).1
  have hcount : n + k + 1 ≤ s.required := by
    calc
      n + k + 1 = (s.parameters.take (n + k + 1)).length := by
        rw [List.length_take]
        omega
      _ = (s.parameters.take (n + k + 1)).countP (·.parameter.isRequired) :=
        (List.countP_eq_length.2 hall).symm
      _ ≤ s.required := (List.take_sublist _ _).countP_le
  omega

theorem defaultArguments_eq_error {f : Text} {start index : Nat} {ps : List PlacedParameter}
    {e : CompileError} (h : defaultArguments f start index ps = .error e) :
    (∃ k, e = .missingArgument f k start ∧ ∃ q ∈ ps, q.parameter.isRequired = true) ∨
      ∃ literal, e = .invalidLiteral literal start ∧
        (∃ p ∈ ps, p.parameter.default? = some literal) ∧
        ∃ cause, constantValue literal = .error cause := by
  induction ps generalizing index with
  | nil => cases h
  | cons p ps ih =>
    simp only [defaultArguments] at h
    split at h
    · cases h
    · rename_i habsorbing
      split at h
      · rename_i hnone
        cases h
        refine .inl ⟨index, rfl, p, List.mem_cons_self, ?_⟩
        simp [Parameter.isRequired, Parameter.isOptional, hnone, habsorbing]
      · rename_i literal hsome
        rcases bind_eq_error_iff.1 h with h | ⟨value, -, h⟩
        · obtain ⟨rfl, cause⟩ := invalidLiteral_of_readLiteral h
          exact .inr ⟨literal, rfl, ⟨p, List.mem_cons_self, hsome⟩, cause⟩
        · have hrest := bind_pure_eq_error_iff.1 h
          rcases ih hrest with ⟨k, rfl, q, hq, hreq⟩ | ⟨l, rfl, ⟨q, hq, hl⟩, cause⟩
          · exact .inl ⟨k, rfl, q, List.mem_cons_of_mem _ hq, hreq⟩
          · exact .inr ⟨l, rfl, ⟨q, List.mem_cons_of_mem _ hq, hl⟩, cause⟩

variable {r : Registry} {empty : Prop}

/-- The arguments that an accepted call leaves out can be filled in, or their declarations are to
blame. -/
theorem caused_of_missingArguments {f : Operation} {start supplied : Nat} {e : CompileError}
    (hf : .function f ∈ r.symbols) (hsupplied : f.signature.accepts supplied = true)
    (h : missingArguments f start supplied = .error e) : e.Caused r empty := by
  have hrequired : f.signature.required ≤ supplied := by
    simp only [Signature.accepts, Bool.and_eq_true, decide_eq_true_eq] at hsupplied
    exact hsupplied.1
  rcases defaultArguments_eq_error h with ⟨k, rfl, q, hq, hreq⟩ | ⟨literal, rfl, ⟨p, hp, hl⟩, cause⟩
  · exact ⟨f, hf, rfl, misordered_of_mem_drop hrequired hq hreq⟩
  · exact ⟨⟨.function f, hf, f, rfl, p, List.mem_of_mem_drop hp, hl⟩, cause⟩

/-- What is known of the parts of a formula that has been read without errors.  `empty` says that
some list of the formula is empty. -/
structure Part.Sound (r : Registry) (empty : Prop) (p : Part) : Prop where
  /-- The lists inside the part lack nothing. -/
  complete : p.innerErrors [] = []
  /-- Its numbers are plain, and its symbols are registered. -/
  genuine : ∀ l ∈ leaves [p], l.Genuine r
  /-- An empty group counts as an empty list. -/
  nonempty : ∀ e, .group e [] ∈ p.walk → empty

/-- The parts of a list are sound if the list is. -/
theorem sound_of_mem {items : List Part} (hcomplete : ∀ p ∈ items, p.innerErrors [] = [])
    (hgenuine : ∀ l ∈ leaves items, l.Genuine r)
    (hnonempty : ∀ e, .group e [] ∈ walkAll items → empty) : ∀ p ∈ items, p.Sound r empty := by
  induction items with
  | nil => simp
  | cons q items ih =>
    rw [leaves_cons] at hgenuine
    rw [walkAll_cons] at hnonempty
    intro p hp
    rcases List.mem_cons.1 hp with rfl | hp
    · exact ⟨hcomplete p List.mem_cons_self, fun l hl => hgenuine l (List.mem_append_left _ hl),
        fun e he => hnonempty e (List.mem_append_left _ he)⟩
    · exact ih (fun p hp => hcomplete p (List.mem_cons_of_mem _ hp))
        (fun l hl => hgenuine l (List.mem_append_right _ hl))
        (fun e he => hnonempty e (List.mem_append_right _ he)) p hp

/-- What is known of the slots of a call. -/
def Slot.Sound (r : Registry) (empty : Prop) (s : Slot) : Prop :=
  (∀ p ∈ s.items, p.Sound r empty) ∧ Complete false s.items

theorem Part.Sound.operator {op : Operator} {e : Excerpt}
    (h : (Part.operator op e).Sound r empty) : .operator op ∈ r.symbols :=
  (h.genuine (.symbol (.operator op) e) (by simp)).1

theorem Part.Sound.group {e : Excerpt} {items : List Part} (h : (Part.group e items).Sound r empty) :
    (∀ p ∈ items, p.Sound r empty) ∧ Complete false items ∧ (items = [] → empty) := by
  obtain ⟨hcomplete, hgenuine, hnonempty⟩ := h
  rw [innerErrors_group, innerErrorsAll_eq_nil_iff] at hcomplete
  rw [leaves_group] at hgenuine
  rw [Part.walk] at hnonempty
  refine ⟨sound_of_mem hcomplete.1 hgenuine fun e he => hnonempty e (List.mem_cons_of_mem _ he),
    hcomplete.2, ?_⟩
  rintro rfl
  exact hnonempty e List.mem_cons_self

theorem Part.Sound.call {f : Operation} {e : Excerpt} {slots : List Slot}
    (h : (Part.call f e slots).Sound r empty) :
    .function f ∈ r.symbols ∧ ∀ s ∈ slots, s.Sound r empty := by
  obtain ⟨hcomplete, hgenuine, hnonempty⟩ := h
  rw [innerErrors_call, slotErrors_eq_nil_iff] at hcomplete
  rw [leaves_call] at hgenuine
  rw [Part.walk] at hnonempty
  refine ⟨(hgenuine _ List.mem_cons_self).1, ?_⟩
  have hleaves : ∀ l ∈ slotLeaves slots, l.Genuine r := fun l hl =>
    hgenuine l (List.mem_cons_of_mem _ hl)
  have hgroups : ∀ e, .group e [] ∈ walkSlots slots → empty := fun e he =>
    hnonempty e (List.mem_cons_of_mem _ he)
  clear hgenuine hnonempty
  induction slots with
  | nil => simp
  | cons s slots ih =>
    rw [slotLeaves_cons] at hleaves
    rw [walkSlots_cons] at hgroups
    intro u hu
    rcases List.mem_cons.1 hu with rfl | hu
    · have hu := hcomplete u List.mem_cons_self
      cases u with
      | mk written items =>
        rw [errors_slot, innerErrorsAll_eq_nil_iff] at hu
        exact ⟨sound_of_mem hu.1 (fun l hl => hleaves l (List.mem_append_left _ hl))
          fun e he => hgroups e (List.mem_append_left _ he), hu.2⟩
    · exact ih (fun s hs => hcomplete s (List.mem_cons_of_mem _ hs))
        (fun l hl => hleaves l (List.mem_append_right _ hl))
        (fun e he => hgroups e (List.mem_append_right _ he)) u hu

/-! ## Terms -/

variable {t : SymbolTable}

theorem mem_of_multiplication? {op : Operator} (h : r.multiplication? = some op) :
    .operator op ∈ r.symbols := by
  rw [Registry.multiplication?] at h
  split at h
  · rename_i op' hget
    cases h
    exact (Registry.get?_eq_some_iff.1 hget).1
  · cases h

/-- The literal of the multiplication has no letter, so that it is as it is looked up. -/
theorem literal_of_multiplication? {op : Operator} (h : r.multiplication? = some op) :
    op.literal = ['*'] := by
  rw [Registry.multiplication?] at h
  split at h
  · rename_i op' hget
    cases h
    have hkey : op.literal.lower = ['*'] := (Registry.get?_eq_some_iff.1 hget).2
    obtain ⟨c, hliteral, hc⟩ := List.map_eq_singleton_iff.1 hkey
    rw [hliteral, eq_of_toLower_eq hc (by decide)]
  · cases h

/-- There is a multiplication just if an operator is registered for it. -/
theorem isSome_multiplication?_iff :
    r.multiplication?.isSome = true ↔ ∃ op, .operator op ∈ r.symbols ∧ op.literal = ['*'] := by
  constructor
  · intro h
    obtain ⟨op, hop⟩ := Option.isSome_iff_exists.1 h
    exact ⟨op, mem_of_multiplication? hop, literal_of_multiplication? hop⟩
  · rintro ⟨op, hop, hliteral⟩
    have hget : r.get? Registry.multiplicationLiteral = some (.operator op) :=
      Registry.get?_eq_some_iff.2 ⟨hop, congrArg Text.lower hliteral⟩
    rw [Registry.multiplication?, hget]
    rfl

/-- The operators of a sibling list are registered. -/
theorem CompilesTo.registered {items : List Part} {afterValue : Bool} {terms : List Term}
    (h : CompilesTo t afterValue items terms) (ht : t.multiplication? = r.multiplication?)
    (hsound : ∀ p ∈ items, p.Sound r empty) :
    ∀ op pos, .operator op pos ∈ terms → .operator op ∈ r.symbols := by
  induction h with
  | nil => simp
  | operator _ ih =>
    have hrest := ih fun p hp => hsound p (List.mem_cons_of_mem _ hp)
    intro op' pos hop
    rcases List.mem_cons.1 hop with heq | hop
    · cases heq
      exact (hsound _ List.mem_cons_self).operator
    · exact hrest op' pos hop
  | value _ _ _ ih =>
    have hrest := ih fun p hp => hsound p (List.mem_cons_of_mem _ hp)
    intro op pos hop
    exact hrest op pos (by simpa using hop)
  | product _ _ hmul _ ih =>
    have hrest := ih fun p hp => hsound p (List.mem_cons_of_mem _ hp)
    intro op pos hop
    rcases List.mem_cons.1 hop with heq | hop
    · cases heq
      exact mem_of_multiplication? (ht ▸ hmul)
    · exact hrest op pos (by simpa using hop)

/-- What an operator of a registry declares as a default value is declared in the registry. -/
theorem unreadableDefault_of_operator {op : Operator} {literal : Text}
    (hop : .operator op ∈ r.symbols) (h : op.UnreadableDefault literal) :
    r.UnreadableDefault literal :=
  ⟨⟨.operator op, hop, op.operation, rfl, h.1⟩, h.2⟩

/-- The reduction of the terms of a complete list fails only if the list is empty or a default value
is no number. -/
theorem reduce_eq_error {items : List Part} {start : Nat} {terms : List Term} {e : CompileError}
    (ht : t.multiplication? = r.multiplication?) (hsound : ∀ p ∈ items, p.Sound r empty)
    (hcomplete : Complete false items) (hterms : compileTerms t false items = .ok terms)
    (h : reduce start terms = .error e) :
    (items = [] ∧ e = .emptyExpression start) ∨
      ∃ literal pos, e = .invalidLiteral literal pos ∧ r.UnreadableDefault literal := by
  have hto := compilesTo_of_compileTerms hterms
  by_cases hne : terms = []
  · subst hne
    cases h
    exact .inl ⟨hto.eq_nil_iff.1 rfl, rfl⟩
  · obtain ⟨op, pos, literal, hop, rfl, hbad⟩ := reduce_of_balanced (hto.balanced hcomplete) hne h
    exact .inr ⟨literal, pos, rfl,
      unreadableDefault_of_operator (hto.registered ht hsound op pos hop) hbad⟩

/-! ## Whole formulas -/

variable {text : Text}

theorem ofParse_multiplication? (p : Parse) :
    (SymbolTable.ofParse p).multiplication? = p.registry.multiplication? := rfl

/-- The parts of a formula that has been read without errors are sound, and nothing is missing. -/
theorem sound_of_isClean (hclean : (parse r text).isClean = true) :
    (∀ p ∈ (parse r text).items, p.Sound r (HoldsEmptyList (parse r text).items)) ∧
      Complete false (parse r text).items := by
  obtain ⟨-, -, hinner, hcomplete⟩ := isClean_parse_iff.1 hclean
  exact ⟨sound_of_mem hinner (genuine_leaves_parse r text) fun e he => .inr ⟨e, he⟩, hcomplete⟩

/-- What holds of the formula holds of all its sibling lists. -/
theorem SiblingList.sound {items l : List Part} (hsound : ∀ p ∈ items, p.Sound r empty)
    (hcomplete : Complete false items) (hl : SiblingList items l) :
    (∀ p ∈ l, p.Sound r empty) ∧ Complete false l := by
  induction hl with
  | whole => exact ⟨hsound, hcomplete⟩
  | group _ hmem ih =>
    obtain ⟨hinner, hinnerComplete, -⟩ := (ih.1 _ hmem).group
    exact ⟨hinner, hinnerComplete⟩
  | slot _ hmem hs ih => exact (ih.1 _ hmem).call.2 _ hs

/-- The parts of a formula that has been read without errors are sound, and no call lacks an
argument. -/
theorem sound_of_mem_walkAll (hclean : (parse r text).isClean = true) {p : Part}
    (hp : p ∈ walkAll (parse r text).items) :
    p.Sound r (HoldsEmptyList (parse r text).items) ∧
      ∃ hasLeft hasRight, p.Supplied hasLeft hasRight := by
  obtain ⟨hsound, hcomplete⟩ := sound_of_isClean hclean
  obtain ⟨l, hl, hp⟩ := mem_walkAll_iff.1 hp
  obtain ⟨hlsound, hlcomplete⟩ := hl.sound hsound hcomplete
  exact ⟨hlsound p hp, supplied_of_complete hlcomplete p hp⟩

/-- **What can go wrong with a formula that has been read without errors**: a multiplication is
missing, a default value of an operator is no number, a list is empty, or a call leaves out an
argument that cannot be filled in. -/
theorem error_of_compile (hclean : (parse r text).isClean = true) {P : CompileError → Prop}
    (hmul : r.multiplication? = none → ∀ start, P (.missingMultiplication start))
    (hdefault : ∀ literal, r.UnreadableDefault literal → ∀ start, P (.invalidLiteral literal start))
    (hempty : HoldsEmptyList (parse r text).items → ∀ start, P (.emptyExpression start))
    (hcall : ∀ f name slots, .call f name slots ∈ walkAll (parse r text).items →
      ∀ e, missingArguments f name.start (suppliedArguments slots) = .error e → P e)
    {e : CompileError} (h : compile (parse r text) = .error e) : P e := by
  have ht := ofParse_multiplication? (parse r text)
  obtain ⟨hsound, hcomplete⟩ := sound_of_isClean hclean
  -- the reduction of a list that is known to be complete
  have hreduce : ∀ {items : List Part} {start : Nat} {terms : List Term} {e : CompileError},
      (∀ p ∈ items, p.Sound r (HoldsEmptyList (parse r text).items)) → Complete false items →
      (items = [] → HoldsEmptyList (parse r text).items) →
      compileTerms (.ofParse (parse r text)) false items = .ok terms →
      reduce start terms = .error e → P e := by
    intro items start terms e hsound hcomplete hnil hterms h
    rcases reduce_eq_error ht hsound hcomplete hterms h with ⟨hitems, rfl⟩ | ⟨literal, pos, rfl, hbad⟩
    · exact hempty (hnil hitems) start
    · exact hdefault literal hbad pos
  rw [Parse.isClean] at hclean
  rw [compile, if_pos hclean] at h
  have htree := bind_pure_eq_error_iff.1 h
  refine error_of_raises (t := .ofParse (parse r text)) hmul ?_ ?_ htree
  · intro q hq
    obtain ⟨hqsound, hasLeft, hasRight, hsupplied⟩ := sound_of_mem_walkAll hclean hq
    cases q with
    | number written =>
      intro e he
      exact absurd he (readLiteral_ne_error (hqsound.genuine (.number written) (by simp)).number_ok)
    | constant literal expression written =>
      intro e he
      have hleaf := hqsound.genuine (.symbol (.constant literal expression) written)
        (by simp [leaves, walkAll, Part.walk, Part.leaf?])
      exact absurd he (readLiteral_ne_error (constantValue_of_mem hleaf.1))
    | group written items =>
      obtain ⟨hitems, hcomplete, hnil⟩ := hqsound.group
      exact fun terms e hterms h => hreduce hitems hcomplete hnil hterms h
    | call f name slots =>
      refine ⟨?_, hcall f name slots hq⟩
      intro hne s hs terms e hterms h
      obtain ⟨hitems, hcomplete⟩ := hqsound.call.2 s hs
      exact hreduce hitems hcomplete (fun hnil => absurd hnil (ne_nil_of_supplied hsupplied hne s hs))
        hterms h
    | operator | free => trivial
  · exact fun terms e hterms h => hreduce hsound hcomplete .inl hterms h

/-- **A formula that has been read without errors fails to compile only for a cause.** -/
theorem caused_of_compile (hclean : (parse r text).isClean = true) {e : CompileError}
    (h : compile (parse r text) = .error e) :
    e.Caused r (HoldsEmptyList (parse r text).items) := by
  refine error_of_compile hclean (fun hmul _ => hmul) (fun _ hbad _ => hbad) (fun hempty _ => hempty)
    ?_ h
  intro f name slots hcall e he
  obtain ⟨hsound, hasLeft, hasRight, hsupplied⟩ := sound_of_mem_walkAll hclean hcall
  exact caused_of_missingArguments hsound.call.1 hsupplied.1 he

/-- **The tree of a sibling list is what a run leaves of its terms**, which are balanced, and whose
operators are registered. -/
theorem SiblingList.exists_run (hclean : (parse r text).isClean = true) {l : List Part}
    (hl : SiblingList (parse r text).items l) {tree : OperatorTree}
    (h : Builds (.ofParse (parse r text)) l tree) :
    ∃ terms, CompilesTo (.ofParse (parse r text)) false l terms ∧
      Balanced false false terms ∧ (∀ op pos, .operator op pos ∈ terms → .operator op ∈ r.symbols) ∧
      Reduces terms [.value tree] := by
  obtain ⟨hsound, hcomplete⟩ := sound_of_isClean hclean
  obtain ⟨hlsound, hlcomplete⟩ := hl.sound hsound hcomplete
  obtain ⟨terms, hterms, hreduce⟩ := bind_eq_ok_iff.1 (h 0)
  have hto := compilesTo_of_compileTerms hterms
  have hbalanced : Balanced false false terms := hto.balanced hlcomplete
  exact ⟨terms, hto, hbalanced, hto.registered (ofParse_multiplication? _) hlsound,
    reduces_of_reduce hbalanced hreduce⟩

/-- What can be compiled has been read without errors, and its expression is the tree of the whole
list. -/
theorem builds_of_compile {p : Parse} {f : CompiledFormula} (h : compile p = .ok f) :
    p.isClean = true ∧ ∃ tree, Builds (.ofParse p) p.items tree ∧
      f = ⟨tree.toExpr (SymbolTable.ofParse p).operationIndex,
        (SymbolTable.ofParse p).operations, (SymbolTable.ofParse p).names⟩ := by
  rw [compile] at h
  split at h
  · rename_i hclean
    obtain ⟨tree, htree, h⟩ := bind_eq_ok_iff.1 h
    cases h
    exact ⟨hclean, tree, builds_of_operatorTree htree, rfl⟩
  · cases h

/-- **A formula that can be compiled holds no empty list.** -/
theorem not_holdsEmptyList_of_compile {p : Parse} {f : CompiledFormula}
    (h : compile p = .ok f) : ¬ HoldsEmptyList p.items := by
  obtain ⟨-, tree, htree, -⟩ := builds_of_compile h
  rintro (hnil | ⟨e, he⟩)
  · exact ne_nil_of_operatorTree (htree 0) hnil
  · obtain ⟨value, hv⟩ := exists_compile_of_mem_walkAll htree he rfl
    rw [compile_group] at hv
    obtain ⟨tree, htree, -⟩ := map_eq_ok_iff.1 hv
    exact ne_nil_of_operatorTree htree rfl

/-- The numbers and constants of a formula have values. -/
theorem exists_value_of_mem_walkAll (r : Registry) (text : Text) :
    (∀ e, .number e ∈ walkAll (parse r text).items → ∃ x, constantValue e.text = .ok x) ∧
      ∀ literal expression e, .constant literal expression e ∈ walkAll (parse r text).items →
        ∃ x, constantValue expression = .ok x := by
  have hgenuine := genuine_leaves_parse r text
  constructor
  · intro e he
    exact (hgenuine (.number e) (List.mem_filterMap.2 ⟨_, he, rfl⟩)).number_ok
  · intro literal expression e he
    have hleaf := hgenuine (.symbol (.constant literal expression) e)
      (List.mem_filterMap.2 ⟨_, he, rfl⟩)
    exact constantValue_of_mem hleaf.1

theorem not_unreadableDefault_standard (literal : Text) :
    ¬ Registry.standard.UnreadableDefault literal := by
  rintro ⟨⟨s, hs, f, hf, p, hp, hl⟩, e, he⟩
  have h := hasReadableDefaults_of_mem_standardSymbols s (Registry.mem_standard.1 hs)
  simp only [Symbol.hasReadableDefaults, hf, Option.all_some, List.all_eq_true] at h
  have hl := h p hp
  simp_all [Except.isOk, Except.toBool]

theorem not_misorderedFunction_standard (name : Text) :
    ¬ Registry.standard.MisorderedFunction name := by
  rintro ⟨f, hf, -, i, j, p, q, hij, hi, hj, hp, hq⟩
  have h := isOrdered_of_mem_standardSymbols _ (Registry.mem_standard.1 hf)
  simp only [Symbol.isOrdered, decide_eq_true_eq, List.pairwise_iff_getElem] at h
  obtain ⟨hilt, rfl⟩ := List.getElem?_eq_some_iff.1 hi
  obtain ⟨hjlt, rfl⟩ := List.getElem?_eq_some_iff.1 hj
  have hreq := h i j hilt hjlt hij
  rw [hp, hq] at hreq
  cases hreq

/-- Without a cause in the registry, an empty list is the cause. -/
theorem eq_emptyExpression {e : CompileError} (hmul : r.multiplication? ≠ none)
    (hdefault : ∀ literal, ¬ r.UnreadableDefault literal)
    (hordered : ∀ name, ¬ r.MisorderedFunction name) (h : e.Caused r empty) :
    empty ∧ ∃ start, e = .emptyExpression start := by
  cases e with
  | parseErrors => exact h.elim
  | missingOperand => exact h.elim
  | missingMultiplication => exact absurd h hmul
  | invalidLiteral literal => exact absurd h (hdefault literal)
  | missingArgument name => exact absurd h (hordered name)
  | emptyExpression start => exact ⟨h, start, rfl⟩

/-- With the standard symbols a formula can be compiled if and only if it has been read without errors
and holds no empty list. -/
theorem isOk_compile_standard_iff {text : Text} :
    (compile (parse .standard text)).isOk = true ↔
      (parse .standard text).isClean = true ∧ ¬ HoldsEmptyList (parse .standard text).items := by
  constructor
  · intro hok
    obtain ⟨f, hf⟩ := exists_of_isOk hok
    exact ⟨(builds_of_compile hf).1, not_holdsEmptyList_of_compile hf⟩
  · rintro ⟨hclean, hempty⟩
    cases hcompile : compile (parse .standard text) with
    | ok f => rfl
    | error e =>
      exact absurd (eq_emptyExpression Registry.multiplication?_standard
        not_unreadableDefault_standard not_misorderedFunction_standard
        (caused_of_compile hclean hcompile)).1 hempty

/-- A sibling list, here by the outermost rows of its outline, holds neither slots nor commas
(`nested_rowsOf`).  Compiling meets no part that is out of its place, so `CompileError` has no error
for one. -/
theorem ne_argument_and_ne_separator_of_mem_rowsOf (items : List Part) (depth : Nat)
    (hasLeft : Bool) : ∀ row ∈ rowsOf depth hasLeft items, row.depth = depth →
      row.kind ≠ .argument ∧ row.kind ≠ .separator := by
  intro row hrow hdepth
  have hholds := (nested_rowsOf depth hasLeft items).holds_of_depth_eq row hrow hdepth
  simpa [Row.Kind.holds] using hholds

/-- **Which formulas can be compiled.**  If a formula has been read without errors, each error of
its compilation has its cause in a declaration of the registry or in an empty list, and never in a
missing operand, a number or a constant; without such a cause it compiles.  With the standard symbols
an empty list is the only cause, and it is one whenever it is there. -/
theorem compile_of_isClean (r : Registry) (text : Text) (hclean : (parse r text).isClean = true) :
    (∀ e, compile (parse r text) = .error e →
      e.Caused r (HoldsEmptyList (parse r text).items)) ∧
    (∀ e, .number e ∈ walkAll (parse r text).items → ∃ x, constantValue e.text = .ok x) ∧
    (∀ literal expression e, .constant literal expression e ∈ walkAll (parse r text).items →
      ∃ x, constantValue expression = .ok x) ∧
    (r.multiplication? ≠ none → (∀ literal, ¬ r.UnreadableDefault literal) →
      (∀ name, ¬ r.MisorderedFunction name) → ¬ HoldsEmptyList (parse r text).items →
      ∃ f, compile (parse r text) = .ok f) ∧
    (r = Registry.standard →
      ((∃ f, compile (parse r text) = .ok f) ↔ ¬ HoldsEmptyList (parse r text).items) ∧
      ∀ e, compile (parse r text) = .error e → ∃ start, e = .emptyExpression start) := by
  have hcaused : ∀ e, compile (parse r text) = .error e →
      e.Caused r (HoldsEmptyList (parse r text).items) := by
    intro e he
    exact caused_of_compile hclean he
  have hvalues := exists_value_of_mem_walkAll r text
  have hok : r.multiplication? ≠ none → (∀ literal, ¬ r.UnreadableDefault literal) →
      (∀ name, ¬ r.MisorderedFunction name) → ¬ HoldsEmptyList (parse r text).items →
      ∃ f, compile (parse r text) = .ok f := by
    intro hmul hdefault hordered hfull
    cases h : compile (parse r text) with
    | ok f => exact ⟨f, rfl⟩
    | error e => exact absurd (eq_emptyExpression hmul hdefault hordered (hcaused e h)).1 hfull
  refine ⟨hcaused, hvalues.1, hvalues.2, hok, ?_⟩
  rintro rfl
  have hmul := Registry.multiplication?_standard
  have hdefault := not_unreadableDefault_standard
  have hordered := not_misorderedFunction_standard
  refine ⟨⟨?_, hok hmul hdefault hordered⟩, ?_⟩
  · rintro ⟨f, hf⟩
    exact not_holdsEmptyList_of_compile hf
  · intro e he
    exact (eq_emptyExpression hmul hdefault hordered (hcaused e he)).2

/-- The default base of a logarithm is filled in, and an empty group is found out. -/
theorem compile_of_isClean_log :
    (parse .standard "-log(8)x".toList).isClean = true ∧
      ¬ HoldsEmptyList (parse .standard "-log(8)x".toList).items ∧
      (parse .standard "2()".toList).isClean = true ∧
      ∀ e, compile (parse .standard "2()".toList) = .error e → ∃ start, e = .emptyExpression start := by
  have hlog : (parse .standard "-log(8)x".toList).isClean = true := by decide +kernel
  have hgroup : (parse .standard "2()".toList).isClean = true := by decide +kernel
  have hok : (compile (parse .standard "-log(8)x".toList)).isOk = true := by decide +kernel
  refine ⟨hlog, ?_, hgroup, ?_⟩
  · refine ((compile_of_isClean _ _ hlog).2.2.2.2 rfl).1.1 ?_
    cases h : compile (parse .standard "-log(8)x".toList) with
    | ok f => exact ⟨f, rfl⟩
    | error e => rw [h] at hok; cases hok
  · exact ((compile_of_isClean _ _ hgroup).2.2.2.2 rfl).2

end Formula

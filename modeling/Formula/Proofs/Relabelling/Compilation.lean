import Formula.Proofs.Compilation.Lists
import Formula.Proofs.Relabelling.Parse

/-!
# Compiling a relabelled tree

Compiling looks at positions only to say where an error is, and of what is written it reads numbers
alone.  So a relabelled tree is compiled to the same expression, or to the same error elsewhere.

The steps on the way carry positions along: terms and trees of operators say where an operator
stands.  `moved` says of a computation that its result is moved, whether it is an error or not.
-/

namespace Formula

variable {φ : Nat → Nat}

/-- The same error elsewhere. -/
def CompileError.move (φ : Nat → Nat) : CompileError → CompileError
  | parseErrors count => parseErrors count
  | emptyExpression start => emptyExpression (φ start)
  | missingOperand op start => missingOperand op (φ start)
  | missingArgument f index start => missingArgument f index (φ start)
  | invalidLiteral literal start => invalidLiteral literal (φ start)
  | missingMultiplication start => missingMultiplication (φ start)

/-- The same tree elsewhere. -/
def OperatorTree.move (φ : Nat → Nat) : OperatorTree → OperatorTree
  | operand e => operand e
  | absent value => absent value
  | apply op start left right => apply op (φ start) (left.move φ) (right.move φ)

/-- The same term elsewhere. -/
def Term.move (φ : Nat → Nat) : Term → Term
  | value tree => value (tree.move φ)
  | operator op start => operator op (φ start)

/-- The same operator in a list that stands elsewhere. -/
def Site.move (φ : Nat → Nat) (s : Site) : Site :=
  ⟨s.before.map (Term.move φ), s.op, φ s.start, s.after.map (Term.move φ)⟩

/-- A result that is moved, or an error elsewhere. -/
def moved {α β : Type} (φ : Nat → Nat) (g : α → β) :
    Except CompileError α → Except CompileError β
  | .ok a => .ok (g a)
  | .error e => .error (e.move φ)

section Moved

variable {α α' β β' : Type} {g : α → α'} {h : β → β'}

/-- One computation after another, elsewhere. -/
theorem moved_bind {f : α → Except CompileError β} {f' : α' → Except CompileError β'}
    (hf : ∀ a, f' (g a) = moved φ h (f a)) (x : Except CompileError α) :
    moved φ g x >>= f' = moved φ h (x >>= f) := by
  cases x with
  | ok a => exact hf a
  | error e => rfl

theorem moved_map {f : α → β} {f' : α' → β'} (hf : ∀ a, f' (g a) = h (f a))
    (x : Except CompileError α) : f' <$> moved φ g x = moved φ h (f <$> x) := by
  cases x with
  | ok a => exact congrArg Except.ok (hf a)
  | error e => rfl

theorem moved_id (x : Except CompileError α) : moved id id x = x := by
  cases x with
  | ok a => rfl
  | error e => cases e <;> rfl

/-- One move after another. -/
theorem moved_moved {ψ : Nat → Nat} (x : Except CompileError α) :
    moved ψ id (moved φ id x) = moved (ψ ∘ φ) id x := by
  cases x with
  | ok a => rfl
  | error e => cases e <;> rfl

end Moved

@[simp] theorem toExpr_move (index : Operation → Nat) (tree : OperatorTree) :
    (tree.move φ).toExpr index = tree.toExpr index := by
  induction tree with
  | operand e => rfl
  | absent value => rfl
  | apply op start left right ihleft ihright =>
    rw [OperatorTree.move, OperatorTree.toExpr, OperatorTree.toExpr, ihleft, ihright]

@[simp] theorem isValue_move (t : Term) : (t.move φ).isValue = t.isValue := by
  cases t <;> rfl

theorem sitesAfter_move (before terms : List Term) :
    sitesAfter (before.map (Term.move φ)) (terms.map (Term.move φ)) =
      (sitesAfter before terms).map (Site.move φ) := by
  induction terms generalizing before with
  | nil => rfl
  | cons t terms ih =>
    have hcons := ih (t :: before)
    cases t with
    | value tree => exact hcons
    | operator op start => exact congrArg _ hcons

theorem sites_move (terms : List Term) :
    sites (terms.map (Term.move φ)) = (sites terms).map (Site.move φ) :=
  sitesAfter_move [] terms

theorem isReady_move (s : Site) : (s.move φ).isReady = s.isReady := by
  obtain ⟨before, op, start, after⟩ := s
  cases after with
  | nil => rfl
  | cons t after => exact isValue_move t

theorem precedence_move (s : Site) : (s.move φ).precedence = s.precedence := by
  obtain ⟨before, op, start, after⟩ := s
  cases before with
  | nil => rfl
  | cons t before => cases t <;> rfl

theorem select?_move (l : List Site) :
    select? (l.map (Site.move φ)) = (select? l).map (Site.move φ) := by
  induction l with
  | nil => rfl
  | cons s l ih =>
    rw [List.map_cons, select?, select?, ih, isReady_move]
    cases select? l with
    | none => cases s.isReady <;> rfl
    | some best =>
      simp only [Option.map_some, precedence_move]
      split <;> rfl

theorem readLiteral_move (literal : Text) (start : Nat) :
    readLiteral literal (φ start) = moved φ id (readLiteral literal start) := by
  rw [readLiteral, readLiteral]
  split <;> rfl

theorem defaultOperand_move (s : Site) (p : Option Parameter) :
    (s.move φ).defaultOperand p = moved φ (OperatorTree.move φ) (s.defaultOperand p) := by
  rw [Site.defaultOperand, Site.defaultOperand]
  split
  · rfl
  · have hread := readLiteral_move (φ := φ)
    rw [Site.move, hread]
    refine moved_map (fun value => ?_) _
    rfl

/-- An operand that is taken with the terms that are left. -/
def movedOperand (φ : Nat → Nat) (o : OperatorTree × List Term) : OperatorTree × List Term :=
  (o.1.move φ, o.2.map (Term.move φ))

theorem takeOperand_move (s : Site) (p : Option Parameter) (terms : List Term) :
    (match terms.map (Term.move φ) with
      | .value v :: rest => .ok (v, rest)
      | rest => (·, rest) <$> (s.move φ).defaultOperand p) =
    moved φ (movedOperand φ) (match terms with
      | .value v :: rest => .ok (v, rest)
      | rest => (·, rest) <$> s.defaultOperand p) := by
  match terms with
  | .value v :: rest => rfl
  | [] | .operator _ _ :: _ =>
    simp only [List.map_cons, List.map_nil, Term.move, defaultOperand_move]
    refine moved_map (fun tree => ?_) _
    rfl

theorem takeRight_move (s : Site) :
    (s.move φ).takeRight = moved φ (movedOperand φ) s.takeRight :=
  takeOperand_move s s.op.right? s.after

theorem takeLeft_move (s : Site) :
    (s.move φ).takeLeft = moved φ (movedOperand φ) s.takeLeft :=
  takeOperand_move s s.op.left? s.before

theorem collapse_move (s : Site) :
    (s.move φ).collapse = moved φ (List.map (Term.move φ)) s.collapse := by
  rw [Site.collapse, Site.collapse, takeRight_move, takeLeft_move]
  refine moved_bind (fun right => ?_) _
  refine moved_bind (fun left => ?_) _
  simp [movedOperand, Site.move, Term.move, OperatorTree.move, moved, pure, Except.pure]

theorem reduceSteps_move (n : Nat) (terms : List Term) :
    reduceSteps n (terms.map (Term.move φ)) =
      moved φ (List.map (Term.move φ)) (reduceSteps n terms) := by
  induction n generalizing terms with
  | zero => rfl
  | succ n ih =>
    rw [reduceSteps, reduceSteps, sites_move, select?_move]
    cases select? (sites terms) with
    | none => rfl
    | some s =>
      simp only [Option.map_some, collapse_move]
      exact moved_bind ih _

theorem soleValue_move (start : Nat) (terms : List Term) :
    soleValue (φ start) (terms.map (Term.move φ)) =
      moved φ (OperatorTree.move φ) (soleValue start terms) := by
  rw [soleValue, soleValue, sites_move, List.getLast?_map]
  cases sites terms with
  | cons s rest => rfl
  | nil =>
    cases terms.getLast? with
    | none => rfl
    | some t => cases t <;> rfl

/-- **A list of terms is reduced alike wherever it stands.** -/
theorem reduce_move (start : Nat) (terms : List Term) :
    reduce (φ start) (terms.map (Term.move φ)) =
      moved φ (OperatorTree.move φ) (reduce start terms) := by
  rw [reduce, reduce, sites_move, List.length_map, reduceSteps_move]
  exact moved_bind (soleValue_move start) _

/-! ## Parts -/

variable {R : Relabelling} {t : SymbolTable}

theorem defaultArguments_move (f : Text) (start index : Nat) (parameters : List PlacedParameter) :
    defaultArguments f (φ start) index parameters =
      moved φ id (defaultArguments f start index parameters) := by
  induction parameters generalizing index with
  | nil => rfl
  | cons p parameters ih =>
    rw [defaultArguments, defaultArguments]
    split
    · rfl
    · split
      · rfl
      · rw [readLiteral_move, ih]
        refine moved_bind (fun value => ?_) _
        refine moved_bind (fun rest => ?_) _
        rfl

theorem implicitMultiplication_move (afterValue : Bool) (start : Nat) :
    implicitMultiplication t afterValue (φ start) =
      moved φ (List.map (Term.move φ)) (implicitMultiplication t afterValue start) := by
  rw [implicitMultiplication, implicitMultiplication]
  split
  · split <;> rfl
  · rfl

theorem compileTerms_map_relabel {items : List Part}
    (h : ∀ p ∈ items, (p.relabel R).compile t = moved R.position id (p.compile t))
    (afterValue : Bool) :
    compileTerms t afterValue (relabelAll R items) =
      moved R.position (List.map (Term.move R.position)) (compileTerms t afterValue items) := by
  induction items generalizing afterValue with
  | nil => rw [relabelAll, compileTerms]; rfl
  | cons p items ih =>
    obtain ⟨hp, hitems⟩ := List.forall_mem_cons.1 h
    rw [relabelAll]
    by_cases hoperator : p.isOperator = true
    · obtain ⟨op, e, rfl⟩ := exists_of_isOperator hoperator
      rw [Part.relabel, compileTerms, compileTerms, ih hitems]
      refine moved_map (fun terms => ?_) _
      rfl
    · have hvalue : p.isOperator = false := by simpa using hoperator
      have hvalue' : (p.relabel R).isOperator = false := by rwa [isOperator_relabel]
      rw [compileTerms_value hvalue, compileTerms_value hvalue', hp, start_relabel,
        implicitMultiplication_move, ih hitems]
      refine moved_bind (fun value => ?_) _
      refine moved_bind (fun between => ?_) _
      refine moved_bind (fun rest => ?_) _
      simp [moved, Term.move, OperatorTree.move, pure, Except.pure]

/-- The tree of a relabelled list. -/
theorem operatorTree_relabelAll {items : List Part}
    (h : ∀ p ∈ items, (p.relabel R).compile t = moved R.position id (p.compile t)) (start : Nat) :
    operatorTree t (R.position start) (relabelAll R items) =
      moved R.position (OperatorTree.move R.position) (operatorTree t start items) := by
  rw [operatorTree, operatorTree, compileTerms_map_relabel h]
  exact moved_bind (reduce_move start) _

theorem compileSlots_map_relabel {slots : List Slot}
    (h : ∀ s ∈ slots, ∀ p ∈ s.items,
      (p.relabel R).compile t = moved R.position id (p.compile t)) :
    compileSlots t (relabelSlots R slots) = moved R.position id (compileSlots t slots) := by
  induction slots with
  | nil => rw [relabelSlots, compileSlots]; rfl
  | cons s slots ih =>
    obtain ⟨hs, hslots⟩ := List.forall_mem_cons.1 h
    have hslot : (s.relabel R).compile t = moved R.position id (s.compile t) := by
      obtain ⟨e, items⟩ := s
      have htree := operatorTree_relabelAll hs e.start
      rw [Slot.relabel, Slot.compile_eq, Slot.compile_eq]
      simp only [Slot.excerpt, Slot.items, Relabelling.area] at htree ⊢
      rw [htree]
      refine moved_map (fun tree => ?_) _
      exact toExpr_move _ tree
    rw [relabelSlots, compileSlots, compileSlots, hslot, ih hslots]
    refine moved_bind (fun value => ?_) _
    refine moved_bind (fun rest => ?_) _
    rfl

/-- A number that is read as before. -/
def Part.NumeralKept (R : Relabelling) : Part → Prop
  | .number e => e.text.map R.letter = e.text
  | _ => True

/-- **A relabelled part is compiled alike** if its numbers are kept. -/
theorem compile_part_relabel (p : Part) (h : ∀ q ∈ p.walk, q.NumeralKept R) :
    (p.relabel R).compile t = moved R.position id (p.compile t) := by
  induction p using Part.induction with
  | number e =>
    have hkept : e.text.map R.letter = e.text := h _ (mem_walk_self _)
    rw [Part.relabel, Part.compile, Part.compile, Relabelling.word, hkept, readLiteral_move]
    refine moved_map (fun value => ?_) _
    rfl
  | constant literal expression e =>
    rw [Part.relabel, Part.compile, Part.compile, Relabelling.word, readLiteral_move]
    refine moved_map (fun value => ?_) _
    rfl
  | operator op e | free literal e => rw [Part.relabel, Part.compile, Part.compile]; rfl
  | group e items ih =>
    simp only [Part.walk, List.forall_mem_cons] at h
    have hitems : ∀ p ∈ items, (p.relabel R).compile t = moved R.position id (p.compile t) :=
      fun p hp => ih p hp fun q hq => h.2 q (mem_walkAll.2 ⟨p, hp, hq⟩)
    have htree := operatorTree_relabelAll hitems e.start
    rw [Part.relabel, compile_group, compile_group, Relabelling.area, htree]
    refine moved_map (fun tree => ?_) _
    exact toExpr_move _ tree
  | call f e slots ih =>
    simp only [Part.walk, List.forall_mem_cons] at h
    have hslots : compileSlots t (relabelSlots R slots) =
        moved R.position id (compileSlots t slots) :=
      compileSlots_map_relabel fun s hs p hp => ih s hs p hp fun q hq =>
        h.2 q (mem_walkSlots.2 ⟨s, hs, mem_walkAll.2 ⟨p, hp, hq⟩⟩)
    have hsupplied : (if suppliedArguments slots = 0 then .ok [] else
        compileSlots t (relabelSlots R slots)) = moved R.position id
          (if suppliedArguments slots = 0 then .ok [] else compileSlots t slots) := by
      rw [hslots]
      split <;> rfl
    rw [Part.relabel, compile_call, compile_call, suppliedArguments_relabelSlots, hsupplied]
    refine moved_bind (fun supplied => ?_) _
    rw [missingArguments, missingArguments, Relabelling.word, defaultArguments_move]
    refine moved_bind (fun missing => ?_) _
    rfl

/-! ## Formulas -/

variable {text text' : Text} {r : Registry}

/-- Numbers keep their digits, their point and their sign. -/
theorem Relabelling.Suits.numeralKept (h : R.Suits text text') (r : Registry) :
    ∀ p ∈ walkAll (parse r text).items, p.NumeralKept R := by
  intro p hp
  cases p with
  | number e =>
    have hplain {t : Text} (ht : Numeral.isPlain t = true) : t.map R.letter = t :=
      (List.map_congr_left fun c hc => h.letter_numeral c
        ((Numeral.isDigit_of_mem_isPlain ht hc).imp_right .inl)).trans (List.map_id t)
    have hleaf : Leaf.number e ∈ leaves (parse r text).items :=
      List.mem_filterMap.2 ⟨_, hp, rfl⟩
    rcases genuine_leaves_parse r text _ hleaf with hgenuine | ⟨t, hsign, hgenuine⟩
    · exact hplain hgenuine
    · have hminus : R.letter '-' = '-' := h.letter_numeral '-' (.inr (.inr rfl))
      rw [Part.NumeralKept, hsign, List.map_cons, hminus, hplain hgenuine]
  | operator | constant | free | group | call => trivial

/-- Operations and variables are numbered as before. -/
theorem ofParse_relabel {p p' : Parse} (hregistry : p'.registry = p.registry)
    (hitems : p'.items = relabelAll R p.items) : SymbolTable.ofParse p' = .ofParse p := by
  have hoperation : Part.operation? ∘ Part.relabel R = Part.operation? :=
    funext operation?_relabel
  have hname : Part.freeName? ∘ Part.relabel R = Part.freeName? := funext freeName?_relabel
  simp only [SymbolTable.ofParse, Parse.freeVariables, hregistry, hitems, walkAll_relabelAll,
    List.filterMap_map, hoperation, hname]

/-- **A relabelled formula is compiled to the same**, or to the same error elsewhere. -/
theorem compile_relabel (h : R.Suits text text')
    (htokens : Relabels R 0 (tokens r text) (tokens r text')) :
    compile (parse r text') = moved R.position id (compile (parse r text)) := by
  obtain ⟨hitems, herrors, -⟩ := parse_relabel h htokens
  have htable : SymbolTable.ofParse (parse r text') = .ofParse (parse r text) :=
    ofParse_relabel rfl hitems
  have hparts : ∀ p ∈ (parse r text).items,
      (p.relabel R).compile (.ofParse (parse r text)) =
        moved R.position id (p.compile (.ofParse (parse r text))) :=
    fun p hp => compile_part_relabel p fun q hq =>
      h.numeralKept r q (mem_walkAll.2 ⟨p, hp, hq⟩)
  have htree := operatorTree_relabelAll hparts 0
  rw [h.position_zero, ← hitems] at htree
  simp only [compile, htable, htree, herrors, List.isEmpty_map, List.length_map]
  split
  · refine moved_bind (fun tree => ?_) _
    rw [toExpr_move]
    rfl
  · rfl

end Formula

import Formula.Compile
import Formula.Proofs.Part.Operands
import Formula.Proofs.Part.SiblingLists
import Formula.Proofs.Reduction

/-!
# Compiling sibling lists

Each sibling list is compiled by itself: its parts become terms, and the terms are reduced to a tree.
So what the compilation of a formula returns is put together from the trees of its sibling lists, and
each of its errors arises at a single part.
-/

namespace Formula

variable {t : SymbolTable}

theorem exists_of_isOperator {p : Part} (h : p.isOperator = true) :
    ∃ op written, p = .operator op written := by
  cases p with
  | operator op written => exact ⟨op, written, rfl⟩
  | number | constant | free | group | call => cases h

/-- Any other part than an operator becomes a value, after a multiplication if another value stands
before it. -/
theorem compileTerms_value {p : Part} (hp : p.isOperator = false) (afterValue : Bool)
    (ps : List Part) : compileTerms t afterValue (p :: ps) = (do
      let value ← p.compile t
      let between ← implicitMultiplication t afterValue p.start
      let rest ← compileTerms t true ps
      return between ++ .value (.operand value) :: rest) := by
  cases p <;> first | rfl | cases hp

/-- The terms of a sibling list, or of the rest of one after a value. -/
inductive CompilesTo (t : SymbolTable) : Bool → List Part → List Term → Prop
  /-- Nothing is left. -/
  | nil {afterValue : Bool} : CompilesTo t afterValue [] []
  /-- An operator is a term. -/
  | operator {afterValue : Bool} {op : Operator} {e : Excerpt} {ps : List Part} {ts : List Term} :
    CompilesTo t false ps ts →
    CompilesTo t afterValue (.operator op e :: ps) (.operator op e.start :: ts)
  /-- Any other part is a value. -/
  | value {p : Part} {e : Expr} {ps : List Part} {ts : List Term} :
    p.isOperator = false → p.compile t = .ok e → CompilesTo t true ps ts →
    CompilesTo t false (p :: ps) (.value (.operand e) :: ts)
  /-- A value after another one is multiplied with it. -/
  | product {p : Part} {e : Expr} {op : Operator} {ps : List Part} {ts : List Term} :
    p.isOperator = false → p.compile t = .ok e → t.multiplication? = some op →
    CompilesTo t true ps ts →
    CompilesTo t true (p :: ps) (.operator op p.start :: .value (.operand e) :: ts)

theorem compilesTo_of_compileTerms {items : List Part} {afterValue : Bool} {terms : List Term}
    (h : compileTerms t afterValue items = .ok terms) : CompilesTo t afterValue items terms := by
  induction items generalizing afterValue terms with
  | nil =>
    rw [compileTerms] at h
    cases h
    exact .nil
  | cons p items ih =>
    by_cases hp : p.isOperator = true
    · obtain ⟨op, written, rfl⟩ := exists_of_isOperator hp
      rw [compileTerms] at h
      obtain ⟨rest, hr, rfl⟩ := map_eq_ok_iff.1 h
      exact .operator (ih hr)
    · rw [Bool.not_eq_true] at hp
      rw [compileTerms_value hp] at h
      obtain ⟨value, hv, h⟩ := bind_eq_ok_iff.1 h
      obtain ⟨between, hb, h⟩ := bind_eq_ok_iff.1 h
      obtain ⟨rest, hr, h⟩ := bind_eq_ok_iff.1 h
      cases h
      cases afterValue with
      | false =>
        cases hb
        exact .value hp hv (ih hr)
      | true =>
        rw [implicitMultiplication, if_pos rfl] at hb
        split at hb
        · rename_i op hop
          cases hb
          exact .product hp hv hop (ih hr)
        · cases hb

theorem CompilesTo.eq_nil_iff {items : List Part} {afterValue : Bool} {terms : List Term}
    (h : CompilesTo t afterValue items terms) : terms = [] ↔ items = [] := by
  cases h <;> simp

/-- **The terms of a complete list are balanced.** -/
theorem CompilesTo.balanced {items : List Part} {afterValue : Bool} {terms : List Term}
    (h : CompilesTo t afterValue items terms) (hcomplete : Complete afterValue items) :
    Balanced afterValue false terms := by
  induction h with
  | nil => trivial
  | operator hrest ih =>
    refine ⟨hcomplete.1.1, ?_, ih hcomplete.2⟩
    rcases hcomplete.1.2 with hright | hright
    · exact .inl (by simpa [hrest.eq_nil_iff] using hright)
    · exact .inr (.inr hright)
  | value hp _ _ ih =>
    obtain ⟨-, hrest⟩ := hcomplete
    rw [hp] at hrest
    exact ⟨rfl, ih hrest⟩
  | product hp _ _ _ ih =>
    obtain ⟨-, hrest⟩ := hcomplete
    rw [hp] at hrest
    exact ⟨.inl rfl, .inl (by simp), rfl, ih hrest⟩

/-- In a list that can be compiled, every part but the operators can be compiled by itself. -/
theorem CompilesTo.exists_compile {items : List Part} {afterValue : Bool} {terms : List Term}
    (h : CompilesTo t afterValue items terms) :
    ∀ p ∈ items, p.isOperator = false → ∃ value, p.compile t = .ok value := by
  induction h with
  | nil => simp
  | operator _ ih =>
    intro p hp hop
    rcases List.mem_cons.1 hp with rfl | hp
    · cases hop
    · exact ih p hp hop
  | value _ hv _ ih =>
    intro p hp hop
    rcases List.mem_cons.1 hp with rfl | hp
    · exact ⟨_, hv⟩
    · exact ih p hp hop
  | product _ hv _ _ ih =>
    intro p hp hop
    rcases List.mem_cons.1 hp with rfl | hp
    · exact ⟨_, hv⟩
    · exact ih p hp hop

/-- What goes wrong with the terms of a list goes wrong with one of its parts, or a multiplication is
missing. -/
theorem compileTerms_eq_error {items : List Part} {afterValue : Bool} {e : CompileError}
    (h : compileTerms t afterValue items = .error e) :
    (∃ p ∈ items, p.isOperator = false ∧ p.compile t = .error e) ∨
      t.multiplication? = none ∧ ∃ start, e = .missingMultiplication start := by
  have hcons : ∀ {p : Part} {items : List Part},
      (∃ q ∈ items, q.isOperator = false ∧ q.compile t = .error e) ∨
        t.multiplication? = none ∧ (∃ start, e = .missingMultiplication start) →
      (∃ q ∈ p :: items, q.isOperator = false ∧ q.compile t = .error e) ∨
        t.multiplication? = none ∧ ∃ start, e = .missingMultiplication start :=
    Or.imp_left fun ⟨q, hq, h⟩ => ⟨q, List.mem_cons_of_mem _ hq, h⟩
  induction items generalizing afterValue with
  | nil =>
    rw [compileTerms] at h
    cases h
  | cons p items ih =>
    by_cases hp : p.isOperator = true
    · obtain ⟨op, written, rfl⟩ := exists_of_isOperator hp
      rw [compileTerms, map_eq_error_iff] at h
      exact hcons (ih h)
    · rw [Bool.not_eq_true] at hp
      rw [compileTerms_value hp] at h
      rcases bind_eq_error_iff.1 h with h | ⟨value, -, h⟩
      · exact .inl ⟨p, List.mem_cons_self, hp, h⟩
      · rcases bind_eq_error_iff.1 h with h | ⟨between, -, h⟩
        · rw [implicitMultiplication] at h
          split at h
          · split at h
            · cases h
            · rename_i hnone
              cases h
              exact .inr ⟨hnone, _, rfl⟩
          · cases h
        · exact hcons (ih (bind_pure_eq_error_iff.1 h))

theorem suppliedArguments_eq_length {slots : List Slot} (h : suppliedArguments slots ≠ 0) :
    suppliedArguments slots = slots.length := by
  match slots, h with
  | [], h => exact absurd rfl h
  | [s], h =>
    cases hs : s.isEmpty
    · simp [suppliedArguments, hs]
    · simp [suppliedArguments, hs] at h
  | _ :: _ :: _, _ => rfl

/-- A call that supplies no argument has one slot at most, which holds nothing. -/
theorem eq_singleton_of_suppliedArguments {slots : List Slot} (h : suppliedArguments slots = 0)
    {s : Slot} (hs : s ∈ slots) : slots = [s] ∧ s.items = [] := by
  match slots, h, hs with
  | [u], h, hs =>
    obtain rfl := List.mem_singleton.1 hs
    refine ⟨rfl, ?_⟩
    by_contra hne
    simp [suppliedArguments, Slot.isEmpty, hne] at h
  | _ :: _ :: _, h, _ => cases h

/-- The slots of a call that supplies arguments, and lacks none, hold something. -/
theorem ne_nil_of_supplied {f : Operation} {e : Excerpt} {slots : List Slot} {hasLeft hasRight : Bool}
    (hsupplied : (Part.call f e slots).Supplied hasLeft hasRight)
    (hne : suppliedArguments slots ≠ 0) : ∀ s ∈ slots, s.items ≠ [] := by
  intro s hs hnil
  rcases hsupplied.2 with hshort | hfull
  · match slots, hshort, hs with
    | [s], _, hs =>
      obtain rfl := List.mem_singleton.1 hs
      simp [suppliedArguments, Slot.isEmpty, hnil] at hne
  · simpa [Slot.isEmpty, hnil] using hfull s hs

theorem length_compileSlots {slots : List Slot} {values : List Expr}
    (h : compileSlots t slots = .ok values) : values.length = slots.length := by
  induction slots generalizing values with
  | nil => rw [compileSlots] at h; cases h; rfl
  | cons s slots ih =>
    rw [compileSlots] at h
    obtain ⟨value, -, h⟩ := bind_eq_ok_iff.1 h
    obtain ⟨rest, hr, h⟩ := bind_eq_ok_iff.1 h
    cases h
    simp [ih hr]

theorem exists_slot_of_compileSlots {slots : List Slot} {values : List Expr}
    (h : compileSlots t slots = .ok values) : ∀ v ∈ values, ∃ s ∈ slots, s.compile t = .ok v := by
  induction slots generalizing values with
  | nil =>
    rw [compileSlots] at h
    cases h
    simp
  | cons s slots ih =>
    rw [compileSlots] at h
    obtain ⟨value, hv, h⟩ := bind_eq_ok_iff.1 h
    obtain ⟨rest, hr, h⟩ := bind_eq_ok_iff.1 h
    cases h
    intro v hmem
    rcases List.mem_cons.1 hmem with rfl | hmem
    · exact ⟨s, List.mem_cons_self, hv⟩
    · obtain ⟨u, hu, hcompile⟩ := ih hr v hmem
      exact ⟨u, List.mem_cons_of_mem _ hu, hcompile⟩

theorem compileSlots_eq_error {slots : List Slot} {e : CompileError}
    (h : compileSlots t slots = .error e) : ∃ s ∈ slots, s.compile t = .error e := by
  induction slots with
  | nil =>
    rw [compileSlots] at h
    cases h
  | cons s slots ih =>
    rw [compileSlots] at h
    rcases bind_eq_error_iff.1 h with h | ⟨value, -, h⟩
    · exact ⟨s, List.mem_cons_self, h⟩
    · obtain ⟨u, hu, h⟩ := ih (bind_pure_eq_error_iff.1 h)
      exact ⟨u, List.mem_cons_of_mem _ hu, h⟩

theorem exists_compile_of_compileSlots {slots : List Slot} {values : List Expr}
    (h : compileSlots t slots = .ok values) : ∀ s ∈ slots, ∃ value, s.compile t = .ok value := by
  induction slots generalizing values with
  | nil => simp
  | cons s slots ih =>
    rw [compileSlots] at h
    obtain ⟨value, hv, h⟩ := bind_eq_ok_iff.1 h
    obtain ⟨rest, hr, -⟩ := bind_eq_ok_iff.1 h
    intro u hu
    rcases List.mem_cons.1 hu with rfl | hu
    · exact ⟨value, hv⟩
    · exact ih hr u hu

/-- The arguments that a call supplies. -/
theorem length_supplied {slots : List Slot} {values : List Expr}
    (h : (if suppliedArguments slots = 0 then .ok [] else compileSlots t slots) = .ok values) :
    values.length = suppliedArguments slots := by
  split at h
  · rename_i hzero
    cases h
    exact hzero.symm
  · rename_i hne
    rw [length_compileSlots h, suppliedArguments_eq_length hne]

/-- A call is compiled slot by slot, and then filled up. -/
theorem compile_call (f : Operation) (e : Excerpt) (slots : List Slot) :
    (Part.call f e slots).compile t =
      ((if suppliedArguments slots = 0 then .ok [] else compileSlots t slots) >>= fun supplied =>
        missingArguments f e.start (suppliedArguments slots) >>= fun missing =>
          pure (.call (t.operationIndex f) (supplied ++ missing))) := by
  rw [Part.compile]
  by_cases hzero : suppliedArguments slots = 0
  · rw [if_pos hzero, if_pos hzero, hzero]
    rfl
  · rw [if_neg hzero, if_neg hzero]
    cases h : compileSlots t slots with
    | error err => rfl
    | ok values =>
      rw [suppliedArguments_eq_length hzero, ← length_compileSlots h]
      rfl

/-- What a call is compiled to. -/
theorem compile_call_eq_ok {f : Operation} {e : Excerpt} {slots : List Slot} {value : Expr}
    (h : (Part.call f e slots).compile t = .ok value) :
    ∃ supplied missing,
      (if suppliedArguments slots = 0 then .ok [] else compileSlots t slots) = .ok supplied ∧
      missingArguments f e.start (suppliedArguments slots) = .ok missing ∧
      value = .call (t.operationIndex f) (supplied ++ missing) := by
  rw [compile_call] at h
  obtain ⟨supplied, hsupplied, h⟩ := bind_eq_ok_iff.1 h
  obtain ⟨missing, hmissing, h⟩ := bind_eq_ok_iff.1 h
  cases h
  exact ⟨supplied, missing, hsupplied, hmissing, rfl⟩

/-- What goes wrong with a call goes wrong with one of its slots or with the arguments that it leaves
out. -/
theorem compile_call_eq_error {f : Operation} {name : Excerpt} {slots : List Slot}
    {e : CompileError} (h : (Part.call f name slots).compile t = .error e) :
    (suppliedArguments slots ≠ 0 ∧ ∃ s ∈ slots, s.compile t = .error e) ∨
      missingArguments f name.start (suppliedArguments slots) = .error e := by
  rw [compile_call] at h
  rcases bind_eq_error_iff.1 h with h | ⟨supplied, -, h⟩
  · split at h
    · cases h
    · rename_i hne
      exact .inl ⟨hne, compileSlots_eq_error h⟩
  · exact .inr (bind_pure_eq_error_iff.1 h)

/-! ## Trees -/

/-- A group is compiled to the tree of its list. -/
theorem compile_group (e : Excerpt) (items : List Part) :
    (Part.group e items).compile t =
      (fun tree => tree.toExpr t.operationIndex) <$> operatorTree t e.start items := by
  rw [Part.compile, operatorTree]
  cases compileTerms t false items <;> rfl

/-- A slot is compiled to the tree of its list. -/
theorem Slot.compile_eq (s : Slot) :
    s.compile t =
      (fun tree => tree.toExpr t.operationIndex) <$> operatorTree t s.excerpt.start s.items := by
  obtain ⟨e, items⟩ := s
  rw [Slot.compile, operatorTree]
  simp only [Slot.excerpt, Slot.items]
  cases compileTerms t false items <;> rfl

/-- An empty list has no tree. -/
theorem ne_nil_of_operatorTree {items : List Part} {start : Nat} {tree : OperatorTree}
    (h : operatorTree t start items = .ok tree) : items ≠ [] := by
  rintro rfl
  rw [operatorTree, compileTerms] at h
  cases h

/-- The tree that is built for a sibling list, wherever the list starts. -/
def Builds (t : SymbolTable) (items : List Part) (tree : OperatorTree) : Prop :=
  ∀ start, operatorTree t start items = .ok tree

theorem builds_of_operatorTree {items : List Part} {start : Nat} {tree : OperatorTree}
    (h : operatorTree t start items = .ok tree) : Builds t items tree := by
  intro other
  obtain ⟨terms, hterms, h⟩ := bind_eq_ok_iff.1 h
  obtain ⟨last, hlast, h⟩ := bind_eq_ok_iff.1 h
  refine bind_eq_ok_iff.2 ⟨terms, hterms, bind_eq_ok_iff.2 ⟨last, hlast, ?_⟩⟩
  rw [soleValue] at h ⊢
  split at h
  · cases h
  · split at h
    · exact h
    · cases h

theorem Builds.compile_group {items : List Part} {tree : OperatorTree} (h : Builds t items tree)
    (e : Excerpt) : (Part.group e items).compile t = .ok (tree.toExpr t.operationIndex) := by
  rw [Formula.compile_group, h]
  rfl

theorem Builds.compile_slot {items : List Part} {tree : OperatorTree} (h : Builds t items tree)
    (e : Excerpt) : (Slot.mk e items).compile t = .ok (tree.toExpr t.operationIndex) := by
  rw [Slot.compile_eq]
  simp only [Slot.items, h _]
  rfl

theorem exists_tree_of_call {f : Operation} {name : Excerpt} {slots : List Slot} {value : Expr}
    (h : (Part.call f name slots).compile t = .ok value) :
    ∀ s ∈ slots, (slots = [s] ∧ s.items = []) ∨ ∃ tree, Builds t s.items tree := by
  intro s hs
  obtain ⟨values, missing, hvalues, -⟩ := compile_call_eq_ok h
  split at hvalues
  · rename_i hzero
    exact .inl (eq_singleton_of_suppliedArguments hzero hs)
  · obtain ⟨value, hv⟩ := exists_compile_of_compileSlots hvalues s hs
    rw [Slot.compile_eq] at hv
    obtain ⟨tree, htree, -⟩ := map_eq_ok_iff.1 hv
    exact .inr ⟨tree, builds_of_operatorTree htree⟩

/-- **If a formula can be compiled, a tree is built for each sibling list of it.**  The only
exception is the only slot of a call without arguments. -/
theorem SiblingList.exists_builds {items : List Part} {tree : OperatorTree}
    (h : Builds t items tree) {l : List Part} (hl : SiblingList items l) :
    (l = [] ∧ ∃ f name s, .call f name [s] ∈ walkAll items ∧ s.items = []) ∨
      ∃ tree, Builds t l tree := by
  -- the parts of a list that is built can be compiled, and an empty one has none
  have hparts : ∀ l, (l = [] ∧ ∃ f name s, .call f name [s] ∈ walkAll items ∧ s.items = []) ∨
        (∃ tree, Builds t l tree) →
      ∀ p ∈ l, p.isOperator = false → ∃ value, p.compile t = .ok value := by
    rintro l (⟨rfl, -⟩ | ⟨tree, htree⟩) p hp hop
    · cases hp
    · obtain ⟨terms, hterms, -⟩ := bind_eq_ok_iff.1 (htree 0)
      exact (compilesTo_of_compileTerms hterms).exists_compile p hp hop
  induction hl with
  | whole => exact .inr ⟨tree, h⟩
  | @group l inner e _ hmem ih =>
    obtain ⟨value, hv⟩ := hparts l ih _ hmem rfl
    rw [compile_group] at hv
    obtain ⟨tree, htree, -⟩ := map_eq_ok_iff.1 hv
    exact .inr ⟨tree, builds_of_operatorTree htree⟩
  | @slot l f name slots s hl hmem hs ih =>
    obtain ⟨value, hv⟩ := hparts l ih _ hmem rfl
    rcases exists_tree_of_call hv s hs with ⟨rfl, hnil⟩ | hbuilds
    · exact .inl ⟨hnil, f, name, s, mem_walkAll_iff.2 ⟨l, hl, hmem⟩, hnil⟩
    · exact .inr hbuilds

/-- In a formula that can be compiled, every part but the operators can be compiled by itself. -/
theorem exists_compile_of_mem_walkAll {items : List Part} {tree : OperatorTree}
    (h : Builds t items tree) {p : Part} (hp : p ∈ walkAll items) (hop : p.isOperator = false) :
    ∃ value, p.compile t = .ok value := by
  obtain ⟨l, hl, hp⟩ := mem_walkAll_iff.1 hp
  rcases hl.exists_builds h with ⟨rfl, -⟩ | ⟨tree, htree⟩
  · cases hp
  · obtain ⟨terms, hterms, -⟩ := bind_eq_ok_iff.1 (htree 0)
    exact (compilesTo_of_compileTerms hterms).exists_compile p hp hop

/-! ## Errors -/

/-- Whether all errors that arise at a part, and not inside the lists in it, satisfy `P`. -/
def Part.Raises (t : SymbolTable) (P : CompileError → Prop) : Part → Prop
  | .number written => ∀ e, readLiteral written.text written.start = .error e → P e
  | .constant _ expression written => ∀ e, readLiteral expression written.start = .error e → P e
  | .group written items => ∀ terms e, compileTerms t false items = .ok terms →
      reduce written.start terms = .error e → P e
  | .call f name slots =>
    (suppliedArguments slots ≠ 0 → ∀ s ∈ slots, ∀ terms e, compileTerms t false s.items = .ok terms →
      reduce s.excerpt.start terms = .error e → P e) ∧
    ∀ e, missingArguments f name.start (suppliedArguments slots) = .error e → P e
  | _ => True

section Raises

variable {P : CompileError → Prop} {e : CompileError}

/-- The errors of a list are those of its parts, of the reduction, and missing multiplications. -/
theorem operatorTree_eq_error {items : List Part} {start : Nat}
    (hmul : t.multiplication? = none → ∀ start, P (.missingMultiplication start))
    (hparts : ∀ p ∈ items, p.isOperator = false → ∀ e, p.compile t = .error e → P e)
    (hreduce : ∀ terms e, compileTerms t false items = .ok terms → reduce start terms = .error e → P e)
    (h : operatorTree t start items = .error e) : P e := by
  rcases bind_eq_error_iff.1 h with h | ⟨terms, hterms, h⟩
  · rcases compileTerms_eq_error h with ⟨p, hp, hop, h⟩ | ⟨hnone, start, rfl⟩
    · exact hparts p hp hop e h
    · exact hmul hnone start
  · exact hreduce terms e hterms h

/-- **The errors of a part are those that arise at the parts in it.** -/
theorem Part.error_of_raises (hmul : t.multiplication? = none → ∀ start, P (.missingMultiplication start))
    (p : Part) (hop : p.isOperator = false) (hraises : ∀ q ∈ p.walk, q.Raises t P)
    (h : p.compile t = .error e) : P e := by
  have hself := hraises p (mem_walk_self p)
  induction p using Part.induction generalizing e with
  | number written =>
    rw [Part.compile, map_eq_error_iff] at h
    exact hself e h
  | constant literal expression written =>
    rw [Part.compile, map_eq_error_iff] at h
    exact hself e h
  | free literal written =>
    rw [Part.compile] at h
    cases h
  | operator op written => cases hop
  | group written items ih =>
    rw [Formula.compile_group, map_eq_error_iff] at h
    have hinner : ∀ p ∈ items, ∀ q ∈ p.walk, q.Raises t P := by
      intro p hp q hq
      refine hraises q ?_
      rw [Part.walk]
      exact List.mem_cons_of_mem _ (mem_walkAll.2 ⟨p, hp, hq⟩)
    refine operatorTree_eq_error hmul ?_ hself h
    intro p hp hpop e he
    exact ih p hp hpop (hinner p hp) he (hinner p hp p (mem_walk_self p))
  | call f name slots ih =>
    have hinner : ∀ s ∈ slots, ∀ p ∈ s.items, ∀ q ∈ p.walk, q.Raises t P := by
      intro s hs p hp q hq
      refine hraises q ?_
      rw [Part.walk]
      exact List.mem_cons_of_mem _ (mem_walkSlots.2 ⟨s, hs, mem_walkAll.2 ⟨p, hp, hq⟩⟩)
    rcases compile_call_eq_error h with ⟨hne, s, hs, h⟩ | h
    · rw [Slot.compile_eq, map_eq_error_iff] at h
      refine operatorTree_eq_error hmul ?_ (hself.1 hne s hs) h
      intro p hp hpop e he
      exact ih s hs p hp hpop (hinner s hs p hp) he (hinner s hs p hp p (mem_walk_self p))
    · exact hself.2 e h

/-- **The errors of a formula are those that arise at its parts**, and those of the reduction of the
whole list. -/
theorem error_of_raises {items : List Part} {start : Nat}
    (hmul : t.multiplication? = none → ∀ start, P (.missingMultiplication start))
    (hraises : ∀ q ∈ walkAll items, q.Raises t P)
    (hreduce : ∀ terms e, compileTerms t false items = .ok terms → reduce start terms = .error e → P e)
    (h : operatorTree t start items = .error e) : P e := by
  refine operatorTree_eq_error hmul ?_ hreduce h
  intro p hp hop e he
  exact p.error_of_raises hmul hop (fun q hq => hraises q (mem_walkAll.2 ⟨p, hp, hq⟩)) he

end Raises

end Formula

import Formula.Proofs.Compilation
import Mathlib.Data.List.Forall2

/-!
# The order of operands and operators

A tree of operators is read *in order*: the left operand, the operator, the right operand.  Read in
this way, the tree of a sibling list is the list itself, with a multiplication between values that
stand side by side and the default value in the place of each operand that is left out.

An operator that takes its operands changes the list of terms, but not its reading, if the operands
that are absent are filled in: an operator lacks its left operand if no value stands before it, and
its right operand if nothing comes after it, and this stays as it is while other operators take
their operands.  `Filled` relates a list of terms to its reading, and each step of the reduction
keeps it.
-/

namespace Formula

/-- The operands and operators of a tree, from left to right. -/
def OperatorTree.inOrder : OperatorTree → List Term
  | operand e => [.value (.operand e)]
  | absent value => [.value (.absent value)]
  | apply op start left right => left.inOrder ++ .operator op start :: right.inOrder

/-- What has to be filled in for an operand: nothing if it is present, its default value
otherwise. -/
def FillsIn (present : Bool) (p : Option Parameter) (w : List Term) : Prop :=
  if present then w = [] else ∃ value, DefaultsTo p value ∧ w = [.value (.absent value)]

/-- The reading of a list of terms.  A value stands before the list if `left` is set, and a term
after it if `right` is. -/
def Filled (left right : Bool) : List Term → List Term → Prop
  | [], w => w = []
  | .value tree :: ts, w => ∃ v, Filled true right ts v ∧ w = tree.inOrder ++ v
  | .operator op start :: ts, w => ∃ x y v, FillsIn left op.left? x ∧
      FillsIn (right || !ts.isEmpty) op.right? y ∧ Filled false right ts v ∧
      w = x ++ .operator op start :: (y ++ v)

theorem fillsIn_true (p : Option Parameter) : FillsIn true p [] := rfl

theorem fillsIn_absent {p : Option Parameter} {value : Float} (h : DefaultsTo p value) :
    FillsIn false p (OperatorTree.absent value).inOrder :=
  ⟨value, h, rfl⟩

theorem filled_append {left right : Bool} {xs ys w : List Term} :
    Filled left right (xs ++ ys) w ↔
      ∃ u v, Filled left (right || !ys.isEmpty) xs u ∧ Filled (endsInValue left xs) right ys v ∧
        w = u ++ v := by
  induction xs generalizing left w with
  | nil => simp [Filled, endsInValue]
  | cons x xs ih =>
    cases x with
    | value tree =>
      simp only [List.cons_append, Filled, endsInValue, ih]
      constructor
      · rintro ⟨-, ⟨u, v, hu, hv, rfl⟩, rfl⟩
        exact ⟨tree.inOrder ++ u, v, ⟨u, hu, rfl⟩, hv, by simp⟩
      · rintro ⟨-, v, ⟨u, hu, rfl⟩, hv, rfl⟩
        exact ⟨u ++ v, ⟨u, v, hu, hv, rfl⟩, by simp⟩
    | operator op start =>
      have hright : (right || !(xs ++ ys).isEmpty) = ((right || !ys.isEmpty) || !xs.isEmpty) := by
        cases right <;> cases xs <;> simp
      simp only [List.cons_append, Filled, endsInValue, ih, hright]
      constructor
      · rintro ⟨x, y, -, hx, hy, ⟨u, v, hu, hv, rfl⟩, rfl⟩
        exact ⟨x ++ .operator op start :: (y ++ u), v, ⟨x, y, u, hx, hy, hu, rfl⟩, hv, by simp⟩
      · rintro ⟨-, v, ⟨x, y, u, hx, hy, hu, rfl⟩, hv, rfl⟩
        exact ⟨x, y, u ++ v, hx, hy, ⟨u, v, hu, hv, rfl⟩, by simp⟩

namespace Site

variable {s : Site}

/-- The right operand reads as what it was taken from. -/
theorem filled_of_takesRight {right : OperatorTree} {after v : List Term}
    (h : s.TakesRight right after) (hv : Filled true false after v) :
    ∃ y u, FillsIn (!s.after.isEmpty) s.op.right? y ∧ Filled false false s.after u ∧
      y ++ u = right.inOrder ++ v := by
  rcases h with hs | ⟨hs, rfl, value, hvalue, rfl⟩
  · rw [hs]
    exact ⟨[], right.inOrder ++ v, fillsIn_true _, ⟨v, hv, rfl⟩, rfl⟩
  · obtain rfl : v = [] := hv
    rw [hs]
    exact ⟨_, [], fillsIn_absent hvalue, rfl, rfl⟩

/-- The left operand reads as what it was taken from. -/
theorem filled_of_takesLeft {left : OperatorTree} {before u : List Term}
    (h : s.TakesLeft left before) (hu : Filled false true before.reverse u) :
    ∃ v x, Filled false true s.before.reverse v ∧
      FillsIn (endsInValue false s.before.reverse) s.op.left? x ∧ v ++ x = u ++ left.inOrder := by
  rcases h with hs | ⟨hend, rfl, value, hvalue, rfl⟩
  · have hleft : Filled false true (before.reverse ++ [.value left]) (u ++ left.inOrder) :=
      filled_append.2 ⟨u, left.inOrder, by simpa using hu, ⟨[], rfl, by simp⟩, rfl⟩
    rw [hs, List.reverse_cons]
    refine ⟨_, [], hleft, ?_, List.append_nil _⟩
    simp [endsInValue_append, endsInValue, fillsIn_true]
  · rw [hend]
    exact ⟨u, _, hu, fillsIn_absent hvalue, rfl⟩

/-- **An operator that takes its operands keeps the reading of the list.** -/
theorem filled_of_collapse {new w : List Term} (hready : s.isReady = true)
    (h : s.collapse = .ok new) (hnew : Filled false false new w) : Filled false false s.terms w := by
  obtain ⟨left, right, before, after, hleft, hright, rfl⟩ := collapse_eq_ok hready h
  obtain ⟨u, -, hu, ⟨v, hv, rfl⟩, rfl⟩ := filled_append.1 hnew
  obtain ⟨y, v', hy, hv', hyv⟩ := filled_of_takesRight hright hv
  obtain ⟨u', x, hu', hx, hxu⟩ := filled_of_takesLeft hleft (by simpa using hu)
  refine filled_append.2 ⟨u', x ++ .operator s.op s.start :: (y ++ v'), by simpa using hu',
    ⟨x, y, v', hx, by simpa using hy, hv', rfl⟩, ?_⟩
  calc
    u ++ (left.inOrder ++ .operator s.op s.start :: right.inOrder ++ v)
      = (u ++ left.inOrder) ++ .operator s.op s.start :: (right.inOrder ++ v) := by simp
    _ = (u' ++ x) ++ .operator s.op s.start :: (y ++ v') := by rw [hxu, hyv]
    _ = u' ++ (x ++ .operator s.op s.start :: (y ++ v')) := by simp

end Site

/-- **A run keeps the reading of the list.** -/
theorem Reduces.filled {terms new w : List Term} (h : Reduces terms new)
    (hnew : Filled false false new w) : Filled false false terms w := by
  induction h with
  | refl => exact hnew
  | step hs hc _ ih => exact Site.filled_of_collapse (isReady_of_select? hs).2 hc (ih hnew)

/-- The reading of a list is that of the tree that a run leaves of it. -/
theorem Reduces.filled_inOrder {terms : List Term} {tree : OperatorTree}
    (h : Reduces terms [.value tree]) : Filled false false terms tree.inOrder :=
  h.filled ⟨[], rfl, (List.append_nil _).symm⟩

/-! ## Sibling lists -/

/-- An element of a sibling list with nothing left out. -/
inductive Piece
  /-- A part that is a value. -/
  | value (p : Part)
  /-- An operator of the list, and its position. -/
  | operator (op : Operator) (start : Nat)
  /-- The multiplication in front of the value at a position. -/
  | multiplication (start : Nat)
  /-- An operand that is left out. -/
  | absent (p : Option Parameter)

/-- A sibling list, or the rest of one after a value, with nothing left out. -/
def spelledOut (afterValue : Bool) : List Part → List Piece
  | [] => []
  | .operator op e :: ps =>
    (if afterValue then [] else [.absent op.left?]) ++ .operator op e.start ::
      ((if ps.isEmpty then [.absent op.right?] else []) ++ spelledOut false ps)
  | p :: ps =>
    (if afterValue then [.multiplication p.start] else []) ++ .value p :: spelledOut true ps

/-- What an element of a sibling list is compiled to. -/
inductive Piece.Becomes (t : SymbolTable) : Piece → Term → Prop
  /-- A value becomes the expression of the part. -/
  | value {p : Part} {e : Expr} : p.compile t = .ok e → Becomes t (.value p) (.value (.operand e))
  /-- An operator stays what it is. -/
  | operator (op : Operator) (start : Nat) : Becomes t (.operator op start) (.operator op start)
  /-- Values that stand side by side are multiplied. -/
  | multiplication {op : Operator} (start : Nat) : t.multiplication? = some op →
    Becomes t (.multiplication start) (.operator op start)
  /-- An operand that is left out becomes its default value. -/
  | absent {p : Option Parameter} {value : Float} : DefaultsTo p value →
    Becomes t (.absent p) (.value (.absent value))

variable {t : SymbolTable}

theorem becomes_of_fillsIn {present : Bool} {p : Option Parameter} {w : List Term}
    (h : FillsIn present p w) :
    List.Forall₂ (Piece.Becomes t) (if present then [] else [.absent p]) w := by
  cases present with
  | true =>
    obtain rfl : w = [] := h
    exact .nil
  | false =>
    obtain ⟨value, hvalue, rfl⟩ := h
    exact .cons (.absent hvalue) .nil

theorem spelledOut_value {p : Part} (hp : p.isOperator = false) (afterValue : Bool)
    (ps : List Part) : spelledOut afterValue (p :: ps) =
      (if afterValue then [.multiplication p.start] else []) ++ .value p :: spelledOut true ps := by
  cases p <;> first | rfl | cases hp

theorem mem_spelledOut_value {p : Part} {afterValue : Bool} {items : List Part}
    (h : .value p ∈ spelledOut afterValue items) : p ∈ items ∧ p.isOperator = false := by
  induction items generalizing afterValue with
  | nil => simp [spelledOut] at h
  | cons q items ih =>
    by_cases hq : q.isOperator = true
    · obtain ⟨op, written, rfl⟩ := exists_of_isOperator hq
      have hp : .value p ∈ spelledOut false items := by
        cases afterValue <;> cases hempty : items.isEmpty <;> simpa [spelledOut, hempty] using h
      exact ⟨List.mem_cons_of_mem _ (ih hp).1, (ih hp).2⟩
    · rw [Bool.not_eq_true] at hq
      rw [spelledOut_value hq] at h
      have hp : p = q ∨ .value p ∈ spelledOut true items := by
        cases afterValue <;> simpa using h
      rcases hp with rfl | hp
      · exact ⟨List.mem_cons_self, hq⟩
      · exact ⟨List.mem_cons_of_mem _ (ih hp).1, (ih hp).2⟩

theorem mem_spelledOut_operator {op : Operator} {start : Nat} {afterValue : Bool}
    {items : List Part} (h : .operator op start ∈ spelledOut afterValue items) :
    ∃ e, .operator op e ∈ items ∧ e.start = start := by
  induction items generalizing afterValue with
  | nil => simp [spelledOut] at h
  | cons q items ih =>
    by_cases hq : q.isOperator = true
    · obtain ⟨op', written, rfl⟩ := exists_of_isOperator hq
      have hp : (op = op' ∧ start = written.start) ∨ .operator op start ∈ spelledOut false items := by
        cases afterValue <;> cases hempty : items.isEmpty <;> simpa [spelledOut, hempty] using h
      rcases hp with ⟨rfl, rfl⟩ | hp
      · exact ⟨written, List.mem_cons_self, rfl⟩
      · obtain ⟨e, he, hstart⟩ := ih hp
        exact ⟨e, List.mem_cons_of_mem _ he, hstart⟩
    · rw [Bool.not_eq_true] at hq
      rw [spelledOut_value hq] at h
      have hp : .operator op start ∈ spelledOut true items := by
        cases afterValue <;> simpa using h
      obtain ⟨e, he, hstart⟩ := ih hp
      exact ⟨e, List.mem_cons_of_mem _ he, hstart⟩

/-- **The reading of the terms of a sibling list is the list, spelled out.** -/
theorem CompilesTo.becomes {items : List Part} {afterValue : Bool} {terms w : List Term}
    (h : CompilesTo t afterValue items terms) (hw : Filled afterValue false terms w) :
    List.Forall₂ (Piece.Becomes t) (spelledOut afterValue items) w := by
  induction h generalizing w with
  | nil =>
    obtain rfl : w = [] := hw
    exact .nil
  | @operator _ op e ps ts hrest ih =>
    obtain ⟨x, y, v, hx, hy, hv, rfl⟩ := hw
    have hright : List.Forall₂ (Piece.Becomes t) (if ps.isEmpty then [.absent op.right?] else [])
        y := by
      have hend : (!ts.isEmpty) = !ps.isEmpty := by
        rw [Bool.eq_iff_iff]
        simp [hrest.eq_nil_iff]
      rw [Bool.false_or, hend] at hy
      have hy := becomes_of_fillsIn (t := t) hy
      cases hempty : ps.isEmpty <;> simpa [hempty] using hy
    exact List.rel_append (becomes_of_fillsIn hx)
      (.cons (.operator op e.start) (List.rel_append hright (ih hv)))
  | value hp hvalue _ ih =>
    obtain ⟨v, hv, rfl⟩ := hw
    rw [spelledOut_value hp]
    exact .cons (.value hvalue) (ih hv)
  | product hp hvalue hop _ ih =>
    obtain ⟨x, y, v, rfl, rfl, ⟨v, hv, rfl⟩, rfl⟩ := hw
    rw [spelledOut_value hp]
    exact .cons (.multiplication _ hop) (.cons (.value hvalue) (ih hv))

theorem exists_piece {pieces : List Piece} {w : List Term}
    (h : List.Forall₂ (Piece.Becomes t) pieces w) : ∀ x ∈ w, ∃ piece ∈ pieces, piece.Becomes t x := by
  induction h with
  | nil => simp
  | cons hx _ ih =>
    intro y hy
    rcases List.mem_cons.1 hy with rfl | hy
    · exact ⟨_, List.mem_cons_self, hx⟩
    · obtain ⟨piece, hpiece, hbecomes⟩ := ih y hy
      exact ⟨piece, List.mem_cons_of_mem _ hpiece, hbecomes⟩

/-- Where the operands and operators of a reading come from. -/
theorem origin_of_becomes {items : List Part} {afterValue : Bool} {w : List Term}
    (h : List.Forall₂ (Piece.Becomes t) (spelledOut afterValue items) w) :
    (∀ e, .value (.operand e) ∈ w → ∃ p ∈ items, p.isOperator = false ∧ p.compile t = .ok e) ∧
      ∀ op start, .operator op start ∈ w →
        (∃ e, .operator op e ∈ items ∧ e.start = start) ∨ t.multiplication? = some op := by
  constructor
  · intro e he
    obtain ⟨piece, hmem, hbecomes⟩ := exists_piece h _ he
    cases hbecomes with
    | value hcompile =>
      exact ⟨_, (mem_spelledOut_value hmem).1, (mem_spelledOut_value hmem).2, hcompile⟩
  · intro op start hop
    obtain ⟨piece, hmem, hbecomes⟩ := exists_piece h _ hop
    cases hbecomes with
    | operator => exact .inl (mem_spelledOut_operator hmem)
    | multiplication _ hmul => exact .inr hmul

/-! ## Whole formulas -/

section Formulas

variable {r : Registry} {text : Text} {l : List Part} {tree : OperatorTree}

/-- The reading of the tree of a sibling list is the list, spelled out. -/
theorem SiblingList.becomes (hclean : (parse r text).isClean = true)
    (hl : SiblingList (parse r text).items l) (h : Builds (.ofParse (parse r text)) l tree) :
    List.Forall₂ (Piece.Becomes (.ofParse (parse r text))) (spelledOut false l) tree.inOrder := by
  obtain ⟨terms, hterms, -, -, hrun⟩ := hl.exists_run hclean h
  exact hterms.becomes hrun.filled_inOrder

/-- The operators of the tree of a sibling list are registered. -/
theorem SiblingList.registered_of_mem_inOrder (hclean : (parse r text).isClean = true)
    (hl : SiblingList (parse r text).items l) (h : Builds (.ofParse (parse r text)) l tree)
    {op : Operator} {start : Nat} (hop : .operator op start ∈ tree.inOrder) :
    .operator op ∈ r.symbols := by
  obtain ⟨hsound, hcomplete⟩ := sound_of_isClean hclean
  rcases (origin_of_becomes (hl.becomes hclean h)).2 op start hop with ⟨e, he, -⟩ | hmul
  · exact ((hl.sound hsound hcomplete).1 _ he).operator
  · exact mem_of_multiplication? (ofParse_multiplication? (parse r text) ▸ hmul)

end Formulas

/-- **The expression of a sibling list reads as the list does.**  In a formula that can be compiled,
a tree of operators is built for the whole list, for the list of each group and for the list of each
slot, unless that is the only slot of a call without arguments; the expression of the list is that
of the tree.  From left to right, the operands and operators of the tree are the parts of the list,
each once and in their order, with a multiplication between values that stand side by side, and the
default value for each operand that is left out. -/
theorem inOrder_of_compile (r : Registry) (text : Text) (f : CompiledFormula)
    (h : compile (parse r text) = .ok f) (l : List Part)
    (hl : SiblingList (parse r text).items l) :
    let t := SymbolTable.ofParse (parse r text)
    (l = [] ∧ ∃ g name s, .call g name [s] ∈ walkAll (parse r text).items ∧ s.items = []) ∨
    ∃ tree, Builds t l tree ∧ (l = (parse r text).items → f.root = tree.toExpr t.operationIndex) ∧
      (∀ e, (Part.group e l).compile t = .ok (tree.toExpr t.operationIndex)) ∧
      (∀ e, (Slot.mk e l).compile t = .ok (tree.toExpr t.operationIndex)) ∧
      List.Forall₂ (Piece.Becomes t) (spelledOut false l) tree.inOrder := by
  intro t
  obtain ⟨hclean, root, hroot, rfl⟩ := builds_of_compile h
  rcases hl.exists_builds hroot with hslot | ⟨tree, htree⟩
  · exact .inl hslot
  refine .inr ⟨tree, htree, ?_, htree.compile_group, htree.compile_slot, hl.becomes hclean htree⟩
  rintro rfl
  rw [Except.ok.inj ((hroot 0).symm.trans (htree 0))]

/-- Four parts are read as seven operands and operators. -/
theorem inOrder_of_compile_product :
    ∃ f tree, compile (parse .standard "-x(y)2".toList) = .ok f ∧
      Builds (.ofParse (parse .standard "-x(y)2".toList)) (parse .standard "-x(y)2".toList).items
        tree ∧
      (parse .standard "-x(y)2".toList).items.length = 4 ∧ tree.inOrder.length = 7 := by
  have hok : (compile (parse .standard "-x(y)2".toList)).isOk = true := by decide +kernel
  have hitems : (parse .standard "-x(y)2".toList).items.length = 4 := by decide +kernel
  have hspelled : (spelledOut false (parse .standard "-x(y)2".toList).items).length = 7 := by
    decide +kernel
  obtain ⟨f, hf⟩ := exists_of_isOk hok
  rcases inOrder_of_compile .standard "-x(y)2".toList f hf _ .whole with
    ⟨hnil, -⟩ | ⟨tree, htree, -, -, -, hreads⟩
  · rw [hnil] at hitems
    cases hitems
  · exact ⟨f, tree, hf, htree, hitems, hreads.length_eq ▸ hspelled⟩

end Formula

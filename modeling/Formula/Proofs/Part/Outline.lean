import Formula.Part.Outline
import Formula.Proofs.Part.SiblingLists

/-!
# The rows of an outline

A row of an outline stands right inside the last row before it that is less deep (`enclosing?`).
Slots and commas stand right inside calls and nowhere else; anything else stands in a group, in a
slot, or in the whole formula.  Numbers, operators, constants, variables and commas hold nothing.
-/

namespace Formula

theorem forall_mem_rowsOf {P : Row → Prop} {items : List Part}
    (h : ∀ p ∈ items, ∀ depth operands, ∀ row ∈ p.rows depth operands, P row) (depth : Nat)
    (hasLeft : Bool) : ∀ row ∈ rowsOf depth hasLeft items, P row := by
  induction items generalizing hasLeft with
  | nil => simp [rowsOf]
  | cons p ps ih =>
    obtain ⟨hp, hps⟩ := List.forall_mem_cons.1 h
    rw [rowsOf]
    exact List.forall_mem_append.2 ⟨hp _ _, ih hps _⟩

/-- The rows of slots: the slots themselves, the commas after them, and the rows inside. -/
theorem forall_mem_slotRows {P : Row → Prop} {init : List Slot} {last : Slot} {depth : Nat}
    (hslot : ∀ s ∈ init ++ [last], P ⟨depth, .argument, s.excerpt, none, none, 0⟩)
    (hcomma : ∀ s ∈ init, P ⟨depth, .separator, ⟨s.excerpt.stop, [',']⟩, none, none, 0⟩)
    (hinside : ∀ s ∈ init ++ [last], ∀ row ∈ rowsOf (depth + 1) false s.items, P row) :
    ∀ row ∈ slotRows depth (init ++ [last]), P row := by
  have hrows : ∀ s ∈ init ++ [last], ∀ row ∈ s.rows depth, P row := by
    intro s hs
    have hself := hslot s hs
    have hitems := hinside s hs
    obtain ⟨e, items⟩ := s
    rw [Slot.rows]
    exact List.forall_mem_cons.2 ⟨hself, hitems⟩
  induction init with
  | nil => simpa [slotRows] using hrows
  | cons s init ih =>
    simp only [List.cons_append, List.forall_mem_cons] at hslot hcomma hinside hrows
    rw [List.cons_append, slotRows]
    refine List.forall_mem_append.2 ⟨List.forall_mem_append.2 ⟨hrows.1, ?_⟩,
      ih hslot.2 hcomma.2 hinside.2 hrows.2⟩
    simpa using hcomma.1

/-- Among the rows of a part is its own. -/
theorem exists_row (p : Part) (depth operands : Nat) :
    ∃ row ∈ p.rows depth operands, row.written = p.excerpt := by
  cases p <;> exact ⟨_, by rw [Part.rows]; exact List.mem_cons_self, rfl⟩

/-- The rows of a part of a sibling list are in the outline of the list. -/
theorem exists_rows_subset {p : Part} {items : List Part} (hp : p ∈ items) (depth : Nat)
    (hasLeft : Bool) : ∃ operands, p.rows depth operands ⊆ rowsOf depth hasLeft items := by
  induction items generalizing hasLeft with
  | nil => cases hp
  | cons q ps ih =>
    rw [rowsOf]
    rcases List.mem_cons.1 hp with rfl | hp
    · exact ⟨_, List.subset_append_left _ _⟩
    · obtain ⟨operands, hsubset⟩ := ih hp (!q.isOperator)
      exact ⟨operands, List.subset_append_of_subset_right _ hsubset⟩

theorem rowsOf_subset_slotRows {slots : List Slot} {s : Slot} (hs : s ∈ slots) (depth : Nat) :
    rowsOf (depth + 1) false s.items ⊆ slotRows depth slots := by
  induction slots with
  | nil => cases hs
  | cons t slots ih =>
    rw [slotRows]
    rcases List.mem_cons.1 hs with rfl | hs
    · obtain ⟨e, items⟩ := s
      rw [Slot.rows, List.cons_append, List.cons_append, List.append_assoc]
      exact List.subset_cons_of_subset _ (List.subset_append_left _ _)
    · exact List.subset_append_of_subset_right _ (ih hs)

/-- The rows of every sibling list are in the outline. -/
theorem SiblingList.rowsOf_subset {items l : List Part} (hl : SiblingList items l) :
    ∃ depth hasLeft, rowsOf depth hasLeft l ⊆ rowsOf 0 false items := by
  induction hl with
  | whole => exact ⟨0, false, List.Subset.refl _⟩
  | @group l inner e _ hmem ih =>
    obtain ⟨depth, hasLeft, hsubset⟩ := ih
    obtain ⟨operands, hrows⟩ := exists_rows_subset hmem depth hasLeft
    rw [Part.rows] at hrows
    exact ⟨depth + 1, false, fun row hrow => hsubset (hrows (List.mem_cons_of_mem _ hrow))⟩
  | @slot l f name slots s _ hmem hs ih =>
    obtain ⟨depth, hasLeft, hsubset⟩ := ih
    obtain ⟨operands, hrows⟩ := exists_rows_subset hmem depth hasLeft
    rw [Part.rows] at hrows
    exact ⟨depth + 2, false, fun row hrow =>
      hsubset (hrows (List.mem_cons_of_mem _ (rowsOf_subset_slotRows hs _ hrow)))⟩

/-- Every part of a formula has its rows in the outline. -/
theorem exists_rows_of_mem_walkAll {p : Part} {items : List Part} (hp : p ∈ walkAll items) :
    ∃ depth operands, p.rows depth operands ⊆ rowsOf 0 false items := by
  obtain ⟨l, hl, hmem⟩ := mem_walkAll_iff.1 hp
  obtain ⟨depth, hasLeft, hsubset⟩ := hl.rowsOf_subset
  obtain ⟨operands, hrows⟩ := exists_rows_subset hmem depth hasLeft
  exact ⟨depth, operands, List.Subset.trans hrows hsubset⟩

/-- Whether a row may stand right inside another one. -/
def Row.Kind.holds : Row.Kind → Row.Kind → Bool
  | function, k => k = argument || k = separator
  | group, k | argument, k => k ≠ argument && k ≠ separator
  | _, _ => false

/-- The row that a row of the given depth stands right inside, if it comes after the rows
`before`. -/
def enclosing? (before : List Row) (depth : Nat) : Option Row :=
  (before.filter (·.depth < depth)).getLast?

/-- Each row stands right inside one that may hold it.  The outermost rows have the given depth, and
`outer` is the kind of what they stand in. -/
def Nested (depth : Nat) (outer : Row.Kind) (rows : List Row) : Prop :=
  ∀ before row after, rows = before ++ row :: after →
    depth ≤ row.depth ∧
      match enclosing? before row.depth with
      | none => row.depth = depth ∧ outer.holds row.kind = true
      | some parent => row.depth = parent.depth + 1 ∧ parent.kind.holds row.kind = true

namespace Nested

variable {depth : Nat} {outer : Row.Kind} {rows xs ys : List Row}

theorem nil : Nested depth outer [] := by
  intro before row after h
  simp at h

theorem le_depth (h : Nested depth outer rows) : ∀ row ∈ rows, depth ≤ row.depth := by
  intro row hrow
  obtain ⟨before, after, heq⟩ := List.append_of_mem hrow
  exact (h before row after heq).1

theorem filter_depth_eq_nil (h : ∀ row ∈ rows, depth ≤ row.depth) :
    rows.filter (·.depth < depth) = [] := by
  rw [List.filter_eq_nil_iff]
  intro row hrow
  simpa using h row hrow

/-- The outermost rows are such as may stand in what holds them all. -/
theorem holds_of_depth_eq (h : Nested depth outer rows) :
    ∀ row ∈ rows, row.depth = depth → outer.holds row.kind = true := by
  intro row hrow hdepth
  obtain ⟨before, after, heq⟩ := List.append_of_mem hrow
  -- no row before it is less deep, so it stands right inside no other row
  have hshallow : before.filter (·.depth < row.depth) = [] := by
    rw [hdepth]
    exact filter_depth_eq_nil fun x hx => h.le_depth x (heq ▸ List.mem_append_left _ hx)
  have hnone : enclosing? before row.depth = none := by
    rw [enclosing?, hshallow]
    rfl
  have hplace := (h before row after heq).2
  rw [hnone] at hplace
  exact hplace.2

/-- A row with the rows inside it. -/
theorem cons {row : Row} (hdepth : row.depth = depth) (hholds : outer.holds row.kind = true)
    (h : Nested (depth + 1) row.kind rows) : Nested depth outer (row :: rows) := by
  intro before inner after heq
  cases before with
  | nil =>
    obtain ⟨rfl, -⟩ := List.cons.inj heq
    exact ⟨Nat.le_of_eq hdepth.symm, hdepth, hholds⟩
  | cons first before =>
    obtain ⟨rfl, hrows⟩ := List.cons.inj heq
    obtain ⟨hle, hinner⟩ := h before inner after hrows
    have hlt : row.depth < inner.depth := by omega
    refine ⟨by omega, ?_⟩
    rw [enclosing?, List.filter_cons_of_pos (by simpa using hlt), List.getLast?_cons, ← enclosing?]
    cases hparent : enclosing? before inner.depth with
    | none =>
      rw [hparent, ← hdepth] at hinner
      exact hinner
    | some parent =>
      rw [hparent] at hinner
      exact hinner

/-- Rows one after another. -/
theorem append (hxs : Nested depth outer xs) (hys : Nested depth outer ys) :
    Nested depth outer (xs ++ ys) := by
  intro before row after heq
  have hsplit : (∃ more, xs = before ++ row :: more) ∨
      ∃ more, before = xs ++ more ∧ ys = more ++ row :: after := by
    rcases List.append_eq_append_iff.1 heq with h | ⟨more, hmore, hrow⟩
    · exact .inr h
    · cases more with
      | nil => exact .inr ⟨[], by simpa using hmore.symm, hrow.symm⟩
      | cons first more =>
        obtain ⟨rfl, -⟩ := List.cons.inj hrow
        exact .inl ⟨more, hmore⟩
  rcases hsplit with ⟨more, hmore⟩ | ⟨more, rfl, hmore⟩
  · exact hxs before row more hmore
  · obtain ⟨hle, hrow⟩ := hys more row after hmore
    refine ⟨hle, ?_⟩
    rw [enclosing?, List.filter_append, List.getLast?_append]
    cases hparent : enclosing? more row.depth with
    | none =>
      rw [hparent] at hrow
      -- no row of the first list is less deep than the outermost rows
      have hshallow : xs.filter (·.depth < row.depth) = [] := by
        rw [hrow.1]
        exact filter_depth_eq_nil hxs.le_depth
      rw [enclosing?] at hparent
      rw [hshallow, hparent]
      exact hrow
    | some parent =>
      rw [hparent] at hrow
      rw [enclosing?] at hparent
      rw [hparent]
      exact hrow

end Nested

/-- Whether something holds the parts of a sibling list. -/
def Row.Kind.isList : Row.Kind → Bool
  | group | argument => true
  | _ => false

theorem holds_of_isList {k outer : Row.Kind} (houter : outer.isList = true) (hargument : k ≠ .argument)
    (hseparator : k ≠ .separator) : outer.holds k = true := by
  cases outer with
  | group | argument => simp [Row.Kind.holds, hargument, hseparator]
  | _ => cases houter

theorem nested_rowsOf_of_forall {outer : Row.Kind} {items : List Part} {depth : Nat}
    (h : ∀ p ∈ items, ∀ operands, Nested depth outer (p.rows depth operands)) (hasLeft : Bool) :
    Nested depth outer (rowsOf depth hasLeft items) := by
  induction items generalizing hasLeft with
  | nil => exact .nil
  | cons p ps ih =>
    obtain ⟨hp, hps⟩ := List.forall_mem_cons.1 h
    rw [rowsOf]
    exact (hp _).append (ih hps _)

theorem nested_slotRows {slots : List Slot} {depth : Nat}
    (h : ∀ s ∈ slots, Nested (depth + 1) .argument (rowsOf (depth + 1) false s.items)) :
    Nested depth .function (slotRows depth slots) := by
  induction slots with
  | nil => exact .nil
  | cons s ss ih =>
    obtain ⟨hs, hss⟩ := List.forall_mem_cons.1 h
    obtain ⟨e, items⟩ := s
    rw [slotRows, Slot.rows]
    refine ((Nested.cons rfl rfl hs).append ?_).append (ih hss)
    split
    · exact .nil
    · exact .cons rfl rfl .nil

theorem nested_rows {outer : Row.Kind} (houter : outer.isList = true) (p : Part)
    (depth operands : Nat) : Nested depth outer (p.rows depth operands) := by
  induction p using Part.induction generalizing outer depth operands with
  | number e | operator op e | constant literal expression e | free literal e =>
    exact .cons rfl (holds_of_isList houter (by simp) (by simp)) .nil
  | group e items ih =>
    rw [Part.rows]
    exact .cons rfl (holds_of_isList houter (by simp) (by simp))
      (nested_rowsOf_of_forall (fun p hp operands => ih p hp rfl _ operands) _)
  | call f e slots ih =>
    rw [Part.rows]
    refine .cons rfl (holds_of_isList houter (by simp) (by simp)) (nested_slotRows ?_)
    exact fun s hs => nested_rowsOf_of_forall (fun p hp operands => ih s hs p hp rfl _ operands) _

/-- **Rows stand in rows that may hold them**: slots and commas in calls, and all else in groups, in
slots, or in the whole formula. -/
theorem nested_rowsOf (depth : Nat) (hasLeft : Bool) (items : List Part) :
    Nested depth .group (rowsOf depth hasLeft items) :=
  nested_rowsOf_of_forall (fun p _ operands => nested_rows rfl p depth operands) hasLeft

end Formula

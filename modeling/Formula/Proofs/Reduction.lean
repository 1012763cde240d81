import Formula.Expr.Reduction
import Mathlib.Data.List.Forall2
import Mathlib.Tactic.Common

/-!
# Reducing a balanced list of terms

A list of terms is *balanced* if no two values stand side by side and every operator has a term on
either side that can become its operand, or may do without it.  `Balanced left right` says this of a
list that comes after a value (`left`) and before further terms (`right`).

Reduction keeps a list balanced: an operator that takes its operands leaves a value in their place,
so no other operator loses an operand.  The last operator of a balanced list is always ready, so an
operator can be selected as long as there is one, and the list ends as a single value.
-/

namespace Formula

section Except

variable {ε α β : Type} {x : Except ε α} {f : α → Except ε β} {e : ε}

theorem bind_eq_error_iff :
    x >>= f = .error e ↔ x = .error e ∨ ∃ a, x = .ok a ∧ f a = .error e := by
  cases x <;> simp [bind, Except.bind]

theorem bind_eq_ok_iff {b : β} : x >>= f = .ok b ↔ ∃ a, x = .ok a ∧ f a = .ok b := by
  cases x <;> simp [bind, Except.bind]

theorem map_eq_error_iff {g : α → β} : g <$> x = .error e ↔ x = .error e := by
  cases x <;> simp [Functor.map, Except.map]

theorem map_eq_ok_iff {g : α → β} {b : β} : g <$> x = .ok b ↔ ∃ a, x = .ok a ∧ g a = b := by
  cases x <;> simp [Functor.map, Except.map]

theorem exists_of_isOk (h : x.isOk = true) : ∃ a, x = .ok a := by
  cases x with
  | ok a => exact ⟨a, rfl⟩
  | error e => cases h

/-- A result that is only turned into another one. -/
theorem bind_pure_eq_error_iff {g : α → β} :
    (x >>= fun a => pure (g a)) = .error e ↔ x = .error e := by
  cases x <;> simp [bind, Except.bind, pure, Except.pure]

end Except

/-- Whether a list ends in a value, if it comes after a value or not. -/
def endsInValue (left : Bool) : List Term → Bool
  | [] => left
  | .value _ :: ts => endsInValue true ts
  | .operator _ _ :: ts => endsInValue false ts

/-- A list in which no two values stand side by side and no operator lacks an operand.  A value
stands before the list if `left` is set, and a term after it if `right` is. -/
def Balanced (left right : Bool) : List Term → Prop
  | [] => True
  | .value _ :: ts => left = false ∧ Balanced true right ts
  | .operator op _ :: ts =>
    (left = true ∨ op.leftOptional = true) ∧
      (ts ≠ [] ∨ right = true ∨ op.rightOptional = true) ∧ Balanced false right ts

theorem endsInValue_append (left : Bool) (xs ys : List Term) :
    endsInValue left (xs ++ ys) = endsInValue (endsInValue left xs) ys := by
  induction xs generalizing left with
  | nil => rfl
  | cons x xs ih => cases x <;> simp [endsInValue, ih]

theorem balanced_append {left right : Bool} {xs ys : List Term} :
    Balanced left right (xs ++ ys) ↔
      Balanced left (right || !ys.isEmpty) xs ∧ Balanced (endsInValue left xs) right ys := by
  induction xs generalizing left with
  | nil => simp [Balanced, endsInValue]
  | cons x xs ih =>
    cases x with
    | value v => simp [Balanced, endsInValue, ih, and_assoc]
    | operator op start =>
      have hne : (xs ++ ys ≠ [] ∨ right = true ∨ op.rightOptional = true) ↔
          (xs ≠ [] ∨ (right || !ys.isEmpty) = true ∨ op.rightOptional = true) := by
        cases xs <;> cases ys <;> simp
      simp only [List.cons_append, Balanced, endsInValue, ih, hne, and_assoc]

/-- The number of operators of a list. -/
def operatorCount (terms : List Term) : Nat :=
  terms.countP fun t => !t.isValue

@[simp] theorem operatorCount_append (xs ys : List Term) :
    operatorCount (xs ++ ys) = operatorCount xs + operatorCount ys :=
  List.countP_append

@[simp] theorem operatorCount_reverse (xs : List Term) :
    operatorCount xs.reverse = operatorCount xs :=
  List.countP_reverse

@[simp] theorem operatorCount_value (v : OperatorTree) (ts : List Term) :
    operatorCount (.value v :: ts) = operatorCount ts := by
  simp [operatorCount, Term.isValue]

@[simp] theorem operatorCount_operator (op : Operator) (start : Nat) (ts : List Term) :
    operatorCount (.operator op start :: ts) = operatorCount ts + 1 := by
  simp [operatorCount, Term.isValue]

theorem isValue_of_operatorCount {terms : List Term} (h : operatorCount terms = 0) :
    ∀ t ∈ terms, t.isValue = true := by
  simpa using List.countP_eq_zero.1 h

theorem length_sitesAfter (before terms : List Term) :
    (sitesAfter before terms).length = operatorCount terms := by
  induction terms generalizing before with
  | nil => rfl
  | cons t terms ih => cases t <;> simp [sitesAfter, ih]

/-- A default value of an operand that is no number. -/
def Operator.UnreadableDefault (op : Operator) (literal : Text) : Prop :=
  (∃ p ∈ op.operation.signature.parameters, p.parameter.default? = some literal) ∧
    ∃ e, constantValue literal = .error e

/-- Whether a parameter has a number as its default value. -/
def DefaultsTo (p : Option Parameter) (value : Float) : Prop :=
  ∃ literal, p.bind (·.default?) = some literal ∧ constantValue literal = .ok value

namespace Site

variable {s : Site}

/-- The list in which an operator stands. -/
def terms (s : Site) : List Term :=
  s.before.reverse ++ .operator s.op s.start :: s.after

/-- The right operand of an operator and the terms after it: the value that stands there, or the
default value at the end of the list. -/
def TakesRight (s : Site) (right : OperatorTree) (after : List Term) : Prop :=
  s.after = .value right :: after ∨
    s.after = [] ∧ after = [] ∧ ∃ value, DefaultsTo s.op.right? value ∧ right = .absent value

/-- The left operand of an operator and the terms before it, the last one first: the value that
stands there, or the default value if none does. -/
def TakesLeft (s : Site) (left : OperatorTree) (before : List Term) : Prop :=
  s.before = .value left :: before ∨
    endsInValue false s.before.reverse = false ∧ before = s.before ∧
      ∃ value, DefaultsTo s.op.left? value ∧ left = .absent value

theorem TakesRight.suffix {right : OperatorTree} {after : List Term}
    (h : s.TakesRight right after) : after <:+ s.after := by
  rcases h with h | ⟨-, rfl, -⟩
  · exact h ▸ List.suffix_cons _ _
  · exact List.nil_suffix

/-- What ends in an operator stays in front of a list in which a later operator takes its left
operand. -/
theorem TakesLeft.beginning {left : OperatorTree} {before : List Term} (h : s.TakesLeft left before)
    (xs : List Term) {op : Operator} {start : Nat}
    (hxs : xs ++ [.operator op start] <+: s.before.reverse) :
    xs ++ [.operator op start] <+: before.reverse := by
  rcases h with h | ⟨-, rfl, -⟩
  · rw [h, List.reverse_cons, List.prefix_concat_iff] at hxs
    rcases hxs with heq | hxs
    · cases (List.append_inj' heq rfl).2
    · exact hxs
  · exact hxs

theorem TakesLeft.suffix {left : OperatorTree} {before : List Term}
    (h : s.TakesLeft left before) : before <:+ s.before := by
  rcases h with h | ⟨-, rfl, -⟩
  · exact h ▸ List.suffix_cons _ _
  · exact List.suffix_refl _

/-- What an operator that takes its operands leaves was in the list before, but for one value. -/
theorem mem_terms_of_takes {left right tree : OperatorTree} {before after : List Term}
    (hleft : s.TakesLeft left before) (hright : s.TakesRight right after) {t : Term}
    (ht : t ∈ before.reverse ++ .value tree :: after) : t = .value tree ∨ t ∈ s.terms := by
  simp only [List.mem_append, List.mem_reverse, List.mem_cons] at ht
  simp only [terms, List.mem_append, List.mem_reverse, List.mem_cons]
  rcases ht with ht | rfl | ht
  · exact .inr (.inl (hleft.suffix.mem ht))
  · exact .inl rfl
  · exact .inr (.inr (.inr (hright.suffix.mem ht)))

/-- The default value of an operand that has one can be missing only if it is no number. -/
theorem defaultOperand_parameter {i : Nat} {e : CompileError}
    (hopt : s.op.operation.signature.optionalAt i = true)
    (h : s.defaultOperand (s.op.operation.signature.parameter? i) = .error e) :
    ∃ literal, e = .invalidLiteral literal s.start ∧ s.op.UnreadableDefault literal := by
  obtain ⟨p, hp, hsome⟩ := (Option.any_eq_true _ _).1 hopt
  obtain ⟨literal, hliteral⟩ := Option.isSome_iff_exists.1 hsome
  obtain ⟨placed, hplaced, rfl⟩ := Option.map_eq_some_iff.1 hp
  simp only [defaultOperand, hp, Option.bind_some, hliteral, readLiteral] at h
  cases hv : constantValue literal with
  | ok value => rw [hv] at h; cases h
  | error cause =>
    rw [hv] at h
    cases h
    exact ⟨literal, rfl, ⟨placed, List.mem_of_getElem? hplaced, hliteral⟩, cause, hv⟩

theorem takeRight_of_isReady (hready : s.isReady = true) :
    (∃ v rest, s.after = .value v :: rest ∧ s.takeRight = .ok (v, rest)) ∨
      (s.after = [] ∧ s.op.rightOptional = true ∧
        s.takeRight = (·, []) <$> s.defaultOperand s.op.right?) := by
  rw [isReady.eq_def] at hready
  cases hafter : s.after with
  | nil => exact .inr ⟨rfl, by simpa [hafter] using hready, by simp [takeRight, hafter]⟩
  | cons t rest =>
    cases t with
    | value v => exact .inl ⟨v, rest, rfl, by simp [takeRight, hafter]⟩
    | operator op start => simp [hafter, Term.isValue] at hready

theorem takeLeft_of_balanced (h : endsInValue false s.before.reverse = true ∨
      s.op.leftOptional = true) :
    (∃ v rest, s.before = .value v :: rest ∧ s.takeLeft = .ok (v, rest)) ∨
      (endsInValue false s.before.reverse = false ∧ s.op.leftOptional = true ∧
        s.takeLeft = (·, s.before) <$> s.defaultOperand s.op.left?) := by
  cases hbefore : s.before with
  | nil => exact .inr ⟨rfl, by simpa [hbefore, endsInValue] using h, by simp [takeLeft, hbefore]⟩
  | cons t rest =>
    cases t with
    | value v => exact .inl ⟨v, rest, rfl, by simp [takeLeft, hbefore]⟩
    | operator op start =>
      have hend : endsInValue false s.before.reverse = false := by
        simp [hbefore, endsInValue_append, endsInValue]
      have hopt : s.op.leftOptional = true := h.resolve_left (by simp [hend])
      exact .inr ⟨hbefore ▸ hend, hopt, by simp [takeLeft, hbefore]⟩

theorem defaultsTo_of_defaultOperand {p : Option Parameter} {tree : OperatorTree}
    (h : s.defaultOperand p = .ok tree) : ∃ value, DefaultsTo p value ∧ tree = .absent value := by
  rw [defaultOperand] at h
  split at h
  · cases h
  · rename_i literal hdefault
    obtain ⟨value, hvalue, rfl⟩ := map_eq_ok_iff.1 h
    refine ⟨value, ⟨literal, hdefault, ?_⟩, rfl⟩
    rw [readLiteral] at hvalue
    split at hvalue
    · rename_i hread
      rw [hread, Except.ok.inj hvalue]
    · cases hvalue

theorem takesRight_of_takeRight {right : OperatorTree} {after : List Term}
    (hready : s.isReady = true) (h : s.takeRight = .ok (right, after)) :
    s.TakesRight right after := by
  rcases takeRight_of_isReady hready with ⟨tree, rest, hs, htake⟩ | ⟨hs, -, htake⟩
  · rw [htake] at h
    cases h
    exact .inl hs
  · rw [htake] at h
    obtain ⟨tree, htree, h⟩ := map_eq_ok_iff.1 h
    cases h
    exact .inr ⟨hs, rfl, defaultsTo_of_defaultOperand htree⟩

theorem takesLeft_of_takeLeft {left : OperatorTree} {before : List Term}
    (h : s.takeLeft = .ok (left, before)) : s.TakesLeft left before := by
  have habsent : endsInValue false s.before.reverse = false →
      s.takeLeft = (·, s.before) <$> s.defaultOperand s.op.left? → s.TakesLeft left before := by
    intro hend htake
    rw [htake] at h
    obtain ⟨tree, htree, h⟩ := map_eq_ok_iff.1 h
    cases h
    exact .inr ⟨hend, rfl, defaultsTo_of_defaultOperand htree⟩
  cases hbefore : s.before with
  | nil => exact habsent (by simp [hbefore, endsInValue]) (by simp [takeLeft, hbefore])
  | cons t rest =>
    cases t with
    | value tree =>
      simp only [takeLeft, hbefore] at h
      cases h
      exact .inl hbefore
    | operator op start =>
      exact habsent (by simp [hbefore, endsInValue_append, endsInValue])
        (by simp [takeLeft, hbefore])

/-- **What a step does.**  The operator and its operands are replaced by one value. -/
theorem collapse_eq_ok {new : List Term} (hready : s.isReady = true) (h : s.collapse = .ok new) :
    ∃ left right before after, s.TakesLeft left before ∧ s.TakesRight right after ∧
      new = before.reverse ++ .value (.apply s.op s.start left right) :: after := by
  obtain ⟨⟨right, after⟩, hright, h⟩ := bind_eq_ok_iff.1 h
  obtain ⟨⟨left, before⟩, hleft, h⟩ := bind_eq_ok_iff.1 h
  cases h
  exact ⟨left, right, before, after, takesLeft_of_takeLeft hleft,
    takesRight_of_takeRight hready hright, rfl⟩

/-- The lists before and after an operator in a balanced list. -/
theorem balanced_terms :
    Balanced false false s.terms ↔
      Balanced false true s.before.reverse ∧
        (endsInValue false s.before.reverse = true ∨ s.op.leftOptional = true) ∧
        (s.after ≠ [] ∨ s.op.rightOptional = true) ∧ Balanced false false s.after := by
  simp [terms, balanced_append, Balanced]

/-- **An operator that takes its operands leaves a balanced list**, with a value where the operator
was, unless a default value is no number. -/
theorem balanced_collapse (h : Balanced false false s.terms) (hready : s.isReady = true) :
    (∃ literal, s.collapse = .error (.invalidLiteral literal s.start) ∧
      s.op.UnreadableDefault literal) ∨
    ∃ new, s.collapse = .ok new ∧ Balanced false false new ∧ new ≠ [] ∧
      operatorCount s.terms = operatorCount new + 1 ∧ ∀ t ∈ new, t.isValue = false → t ∈ s.terms := by
  obtain ⟨hbefore, hleft, -, hafter⟩ := balanced_terms.1 h
  -- the right operand, or the default value that stands for it
  have hright : (∃ literal, s.takeRight = .error (.invalidLiteral literal s.start) ∧
        s.op.UnreadableDefault literal) ∨
      ∃ v after, s.takeRight = .ok (v, after) ∧ Balanced true false after ∧
        operatorCount s.after = operatorCount after ∧ ∀ t ∈ after, t ∈ s.after := by
    rcases takeRight_of_isReady hready with ⟨v, after, hs, htake⟩ | ⟨hs, hopt, htake⟩
    · rw [hs] at hafter
      exact .inr ⟨v, after, htake, hafter.2, by simp [hs],
        fun t ht => hs ▸ List.mem_cons_of_mem _ ht⟩
    · cases hd : s.defaultOperand s.op.right? with
      | error e =>
        obtain ⟨literal, rfl, hbad⟩ := defaultOperand_parameter hopt hd
        exact .inl ⟨literal, by rw [htake, hd]; rfl, hbad⟩
      | ok v => exact .inr ⟨v, [], by rw [htake, hd]; rfl, trivial, by rw [hs], by simp⟩
  -- the same of the left operand; the terms before it end in no value
  have hleft : (∃ literal, s.takeLeft = .error (.invalidLiteral literal s.start) ∧
        s.op.UnreadableDefault literal) ∨
      ∃ v before, s.takeLeft = .ok (v, before) ∧ Balanced false true before.reverse ∧
        endsInValue false before.reverse = false ∧
        operatorCount s.before = operatorCount before ∧ ∀ t ∈ before, t ∈ s.before := by
    rcases takeLeft_of_balanced hleft with ⟨v, before, hs, htake⟩ | ⟨hend, hopt, htake⟩
    · rw [hs, List.reverse_cons, balanced_append] at hbefore
      exact .inr ⟨v, before, htake, by simpa using hbefore.1, hbefore.2.1, by simp [hs],
        fun t ht => hs ▸ List.mem_cons_of_mem _ ht⟩
    · cases hd : s.defaultOperand s.op.left? with
      | error e =>
        obtain ⟨literal, rfl, hbad⟩ := defaultOperand_parameter hopt hd
        exact .inl ⟨literal, by rw [htake, hd]; rfl, hbad⟩
      | ok v => exact .inr ⟨v, s.before, by rw [htake, hd]; rfl, hbefore, hend, rfl, by simp⟩
  rcases hright with ⟨literal, hr, hbad⟩ | ⟨right, after, hr, hafter, hcountr, hmemr⟩
  · exact .inl ⟨literal, by rw [collapse, hr]; rfl, hbad⟩
  rcases hleft with ⟨literal, hl, hbad⟩ | ⟨left, before, hl, hbefore, hend, hcountl, hmeml⟩
  · exact .inl ⟨literal, by rw [collapse, hr, hl]; rfl, hbad⟩
  refine .inr ⟨before.reverse ++ .value (.apply s.op s.start left right) :: after,
    by rw [collapse, hr, hl]; rfl, ?_, by simp, ?_, ?_⟩
  · rw [balanced_append]
    exact ⟨hbefore, hend, hafter⟩
  · simp only [terms, operatorCount_append, operatorCount_reverse, operatorCount_operator,
      operatorCount_value]
    omega
  · intro t ht hvalue
    simp only [List.mem_append, List.mem_reverse, List.mem_cons] at ht
    simp only [terms, List.mem_append, List.mem_reverse, List.mem_cons]
    rcases ht with ht | rfl | ht
    · exact .inl (hmeml t ht)
    · cases hvalue
    · exact .inr (.inr (hmemr t ht))

end Site

theorem select?_eq_none {l : List Site} (h : select? l = none) : ∀ s ∈ l, s.isReady = false := by
  induction l with
  | nil => simp
  | cons t rest ih =>
    simp only [select?] at h
    split at h
    · rename_i hrest
      intro s hs
      rcases List.mem_cons.1 hs with rfl | hs
      · simpa using h
      · exact ih hrest s hs
    · split at h <;> cases h

/-- The operator that is next binds at least as tightly as any other that is ready. -/
theorem precedence_le_of_select? {l : List Site} {s : Site} (h : select? l = some s) :
    ∀ u ∈ l, u.isReady = true → u.precedence ≤ s.precedence := by
  induction l generalizing s with
  | nil => simp
  | cons t rest ih =>
    intro u hu hready
    simp only [select?] at h
    split at h
    · rename_i hrest
      split at h
      · cases h
        rcases List.mem_cons.1 hu with rfl | hu
        · exact Nat.le_refl _
        · rw [select?_eq_none hrest u hu] at hready
          cases hready
      · cases h
    · rename_i best hbest
      have hmax := ih hbest
      split at h
      · rename_i hfirst
        cases h
        rw [Bool.and_eq_true, decide_eq_true_eq] at hfirst
        rcases List.mem_cons.1 hu with rfl | hu
        · exact Nat.le_refl _
        · exact Nat.le_trans (hmax u hu hready) hfirst.2
      · rename_i hfirst
        cases h
        rcases List.mem_cons.1 hu with rfl | hu
        · have hlt : ¬ s.precedence ≤ u.precedence := by simpa [hready] using hfirst
          omega
        · exact hmax u hu hready

/-- An operator that is ready goes before all later ones that do not bind more tightly. -/
theorem eq_or_lt_of_select?_cons {u s : Site} {rest : List Site}
    (h : select? (u :: rest) = some s) (hready : u.isReady = true) :
    s = u ∨ u.precedence < s.precedence := by
  simp only [select?, hready, if_true, Bool.true_and, decide_eq_true_eq] at h
  split at h
  · exact .inl (Option.some.inj h).symm
  · split at h
    · exact .inl (Option.some.inj h).symm
    · obtain rfl := Option.some.inj h
      exact .inr (by omega)

/-- The selection looks at readiness and precedences only, so in two lists that agree on them the
operators that are next stand in the same place. -/
theorem select?_forall₂ {Q : Site → Site → Prop} {l l' : List Site} (h : List.Forall₂ Q l l')
    (hready : ∀ s s', Q s s' → s'.isReady = s.isReady)
    (hprecedence : ∀ s s', Q s s' → s'.precedence = s.precedence) :
    (select? l = none ∧ select? l' = none) ∨
      ∃ s s', select? l = some s ∧ select? l' = some s' ∧ Q s s' := by
  induction h with
  | nil => exact .inl ⟨rfl, rfl⟩
  | @cons s s' rest rest' hsite _ ih =>
    have hsame := hready s s' hsite
    rcases ih with ⟨hnone, hnone'⟩ | ⟨best, best', hbest, hbest', hmatch⟩
    · by_cases hs : s.isReady = true
      · exact .inr ⟨s, s', by simp [select?, hnone, hs], by simp [select?, hnone', hsame, hs], hsite⟩
      · exact .inl ⟨by simp [select?, hnone, hs], by simp [select?, hnone', hsame, hs]⟩
    · have hbetter : (s'.isReady && best'.precedence ≤ s'.precedence : Bool) =
          (s.isReady && best.precedence ≤ s.precedence : Bool) := by
        rw [hsame, hprecedence s s' hsite, hprecedence best best' hmatch]
      simp only [select?, hbest, hbest', hbetter]
      split
      · exact .inr ⟨s, s', rfl, rfl, hsite⟩
      · exact .inr ⟨best, best', rfl, rfl, hmatch⟩

/-- An operator of a list is one of its sites. -/
theorem mem_sites (s : Site) : s ∈ sites s.terms := by
  have hafter : ∀ xs before : List Term, (⟨xs.reverse ++ before, s.op, s.start, s.after⟩ : Site) ∈
      sitesAfter before (xs ++ .operator s.op s.start :: s.after) := by
    intro xs
    induction xs with
    | nil => simp [sitesAfter]
    | cons x xs ih =>
      intro before
      cases x <;> simp [sitesAfter, ih]
  simpa [sites, Site.terms] using hafter s.before.reverse []

theorem terms_of_mem_sites {s : Site} {terms : List Term} (h : s ∈ sites terms) :
    s.terms = terms := by
  simpa [Site.terms] using eq_of_mem_sitesAfter h

/-- The last operator of a balanced list is ready. -/
theorem exists_isReady {left : Bool} {before terms : List Term} (h : Balanced left false terms)
    (hne : operatorCount terms ≠ 0) : ∃ s ∈ sitesAfter before terms, s.isReady = true := by
  induction terms generalizing left before with
  | nil => exact absurd rfl hne
  | cons t terms ih =>
    cases t with
    | value v => exact ih h.2 (by simpa using hne)
    | operator op start =>
      obtain ⟨-, hright, hrest⟩ := h
      by_cases hcount : operatorCount terms = 0
      · refine ⟨⟨before, op, start, terms⟩, List.mem_cons_self, ?_⟩
        cases terms with
        | nil => simpa [Site.isReady] using hright
        | cons u terms =>
          have hu : u.isValue = true := isValue_of_operatorCount hcount u List.mem_cons_self
          simpa [Site.isReady] using hu
      · obtain ⟨s, hs, hready⟩ : ∃ s ∈ sitesAfter (.operator op start :: before) terms,
          s.isReady = true := ih hrest hcount
        exact ⟨s, List.mem_cons_of_mem _ hs, hready⟩

/-- **As long as a balanced list has operators, one of them is next.** -/
theorem exists_select? {terms : List Term} (h : Balanced false false terms)
    (hne : operatorCount terms ≠ 0) : ∃ s, select? (sites terms) = some s := by
  cases hs : select? (sites terms) with
  | some s => exact ⟨s, rfl⟩
  | none =>
    obtain ⟨s, hmem, hready⟩ : ∃ s ∈ sites terms, s.isReady = true := exists_isReady h hne
    rw [select?_eq_none hs s hmem] at hready
    cases hready

/-! ## Reduction -/

theorem reduceSteps_of_select? {n : Nat} {terms : List Term} {s : Site}
    (h : select? (sites terms) = some s) :
    reduceSteps (n + 1) terms = s.collapse >>= reduceSteps n := by
  rw [reduceSteps, h]

/-- A balanced list without operators is a single value. -/
theorem exists_eq_singleton {terms : List Term} (h : Balanced false false terms)
    (hcount : operatorCount terms = 0) (hne : terms ≠ []) : ∃ v, terms = [.value v] := by
  have hvalue : ∀ t ∈ terms, t.isValue = true := isValue_of_operatorCount hcount
  match terms, h, hne, hvalue with
  | [.value v], _, _, _ => exact ⟨v, rfl⟩
  | .value v :: .value w :: rest, h, _, _ => exact absurd h.2.1 (by simp)
  | .value v :: .operator op pos :: rest, _, _, hvalue =>
    exact absurd (hvalue (.operator op pos) (by simp)) (by simp [Term.isValue])
  | .operator op pos :: rest, _, _, hvalue =>
    exact absurd (hvalue (.operator op pos) (by simp)) (by simp [Term.isValue])

theorem soleValue_of_balanced {start : Nat} {terms : List Term} (h : Balanced false false terms)
    (hcount : operatorCount terms = 0) (hne : terms ≠ []) :
    ∃ v, soleValue start terms = .ok v := by
  obtain ⟨v, rfl⟩ := exists_eq_singleton h hcount hne
  exact ⟨v, rfl⟩

/-- Each step takes one operator from a balanced list, so no operator is left after all steps. -/
theorem reduceSteps_of_balanced {start n : Nat} {terms : List Term}
    (h : Balanced false false terms) (hcount : operatorCount terms = n) (hne : terms ≠ [])
    {e : CompileError} (he : reduceSteps n terms >>= soleValue start = .error e) :
    ∃ op pos literal, .operator op pos ∈ terms ∧ e = .invalidLiteral literal pos ∧
      op.UnreadableDefault literal := by
  induction n generalizing terms with
  | zero =>
    obtain ⟨v, hv⟩ : ∃ v, soleValue start terms = .ok v := soleValue_of_balanced h hcount hne
    change soleValue start terms = .error e at he
    rw [hv] at he
    cases he
  | succ n ih =>
    obtain ⟨s, hs⟩ := exists_select? h (by omega)
    obtain ⟨hmem, hready⟩ := isReady_of_select? hs
    have hterms : s.terms = terms := terms_of_mem_sites hmem
    simp only [reduceSteps, hs] at he
    rcases Site.balanced_collapse (hterms ▸ h) hready with ⟨literal, hc, hbad⟩ |
      ⟨new, hc, hnew, hnewne, hcountnew, hsub⟩
    · rw [hc] at he
      cases he
      refine ⟨s.op, s.start, literal, ?_, rfl, hbad⟩
      simp [← hterms, Site.terms]
    · rw [hc] at he
      rw [hterms] at hcountnew hsub
      obtain ⟨op, pos, literal, hop, rfl, hbad⟩ := ih hnew (by omega) hnewne he
      exact ⟨op, pos, literal, hsub _ hop rfl, rfl, hbad⟩

/-- **A balanced list that is not empty is reduced to a tree, unless a default value is no
number.** -/
theorem reduce_of_balanced {start : Nat} {terms : List Term} (h : Balanced false false terms)
    (hne : terms ≠ []) {e : CompileError} (he : reduce start terms = .error e) :
    ∃ op pos literal, .operator op pos ∈ terms ∧ e = .invalidLiteral literal pos ∧
      op.UnreadableDefault literal :=
  reduceSteps_of_balanced h (length_sitesAfter [] terms).symm hne he

/-! ## Runs -/

/-- A list that becomes another one while selected operators take their operands. -/
inductive Reduces : List Term → List Term → Prop
  /-- No operator takes its operands. -/
  | refl (terms : List Term) : Reduces terms terms
  /-- The operator that is next takes its operands first. -/
  | step {s : Site} {mid new : List Term} : select? (sites s.terms) = some s →
    s.collapse = .ok mid → Reduces mid new → Reduces s.terms new

theorem reduces_of_reduceSteps {n : Nat} {terms new : List Term}
    (h : reduceSteps n terms = .ok new) : Reduces terms new := by
  induction n generalizing terms with
  | zero =>
    cases h
    exact .refl _
  | succ n ih =>
    rw [reduceSteps] at h
    split at h
    · cases h
      exact .refl _
    · rename_i s hs
      cases hc : s.collapse with
      | error e => rw [hc] at h; cases h
      | ok mid =>
        rw [hc] at h
        have hterms : s.terms = terms := terms_of_mem_sites (isReady_of_select? hs).1
        subst hterms
        exact .step hs hc (ih h)

/-- A run keeps a list balanced. -/
theorem Reduces.balanced {terms new : List Term} (h : Reduces terms new)
    (hbalanced : Balanced false false terms) : Balanced false false new := by
  induction h with
  | refl => exact hbalanced
  | step hs hc _ ih =>
    rcases Site.balanced_collapse hbalanced (isReady_of_select? hs).2 with ⟨_, he, -⟩ | ⟨mid, hm, hmid, -⟩
    · rw [hc] at he
      cases he
    · obtain rfl := Except.ok.inj (hc.symm.trans hm)
      exact ih hmid

/-- A balanced list that has a result is that value. -/
theorem eq_singleton_of_soleValue {start : Nat} {terms : List Term} {v : OperatorTree}
    (h : Balanced false false terms) (hv : soleValue start terms = .ok v) : terms = [.value v] := by
  rw [soleValue] at hv
  split at hv
  · cases hv
  · rename_i hsites
    have hcount : operatorCount terms = 0 := by
      rw [← length_sitesAfter [] terms, ← sites, hsites]
      rfl
    have hne : terms ≠ [] := by
      rintro rfl
      cases hv
    obtain ⟨w, rfl⟩ := exists_eq_singleton h hcount hne
    cases hv
    rfl

/-- **The tree of a balanced list is what a run leaves of it.** -/
theorem reduces_of_reduce {start : Nat} {terms : List Term} {tree : OperatorTree}
    (hbalanced : Balanced false false terms) (h : reduce start terms = .ok tree) :
    Reduces terms [.value tree] := by
  rw [reduce] at h
  cases hlast : reduceSteps (sites terms).length terms with
  | error e => rw [hlast] at h; cases h
  | ok last =>
    rw [hlast] at h
    have hrun : Reduces terms last := reduces_of_reduceSteps hlast
    exact eq_singleton_of_soleValue (hrun.balanced hbalanced) h ▸ hrun

end Formula

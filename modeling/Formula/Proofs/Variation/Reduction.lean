import Formula.Proofs.Reduction

/-!
# Reducing two lists alike

The reduction of a list of terms looks at the operators and at where the values stand, and never at
what the values are or at positions.  So two lists with the same operators, and with values in the
same places, are reduced to trees of the same shape, whose operands are related if those of the
lists are.
-/

namespace Formula

variable {R : Expr → Expr → Prop}

/-- Trees with the same operators and with related operands. -/
inductive TreesMatch (R : Expr → Expr → Prop) : OperatorTree → OperatorTree → Prop
  /-- Operands are related. -/
  | operand {e e' : Expr} (h : R e e') : TreesMatch R (.operand e) (.operand e')
  /-- Default values are the same. -/
  | absent (value : Float) : TreesMatch R (.absent value) (.absent value)
  /-- The operator is the same, wherever it stands. -/
  | apply (op : Operator) (start start' : Nat) {left left' right right' : OperatorTree}
    (hleft : TreesMatch R left left') (hright : TreesMatch R right right') :
    TreesMatch R (.apply op start left right) (.apply op start' left' right')

/-- The same operator, or matching values. -/
inductive TermsMatch (R : Expr → Expr → Prop) : Term → Term → Prop
  /-- Values match. -/
  | value {tree tree' : OperatorTree} (h : TreesMatch R tree tree') :
    TermsMatch R (.value tree) (.value tree')
  /-- The operator is the same, wherever it stands. -/
  | operator (op : Operator) (start start' : Nat) :
    TermsMatch R (.operator op start) (.operator op start')

/-- The same operator in matching lists. -/
structure SitesMatch (R : Expr → Expr → Prop) (s s' : Site) : Prop where
  /-- The terms before it match. -/
  before : List.Forall₂ (TermsMatch R) s.before s'.before
  /-- It is the same operator. -/
  op : s'.op = s.op
  /-- The terms after it match. -/
  after : List.Forall₂ (TermsMatch R) s.after s'.after

theorem sitesAfter_match {before before' terms terms' : List Term}
    (hbefore : List.Forall₂ (TermsMatch R) before before')
    (h : List.Forall₂ (TermsMatch R) terms terms') :
    List.Forall₂ (SitesMatch R) (sitesAfter before terms) (sitesAfter before' terms') := by
  induction h generalizing before before' with
  | nil => exact .nil
  | cons hterm hrest ih =>
    cases hterm with
    | value hvalue => exact ih (.cons (.value hvalue) hbefore)
    | operator op start start' =>
      exact .cons ⟨hbefore, rfl, hrest⟩ (ih (.cons (.operator op start start') hbefore))

theorem SitesMatch.isReady_eq {s s' : Site} (h : SitesMatch R s s') : s'.isReady = s.isReady := by
  obtain ⟨before, op, start, after⟩ := s
  obtain ⟨before', op', start', after'⟩ := s'
  obtain ⟨-, rfl, hafter⟩ := h
  cases hafter with
  | nil => rfl
  | cons hterm _ => cases hterm <;> rfl

theorem SitesMatch.precedence_eq {s s' : Site} (h : SitesMatch R s s') :
    s'.precedence = s.precedence := by
  obtain ⟨before, op, start, after⟩ := s
  obtain ⟨before', op', start', after'⟩ := s'
  obtain ⟨hbefore, rfl, -⟩ := h
  cases hbefore with
  | nil => rfl
  | cons hterm _ => cases hterm <;> rfl

/-- **The operators that are next stand in the same place.** -/
theorem selected_match {l l' : List Site} (h : List.Forall₂ (SitesMatch R) l l') :
    (select? l = none ∧ select? l' = none) ∨
      ∃ s s', select? l = some s ∧ select? l' = some s' ∧ SitesMatch R s s' :=
  select?_forall₂ h (fun _ _ => SitesMatch.isReady_eq) fun _ _ => SitesMatch.precedence_eq

/-- Whether a literal can be read does not depend on where it stands. -/
theorem readLiteral_eq_ok {literal : Text} {start : Nat} {value : Float}
    (h : readLiteral literal start = .ok value) (start' : Nat) :
    readLiteral literal start' = .ok value := by
  rw [readLiteral] at h ⊢
  split at h
  · exact h
  · cases h

theorem defaultOperand_eq_ok {s : Site} {p : Option Parameter} {tree : OperatorTree}
    (h : s.defaultOperand p = .ok tree) (s' : Site) :
    s'.defaultOperand p = .ok tree ∧ TreesMatch R tree tree := by
  rw [Site.defaultOperand] at h ⊢
  split at h
  · cases h
  · obtain ⟨value, hvalue, rfl⟩ := map_eq_ok_iff.1 h
    exact ⟨map_eq_ok_iff.2 ⟨value, readLiteral_eq_ok hvalue _, rfl⟩, .absent value⟩

/-- An operand that is taken from one list, with the terms that are left, is taken from the other. -/
theorem takeOperand_match {s : Site} (s' : Site) {p : Option Parameter}
    {terms terms' rest : List Term} {tree : OperatorTree}
    (h : List.Forall₂ (TermsMatch R) terms terms')
    (htree : (match terms with
      | .value v :: rest => .ok (v, rest)
      | rest => (·, rest) <$> s.defaultOperand p) = Except.ok (tree, rest)) :
    ∃ tree' rest', (match terms' with
      | .value v :: rest => .ok (v, rest)
      | rest => (·, rest) <$> s'.defaultOperand p) = Except.ok (tree', rest') ∧
      TreesMatch R tree tree' ∧ List.Forall₂ (TermsMatch R) rest rest' := by
  cases h with
  | nil =>
    obtain ⟨value, hvalue, heq⟩ := map_eq_ok_iff.1 htree
    obtain ⟨rfl, rfl⟩ := Prod.mk.inj heq
    obtain ⟨hvalue', hmatch⟩ := defaultOperand_eq_ok hvalue s'
    exact ⟨value, [], map_eq_ok_iff.2 ⟨value, hvalue', rfl⟩, hmatch, .nil⟩
  | cons hterm hrest =>
    cases hterm with
    | value hmatch =>
      obtain ⟨rfl, rfl⟩ := Prod.mk.inj (Except.ok.inj htree)
      exact ⟨_, _, rfl, hmatch, hrest⟩
    | operator op start start' =>
      obtain ⟨value, hvalue, heq⟩ := map_eq_ok_iff.1 htree
      obtain ⟨rfl, rfl⟩ := Prod.mk.inj heq
      obtain ⟨hvalue', hmatch⟩ := defaultOperand_eq_ok hvalue s'
      exact ⟨value, _, map_eq_ok_iff.2 ⟨value, hvalue', rfl⟩, hmatch,
        .cons (.operator op start start') hrest⟩

theorem SitesMatch.collapse {s s' : Site} (h : SitesMatch R s s') {terms : List Term}
    (hterms : s.collapse = .ok terms) :
    ∃ terms', s'.collapse = .ok terms' ∧ List.Forall₂ (TermsMatch R) terms terms' := by
  obtain ⟨⟨right, after⟩, hright, hterms⟩ := bind_eq_ok_iff.1 hterms
  obtain ⟨⟨left, before⟩, hleft, hterms⟩ := bind_eq_ok_iff.1 hterms
  obtain rfl := Except.ok.inj hterms
  obtain ⟨right', after', hright', hmatchRight, hafter⟩ := takeOperand_match s' h.after hright
  obtain ⟨left', before', hleft', hmatchLeft, hbefore⟩ := takeOperand_match s' h.before hleft
  rw [← h.op] at hright' hleft' ⊢
  refine ⟨before'.reverse ++ .value (.apply s'.op s'.start left' right') :: after', ?_, ?_⟩
  · exact bind_eq_ok_iff.2 ⟨_, hright', bind_eq_ok_iff.2 ⟨_, hleft', rfl⟩⟩
  · rw [h.op]
    exact List.rel_append (List.forall₂_reverse_iff.2 hbefore)
      (.cons (.value (.apply s.op s.start s'.start hmatchLeft hmatchRight)) hafter)

theorem reduceSteps_match {n : Nat} {terms terms' last : List Term}
    (h : List.Forall₂ (TermsMatch R) terms terms') (hlast : reduceSteps n terms = .ok last) :
    ∃ last', reduceSteps n terms' = .ok last' ∧ List.Forall₂ (TermsMatch R) last last' := by
  induction n generalizing terms terms' with
  | zero =>
    obtain rfl := Except.ok.inj hlast
    exact ⟨terms', rfl, h⟩
  | succ n ih =>
    rw [reduceSteps] at hlast
    rcases selected_match (sitesAfter_match .nil h) with ⟨hnone, hnone'⟩ | ⟨s, s', hs, hs', hmatch⟩
    · rw [sites, hnone] at hlast
      obtain rfl := Except.ok.inj hlast
      exact ⟨terms', by rw [reduceSteps, sites, hnone'], h⟩
    · rw [sites, hs] at hlast
      obtain ⟨next, hnext, hlast⟩ := bind_eq_ok_iff.1 hlast
      obtain ⟨next', hnext', hmatch⟩ := hmatch.collapse hnext
      obtain ⟨last', hlast', hmatch⟩ := ih hmatch hlast
      refine ⟨last', ?_, hmatch⟩
      rw [reduceSteps, sites, hs']
      exact bind_eq_ok_iff.2 ⟨next', hnext', hlast'⟩

theorem soleValue_match {start : Nat} {terms terms' : List Term} {tree : OperatorTree}
    (h : List.Forall₂ (TermsMatch R) terms terms') (htree : soleValue start terms = .ok tree)
    (start' : Nat) : ∃ tree', soleValue start' terms' = .ok tree' ∧ TreesMatch R tree tree' := by
  have hsites : List.Forall₂ (SitesMatch R) (sites terms) (sites terms') := sitesAfter_match .nil h
  have hreverse := List.forall₂_reverse_iff.2 h
  rw [soleValue] at htree
  split at htree
  · cases htree
  · rename_i hnone
    rw [hnone] at hsites
    have hnone' : sites terms' = [] := List.forall₂_nil_left_iff.1 hsites
    rw [List.getLast?_eq_head?_reverse] at htree
    rw [soleValue, hnone', List.getLast?_eq_head?_reverse]
    cases hlast : terms.reverse with
    | nil =>
      rw [hlast] at htree
      cases htree
    | cons term more =>
      rw [hlast] at htree hreverse
      cases hlast' : terms'.reverse with
      | nil =>
        rw [hlast'] at hreverse
        cases hreverse
      | cons term' more' =>
        rw [hlast'] at hreverse
        cases hreverse with
        | cons hterm _ =>
          cases hterm with
          | value hmatch =>
            obtain rfl := Except.ok.inj htree
            exact ⟨_, rfl, hmatch⟩
          | operator => cases htree

/-- **Matching lists have matching trees.** -/
theorem reduce_match {start : Nat} {terms terms' : List Term} {tree : OperatorTree}
    (h : List.Forall₂ (TermsMatch R) terms terms') (htree : reduce start terms = .ok tree)
    (start' : Nat) : ∃ tree', reduce start' terms' = .ok tree' ∧ TreesMatch R tree tree' := by
  obtain ⟨last, hlast, htree⟩ := bind_eq_ok_iff.1 htree
  have hsites : List.Forall₂ (SitesMatch R) (sites terms) (sites terms') := sitesAfter_match .nil h
  obtain ⟨last', hlast', hmatch⟩ := reduceSteps_match h hlast
  obtain ⟨tree', htree', hmatch⟩ := soleValue_match hmatch htree start'
  rw [hsites.length_eq] at hlast'
  exact ⟨tree', bind_eq_ok_iff.2 ⟨last', hlast', htree'⟩, hmatch⟩

end Formula

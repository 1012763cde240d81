import Formula.Proofs.InOrder
import Mathlib.Data.List.Chain

/-!
# Signs in front of powers

A sign binds less tightly than a power, so `-x^2` is the negative of a square.  But the operator
that is next is chosen among those that have a value to their right, and a power whose exponent
begins with a sign has none yet.  The sign in front of the base goes first then: `-x^-y` is a power
of `-x`.

This is the only exception.  While operators take their operands, a sign that has become a value
and stands in front of a power, or a power that stands in front of another operator, is the trace of
such an exponent: `Waiting` says so, and each step keeps it.  And it is one whenever a list begins in
this way, since of two signs the first one goes first: `SignedBase` follows the two signs and the
power from step to step.
-/

namespace Formula

namespace OperatorTree

/-- A tree and all trees inside it. -/
def subtrees : OperatorTree → List OperatorTree
  | operand e => [operand e]
  | absent value => [absent value]
  | apply op start left right => apply op start left right :: (left.subtrees ++ right.subtrees)

/-- Whether a tree is the call of an operator without a left operand. -/
def isSigned : OperatorTree → Bool
  | apply _ _ (absent _) _ => true
  | _ => false

end OperatorTree

/-- Whether an operator needs its right operand and binds more tightly than every operator in a
registry that may stand in front of a value. -/
def Tight (r : Registry) (op : Operator) : Prop :=
  op.rightOptional = false ∧
    ∀ sign, .operator sign ∈ r.symbols → sign.leftOptional = true →
      sign.signPrecedence < op.precedence

/-- Whether the operator at a position of a sibling list is directly followed by another one. -/
def SignFollows (items : List Part) (op : Operator) (start : Nat) : Prop :=
  ∃ before e sign e' after,
    items = before ++ .operator op e :: .operator sign e' :: after ∧ e.start = start

variable {r : Registry} {Q : Operator → Nat → Prop}

/-- Whether the tight operators of a tree whose left operand is the call of a sign satisfy `Q`. -/
def OperatorTree.Waits (r : Registry) (Q : Operator → Nat → Prop) (tree : OperatorTree) : Prop :=
  ∀ op start base exponent, .apply op start base exponent ∈ tree.subtrees → Tight r op →
    base.isSigned = true → Q op start

/-- What is known of neighbouring terms: a tight operator satisfies `Q` if the call of a sign stands
before it or another operator after it. -/
def Border (r : Registry) (Q : Operator → Nat → Prop) : Term → Term → Prop
  | .value tree, .operator op start => Tight r op → tree.isSigned = true → Q op start
  | .operator op start, .operator _ _ => Tight r op → Q op start
  | _, .value _ => True

theorem border_value (t : Term) (tree : OperatorTree) : Border r Q t (.value tree) := by
  cases t <;> trivial

/-- A list of terms in which tight operators satisfy `Q` unless their operands are ready. -/
structure Waiting (r : Registry) (Q : Operator → Nat → Prop) (terms : List Term) : Prop where
  /-- The operators are registered. -/
  registered : ∀ op start, .operator op start ∈ terms → .operator op ∈ r.symbols
  /-- The values are what they should be, and none stands for an operand that is left out. -/
  trees : ∀ tree, .value tree ∈ terms → tree.Waits r Q ∧ ∀ value, tree ≠ .absent value
  /-- So are all neighbours. -/
  borders : terms.IsChain (Border r Q)

section Step

variable {s : Site} {left right : OperatorTree} {before after : List Term}

theorem Site.precedence_of_not_endsInValue (hend : endsInValue false s.before.reverse = false) :
    s.precedence = s.op.signPrecedence := by
  rw [Site.precedence.eq_def]
  split
  · rename_i hbefore
    simp [hbefore, endsInValue_append, endsInValue] at hend
  · rfl

theorem OperatorTree.waits_absent (value : Float) : (OperatorTree.absent value).Waits r Q := by
  intro op start base exponent h
  simp [subtrees] at h

theorem waits_of_takesLeft (h : Waiting r Q s.terms) (hleft : s.TakesLeft left before) :
    left.Waits r Q := by
  rcases hleft with hs | ⟨-, -, value, -, rfl⟩
  · exact (h.trees left (by simp [Site.terms, hs])).1
  · exact OperatorTree.waits_absent value

theorem waits_of_takesRight (h : Waiting r Q s.terms) (hright : s.TakesRight right after) :
    right.Waits r Q := by
  rcases hright with hs | ⟨-, -, value, -, rfl⟩
  · exact (h.trees right (by simp [Site.terms, hs])).1
  · exact OperatorTree.waits_absent value

/-- The call of a sign that is taken as a left operand stands right before the operator. -/
theorem of_isSigned_left (h : Waiting r Q s.terms) (hleft : s.TakesLeft left before)
    (htight : Tight r s.op) (hsigned : left.isSigned = true) : Q s.op s.start := by
  rcases hleft with hs | ⟨-, -, value, -, rfl⟩
  · have hchain := h.borders
    simp only [Site.terms, hs, List.reverse_cons, List.append_assoc, List.singleton_append] at hchain
    exact (List.isChain_append_cons_cons.1 hchain).2.1 htight hsigned
  · cases hsigned

/-- A tight operator right after a sign that goes first is directly followed by another operator. -/
theorem of_isSigned_apply (h : Waiting r Q s.terms) (hbalanced : Balanced false false s.terms)
    (hs : select? (sites s.terms) = some s) (hleft : s.TakesLeft left before)
    (hright : s.TakesRight right after) {op : Operator} {start : Nat} {rest : List Term}
    (hafter : after = .operator op start :: rest) (htight : Tight r op)
    (hsigned : (OperatorTree.apply s.op s.start left right).isSigned = true) : Q op start := by
  -- the operator that goes first has no left operand, so it is a sign
  obtain ⟨hend, hoptional⟩ : endsInValue false s.before.reverse = false ∧
      s.op.leftOptional = true := by
    obtain ⟨-, hsupplied, -, -⟩ := Site.balanced_terms.1 hbalanced
    rcases hleft with hbefore | ⟨hend, -, -⟩
    · cases left with
      | absent value => exact absurd rfl ((h.trees _ (by simp [Site.terms, hbefore])).2 value)
      | operand e => cases hsigned
      | apply op start l r => cases hsigned
    · exact ⟨hend, hsupplied.resolve_left (by simp [hend])⟩
  -- the tight operator comes after the right operand of the sign
  rcases hright with hafter' | ⟨-, hnil, -⟩
  swap
  · rw [hnil] at hafter
    cases hafter
  subst hafter
  let u : Site := ⟨.value right :: .operator s.op s.start :: s.before, op, start, rest⟩
  have hterms : u.terms = s.terms := by simp [u, Site.terms, hafter']
  have hu : u ∈ sites s.terms := hterms ▸ mem_sites u
  cases hrest : rest with
  | nil =>
    have hu : Balanced false false u.terms := hterms ▸ hbalanced
    obtain ⟨-, -, hlast, -⟩ := Site.balanced_terms.1 hu
    rcases hlast with hlast | hlast
    · exact absurd hrest hlast
    · exact absurd hlast (by simp [u, htight.1])
  | cons t rest' =>
    cases t with
    | value tree =>
      have hready : u.isReady = true := by simp [u, hrest, Site.isReady, Term.isValue]
      have hle : op.precedence ≤ s.precedence := precedence_le_of_select? hs u hu hready
      have hlt : s.op.signPrecedence < op.precedence :=
        htight.2 s.op (h.registered s.op s.start (by simp [Site.terms])) hoptional
      rw [Site.precedence_of_not_endsInValue hend] at hle
      omega
    | operator sign pos =>
      have hchain : u.terms.IsChain (Border r Q) := hterms ▸ h.borders
      simp only [u, Site.terms, hrest] at hchain
      exact (List.isChain_append_cons_cons.1 hchain).2.1 htight

/-- **A step keeps the invariant.** -/
theorem Waiting.collapse {new : List Term} (h : Waiting r Q s.terms)
    (hbalanced : Balanced false false s.terms) (hs : select? (sites s.terms) = some s)
    (hc : s.collapse = .ok new) : Waiting r Q new := by
  obtain ⟨left, right, before, after, hleft, hright, rfl⟩ :=
    Site.collapse_eq_ok (isReady_of_select? hs).2 hc
  refine ⟨?_, ?_, ?_⟩
  · intro op start hop
    exact h.registered op start ((Site.mem_terms_of_takes hleft hright hop).resolve_left (by simp))
  · intro tree htree
    rcases Site.mem_terms_of_takes hleft hright htree with heq | htree
    · cases heq
      refine ⟨?_, by simp⟩
      intro op start base exponent hsub htight hsigned
      rcases List.mem_cons.1 hsub with heq | hsub
      · cases heq
        exact of_isSigned_left h hleft htight hsigned
      · rcases List.mem_append.1 hsub with hsub | hsub
        · exact waits_of_takesLeft h hleft op start base exponent hsub htight hsigned
        · exact waits_of_takesRight h hright op start base exponent hsub htight hsigned
    · exact h.trees tree htree
  · have hchain := h.borders
    rw [Site.terms, List.isChain_append] at hchain
    obtain ⟨hl, hr, -⟩ := hchain
    refine List.isChain_append.2 ⟨?_, List.isChain_cons.2 ⟨?_, ?_⟩, ?_⟩
    · exact hl.prefix (List.reverse_prefix.2 hleft.suffix)
    · intro t ht
      obtain ⟨rest, hrest⟩ := List.head?_eq_some_iff.1 ht
      cases t with
      | value tree => exact border_value _ tree
      | operator op start =>
        exact fun htight hsigned =>
          of_isSigned_apply h hbalanced hs hleft hright hrest htight hsigned
    · exact (List.isChain_cons.1 hr).2.suffix hright.suffix
    · intro x _ y hy
      obtain rfl : .value (.apply s.op s.start left right) = y := by simpa using hy
      exact border_value x _

end Step

/-- **A run keeps the invariant.** -/
theorem Waiting.of_reduces {terms new : List Term} (hrun : Reduces terms new)
    (hbalanced : Balanced false false terms) (h : Waiting r Q terms) : Waiting r Q new := by
  induction hrun with
  | refl => exact h
  | step hs hc _ ih =>
    refine ih ?_ (h.collapse hbalanced hs hc)
    exact (Reduces.step hs hc (.refl _)).balanced hbalanced

section Exponent

/-- What becomes of a list that begins with a sign, a value, a power and another sign, where the
power finally has the call of a sign as its base. -/
inductive SignedBase (sign power next : Operator) (i j k : Nat) : List Term → Prop
  /-- The sign has not taken its operands yet. -/
  | waiting {v : OperatorTree} {rest : List Term} : SignedBase sign power next i j k
    (.operator sign i :: .value v :: .operator power j :: .operator next k :: rest)
  /-- The sign has become a value. -/
  | applied {base : OperatorTree} {rest : List Term} : base.isSigned = true →
    SignedBase sign power next i j k (.value base :: .operator power j :: rest)
  /-- The power has taken the sign as its base. -/
  | taken {terms : List Term} {tree base exponent : OperatorTree} : .value tree ∈ terms →
    .apply power j base exponent ∈ tree.subtrees → base.isSigned = true →
    SignedBase sign power next i j k terms

variable {s : Site} {left right : OperatorTree} {before after : List Term}

/-- A value stays in the list or becomes part of the new one. -/
theorem Site.exists_subtree (hleft : s.TakesLeft left before) (hright : s.TakesRight right after)
    {tree sub : OperatorTree} (htree : .value tree ∈ s.terms) (hsub : sub ∈ tree.subtrees) :
    ∃ new, .value new ∈ before.reverse ++ .value (.apply s.op s.start left right) :: after ∧
      sub ∈ new.subtrees := by
  have hmem : .value tree ∈ before ∨ tree = left ∨ tree = right ∨ .value tree ∈ after := by
    simp only [Site.terms, List.mem_append, List.mem_reverse, List.mem_cons, reduceCtorEq,
      false_or] at htree
    rcases htree with htree | htree
    · rcases hleft with hs | ⟨-, rfl, -⟩
      · rw [hs, List.mem_cons, Term.value.injEq] at htree
        exact htree.elim (fun h => .inr (.inl h)) .inl
      · exact .inl htree
    · rcases hright with hs | ⟨hs, -, -⟩
      · rw [hs, List.mem_cons, Term.value.injEq] at htree
        exact htree.elim (fun h => .inr (.inr (.inl h))) fun h => .inr (.inr (.inr h))
      · rw [hs] at htree
        cases htree
  rcases hmem with h | rfl | rfl | h
  · exact ⟨tree, by simp [h], hsub⟩
  · exact ⟨.apply s.op s.start tree right, by simp, by simp [OperatorTree.subtrees, hsub]⟩
  · exact ⟨.apply s.op s.start left tree, by simp, by simp [OperatorTree.subtrees, hsub]⟩
  · exact ⟨tree, by simp [h], hsub⟩

/-- An operator in a list stands in a given beginning of the list or after it. -/
theorem Site.beginning_or_split (xs : List Term) {rest : List Term} (h : s.terms = xs ++ rest) :
    xs <+: s.before.reverse ∨
      ∃ mid, xs = s.before.reverse ++ .operator s.op s.start :: mid ∧ s.after = mid ++ rest := by
  rcases List.append_eq_append_iff.1 h with ⟨mid, rfl, hmid⟩ | ⟨mid, hbefore, -⟩
  · cases mid with
    | nil => exact .inl (by simp)
    | cons t mid =>
      obtain ⟨rfl, hafter⟩ := List.cons.inj hmid
      exact .inr ⟨mid, rfl, hafter⟩
  · exact .inl ⟨mid, hbefore.symm⟩

variable {sign power next : Operator} {i j k : Nat}

/-- The operands of an operator at the beginning of a list that has a value to its right. -/
theorem Site.takes_of_first (hleft : s.TakesLeft left before) (hright : s.TakesRight right after)
    {v : OperatorTree} {rest : List Term} (hbefore : s.before = [])
    (hafter : s.after = .value v :: rest) :
    (∃ value, left = .absent value) ∧ before = [] ∧ after = rest := by
  refine ⟨?_, by simpa [hbefore] using hleft.suffix, ?_⟩
  · rcases hleft with hs | ⟨-, -, value, -, rfl⟩
    · rw [hbefore] at hs
      cases hs
    · exact ⟨value, rfl⟩
  · rcases hright with hs | ⟨hs, -, -⟩
    · rw [hafter] at hs
      exact (List.cons.inj hs).2.symm
    · rw [hafter] at hs
      cases hs

/-- Of the three operators at the beginning, the first sign goes first: the power waits for the
second sign, and that does not bind more tightly. -/
theorem SignedBase.of_waiting {v : OperatorTree} {rest : List Term}
    (hterms : s.terms =
      .operator sign i :: .value v :: .operator power j :: .operator next k :: rest)
    (hprecedence : next.signPrecedence ≤ sign.signPrecedence)
    (hs : select? (sites s.terms) = some s)
    (hleft : s.TakesLeft left before) (hright : s.TakesRight right after) :
    SignedBase sign power next i j k
      (before.reverse ++ .value (.apply s.op s.start left right) :: after) := by
  rcases Site.beginning_or_split [_, _, _, _] hterms with hbehind | ⟨mid, hxs, hafter⟩
  · obtain ⟨w, hw⟩ := hleft.beginning [_, _, _] hbehind
    rw [← hw]
    exact .waiting
  · match hbefore : s.before.reverse, hxs with
    | [], hxs =>
      obtain ⟨-, rfl⟩ := List.cons.inj hxs
      rw [List.reverse_eq_nil_iff] at hbefore
      obtain ⟨⟨value, rfl⟩, rfl, rfl⟩ := Site.takes_of_first hleft hright hbefore hafter
      exact .applied rfl
    | [_, _], hxs =>
      have hready := (isReady_of_select? hs).2
      obtain rfl : [.operator next k] = mid := by simpa using congrArg (List.drop 3) hxs
      simp [Site.isReady, hafter, Term.isValue] at hready
    | [a, b, c], hxs =>
      obtain ⟨rfl, rfl, rfl, hop⟩ : .operator sign i = a ∧ .value v = b ∧ .operator power j = c ∧
          [.operator next k] = .operator s.op s.start :: mid := by simpa using hxs
      obtain ⟨rfl, -⟩ := Term.operator.inj (List.cons.inj hop).1
      have hend : endsInValue false s.before.reverse = false := by
        rw [hbefore]
        rfl
      rw [hterms, sites, sitesAfter] at hs
      rcases eq_or_lt_of_select?_cons hs rfl with hfirst | hlt
      · rw [hfirst] at hbefore
        cases hbefore
      · rw [Site.precedence_of_not_endsInValue hend] at hlt
        exact absurd hprecedence (Nat.not_le.2 hlt)
    | [_], hxs => simp at hxs
    | _ :: _ :: _ :: _ :: pre, hxs => simp at hxs

/-- The power at the beginning takes the value before it, and no other operator does. -/
theorem SignedBase.of_applied {base : OperatorTree} {rest : List Term}
    (hterms : s.terms = .value base :: .operator power j :: rest) (hbase : base.isSigned = true)
    (hleft : s.TakesLeft left before) :
    SignedBase sign power next i j k
      (before.reverse ++ .value (.apply s.op s.start left right) :: after) := by
  rcases Site.beginning_or_split [_, _] hterms with hbehind | ⟨mid, hxs, hafter⟩
  · obtain ⟨w, hw⟩ := hleft.beginning [_] hbehind
    rw [← hw]
    exact .applied hbase
  · match hbefore : s.before.reverse, hxs with
    | [b], hxs =>
      obtain ⟨rfl, ⟨rfl, rfl⟩, -⟩ : .value base = b ∧ (power = s.op ∧ j = s.start) ∧ mid = [] := by
        simpa using hxs
      obtain rfl : left = base := by
        rcases hleft with hs | ⟨hend, -⟩
        · rw [List.reverse_eq_cons_iff] at hbefore
          rw [hs] at hbefore
          exact Term.value.inj (List.cons.inj hbefore).1
        · rw [hbefore] at hend
          cases hend
      exact .taken (List.mem_append_right _ List.mem_cons_self) List.mem_cons_self hbase
    | [], hxs => simp at hxs
    | _ :: _ :: pre, hxs => simp at hxs

theorem SignedBase.collapse {new : List Term} (h : SignedBase sign power next i j k s.terms)
    (hprecedence : next.signPrecedence ≤ sign.signPrecedence)
    (hs : select? (sites s.terms) = some s) (hc : s.collapse = .ok new) :
    SignedBase sign power next i j k new := by
  obtain ⟨left, right, before, after, hleft, hright, rfl⟩ :=
    Site.collapse_eq_ok (isReady_of_select? hs).2 hc
  generalize hterms : s.terms = terms at h
  cases h with
  | waiting => exact .of_waiting hterms hprecedence hs hleft hright
  | applied hbase => exact .of_applied hterms hbase hleft
  | taken htree hsub hbase =>
    obtain ⟨tree, htree, hsub⟩ := Site.exists_subtree hleft hright (hterms ▸ htree) hsub
    exact .taken htree hsub hbase

theorem SignedBase.of_reduces {terms new : List Term} (hrun : Reduces terms new)
    (hprecedence : next.signPrecedence ≤ sign.signPrecedence)
    (h : SignedBase sign power next i j k terms) : SignedBase sign power next i j k new := by
  induction hrun with
  | refl => exact h
  | step hs hc _ ih => exact ih (h.collapse hprecedence hs hc)

/-- In the end the power has the call of a sign as its base. -/
theorem SignedBase.exists_apply {tree : OperatorTree}
    (h : SignedBase sign power next i j k [.value tree]) :
    ∃ base exponent, .apply power j base exponent ∈ tree.subtrees ∧ base.isSigned = true := by
  cases h with
  | taken htree hsub hbase =>
    obtain rfl := Term.value.inj (List.mem_singleton.1 htree)
    exact ⟨_, _, hsub, hbase⟩

end Exponent

/-! ## Sibling lists -/

section Lists

variable {t : SymbolTable} {items : List Part} {terms : List Term}

theorem SignFollows.cons {op : Operator} {start : Nat} (p : Part) (h : SignFollows items op start) :
    SignFollows (p :: items) op start := by
  obtain ⟨before, e, sign, e', after, rfl, hstart⟩ := h
  exact ⟨p :: before, e, sign, e', after, rfl, hstart⟩

theorem Border.imp {Q' : Operator → Nat → Prop} (hQ : ∀ op start, Q op start → Q' op start)
    {x y : Term} (h : Border r Q x y) : Border r Q' x y := by
  cases y with
  | value tree => exact border_value x tree
  | operator op start =>
    cases x with
    | value tree => exact fun htight hsigned => hQ _ _ (h htight hsigned)
    | operator op' start' => exact fun htight => hQ _ _ (h htight)

/-- The neighbours in the terms of a sibling list: no value is the call of a sign yet. -/
theorem CompilesTo.borders {afterValue : Bool} (h : CompilesTo t afterValue items terms) :
    terms.IsChain (Border r (SignFollows items)) := by
  have hcons : ∀ {p : Part} {items : List Part} {l : List Term},
      l.IsChain (Border r (SignFollows items)) → l.IsChain (Border r (SignFollows (p :: items))) :=
    fun hl => hl.imp fun _ _ hxy => hxy.imp fun _ _ => SignFollows.cons _
  have hvalue : ∀ {p : Part} {items : List Part} {e : Expr} {l : List Term},
      l.IsChain (Border r (SignFollows items)) →
        (.value (.operand e) :: l).IsChain (Border r (SignFollows (p :: items))) := by
    intro p items e l hl
    refine List.isChain_cons.2 ⟨?_, hcons hl⟩
    intro y _
    cases y with
    | value tree => exact border_value _ tree
    | operator op start => exact fun _ hsigned => by cases hsigned
  induction h with
  | nil => exact .nil
  | @operator _ op e ps ts hrest ih =>
    refine List.isChain_cons.2 ⟨?_, hcons ih⟩
    intro y hy
    cases hrest with
    | nil => cases hy
    | @operator _ sign e' ps ts _ =>
      obtain rfl : .operator sign e'.start = y := by simpa using hy
      exact fun _ => ⟨[], e, sign, e', ps, rfl, rfl⟩
    | value _ _ _ =>
      obtain rfl := Option.some.inj hy
      exact border_value _ _
  | value _ _ _ ih => exact hvalue ih
  | product _ _ _ _ ih => exact List.isChain_cons_cons.2 ⟨border_value _ _, hvalue ih⟩

/-- The values in the terms of a sibling list are the expressions of parts. -/
theorem CompilesTo.eq_operand {afterValue : Bool} (h : CompilesTo t afterValue items terms) :
    ∀ tree, .value tree ∈ terms → ∃ e, tree = .operand e := by
  induction h with
  | nil => simp
  | operator _ ih => simpa using ih
  | value _ _ _ ih => simpa using ih
  | product _ _ _ _ ih => simpa using ih

theorem CompilesTo.waiting {afterValue : Bool} (h : CompilesTo t afterValue items terms)
    (hops : ∀ op start, .operator op start ∈ terms → .operator op ∈ r.symbols) :
    Waiting r (SignFollows items) terms := by
  refine ⟨hops, ?_, h.borders⟩
  intro tree htree
  obtain ⟨e, rfl⟩ := h.eq_operand tree htree
  refine ⟨?_, by simp⟩
  intro op start base exponent hsub
  simp [OperatorTree.subtrees] at hsub

/-- The terms of a list that begins with a sign, a value, a power and another sign. -/
theorem CompilesTo.signedBase {sign power next : Operator} {written written' written'' : Excerpt}
    {v : Part} {after : List Part} (hv : v.isOperator = false)
    (h : CompilesTo t false (.operator sign written :: v :: .operator power written' ::
      .operator next written'' :: after) terms) :
    SignedBase sign power next written.start written'.start written''.start terms := by
  cases h with
  | value hsign => cases hsign
  | operator h =>
    cases h with
    | operator => cases hv
    | value _ _ h =>
      cases h with
      | product hpower => cases hpower
      | operator h =>
        cases h with
        | value hnext => cases hnext
        | operator => exact .waiting

end Lists

/-! ## Operators in trees -/

theorem mem_inOrder_of_mem_subtrees {tree left right : OperatorTree} {op : Operator} {start : Nat}
    (h : .apply op start left right ∈ tree.subtrees) : .operator op start ∈ tree.inOrder := by
  induction tree with
  | operand e => simp [OperatorTree.subtrees] at h
  | absent value => simp [OperatorTree.subtrees] at h
  | apply op' start' left' right' ihl ihr =>
    simp only [OperatorTree.subtrees, List.mem_cons, List.mem_append] at h
    simp only [OperatorTree.inOrder, List.mem_append, List.mem_cons]
    rcases h with heq | h | h
    · cases heq
      exact .inr (.inl rfl)
    · exact .inl (ihl h)
    · exact .inr (.inr (ihr h))

/-- The base of a power in the tree of a sibling list is the call of a sign only if the exponent
begins with one. -/
theorem waits_of_builds {text : Text} {l : List Part} {tree : OperatorTree}
    (hclean : (parse r text).isClean = true) (hl : SiblingList (parse r text).items l)
    (h : Builds (.ofParse (parse r text)) l tree) : tree.Waits r (SignFollows l) := by
  obtain ⟨terms, hterms, hbalanced, hops, hrun⟩ := hl.exists_run hclean h
  have hwaiting := (hterms.waiting hops).of_reduces hrun hbalanced
  exact (hwaiting.trees tree (List.mem_singleton.2 rfl)).1

/-- A power between a value with a sign and another sign takes the first sign as its base, at the
beginning of a list and if the signs of the registry bind alike. -/
theorem exists_apply_of_builds {text : Text} {l : List Part} {tree : OperatorTree}
    (hclean : (parse r text).isClean = true) (hl : SiblingList (parse r text).items l)
    (h : Builds (.ofParse (parse r text)) l tree)
    (hsigns : ∀ sign next, .operator sign ∈ r.symbols → .operator next ∈ r.symbols →
      sign.leftOptional = true → next.leftOptional = true →
      next.signPrecedence ≤ sign.signPrecedence)
    {sign power next : Operator} {written written' written'' : Excerpt} {v : Part}
    {after : List Part} (hv : v.isOperator = false)
    (hitems : l = .operator sign written :: v :: .operator power written' ::
      .operator next written'' :: after) :
    ∃ base exponent, .apply power written'.start base exponent ∈ tree.subtrees ∧
      base.isSigned = true := by
  subst hitems
  obtain ⟨hsound, hcomplete⟩ := sound_of_isClean hclean
  obtain ⟨hlsound, ⟨hsign, -⟩, -, -, ⟨hnext, -⟩, -⟩ := hl.sound hsound hcomplete
  have hprecedence : next.signPrecedence ≤ sign.signPrecedence :=
    hsigns sign next (hlsound (.operator sign written) (by simp)).operator
      (hlsound (.operator next written'') (by simp)).operator
      (hsign.resolve_left (by simp)) (hnext.resolve_left (by simp [Part.isOperator]))
  obtain ⟨terms, hterms, -, -, hrun⟩ := hl.exists_run hclean h
  exact ((hterms.signedBase hv).of_reduces hrun hprecedence).exists_apply

/-- The standard powers bind more tightly than the standard signs. -/
theorem tight_of_mem_standard {op : Operator} (h : .operator op ∈ Registry.standard.symbols)
    (hliteral : op.literal = ['^']) : Tight .standard op := by
  obtain ⟨hright, hprecedence⟩ := power_of_mem_standard h hliteral
  refine ⟨hright, ?_⟩
  intro sign hsign hleft
  rw [signPrecedence_of_mem_standard hsign hleft, hprecedence]
  decide

/-- **A sign in front of a power applies to the whole power, unless the exponent begins with a
sign.**  In the tree of a sibling list, the base of a standard power is the call of a sign only if
the power is directly followed by another operator; and if a list begins with a sign, a value, an
operator and another sign, the call of the first sign does become the left operand. -/
theorem isSigned_base_of_compile (text : Text) (f : CompiledFormula)
    (h : compile (parse .standard text) = .ok f) (l : List Part)
    (hl : SiblingList (parse .standard text).items l) (tree : OperatorTree)
    (htree : Builds (.ofParse (parse .standard text)) l tree) :
    (∀ op start base exponent, .apply op start base exponent ∈ tree.subtrees →
      op.literal = ['^'] → base.isSigned = true → SignFollows l op start) ∧
    ∀ sign written v power written' next written'' after,
      l = .operator sign written :: v :: .operator power written' ::
        .operator next written'' :: after → v.isOperator = false →
      ∃ base exponent, .apply power written'.start base exponent ∈ tree.subtrees ∧
        base.isSigned = true := by
  obtain ⟨hclean, -⟩ := builds_of_compile h
  refine ⟨?_, ?_⟩
  · intro op start base exponent hsub hliteral hsigned
    have hop : .operator op ∈ Registry.standard.symbols :=
      hl.registered_of_mem_inOrder hclean htree (mem_inOrder_of_mem_subtrees hsub)
    exact waits_of_builds hclean hl htree op start base exponent hsub
      (tight_of_mem_standard hop hliteral) hsigned
  · intro sign written v power written' next written'' after hitems hv
    refine exists_apply_of_builds hclean hl htree ?_ hv hitems
    intro sign next hsign hnext hsignLeft hnextLeft
    rw [signPrecedence_of_mem_standard hsign hsignLeft,
      signPrecedence_of_mem_standard hnext hnextLeft]

/-- The base of a power with a plain exponent is no sign. -/
theorem isSigned_base_of_compile_square :
    ∃ f tree, compile (parse .standard "-x^2".toList) = .ok f ∧
      Builds (.ofParse (parse .standard "-x^2".toList)) (parse .standard "-x^2".toList).items tree ∧
      ∀ op start base exponent, .apply op start base exponent ∈ tree.subtrees →
        op.literal = ['^'] → base.isSigned = false := by
  have hok : (compile (parse .standard "-x^2".toList)).isOk = true := by decide +kernel
  have hitems : (parse .standard "-x^2".toList).items.map (·.isOperator) =
      [true, false, true, false] := by decide +kernel
  obtain ⟨f, hf⟩ := exists_of_isOk hok
  obtain ⟨-, tree, htree, -⟩ := builds_of_compile hf
  refine ⟨f, tree, hf, htree, ?_⟩
  intro op start base exponent hsub hliteral
  by_contra hsigned
  rw [Bool.not_eq_false] at hsigned
  obtain ⟨before, e, sign, e', after, hsplit, -⟩ :=
    (isSigned_base_of_compile "-x^2".toList f hf _ .whole tree htree).1 op start base exponent hsub
      hliteral hsigned
  rw [hsplit] at hitems
  rcases before with _ | ⟨_, _ | ⟨_, _ | ⟨_, _ | ⟨_, before⟩⟩⟩⟩ <;> simp [Part.isOperator] at hitems

/-- Whether a tree is a power whose base is the call of a sign. -/
def OperatorTree.isSignedPower : OperatorTree → Bool
  | apply op _ base _ => op.literal = ['^'] && base.isSigned
  | _ => false

/-- **A sign in front of a power does not always apply to the whole power**: `-x^-y` is a power of
`-x`. -/
theorem not_forall_isSigned_base :
    ¬ ∀ (text : Text) (f : CompiledFormula), compile (parse .standard text) = .ok f →
      ∀ l tree, SiblingList (parse .standard text).items l →
        Builds (.ofParse (parse .standard text)) l tree →
          ∀ sub ∈ tree.subtrees, sub.isSignedPower = false := by
  intro hall
  have hok : (compile (parse .standard "-x^-y".toList)).isOk = true := by decide +kernel
  obtain ⟨f, hf⟩ := exists_of_isOk hok
  have hsigned : ((operatorTree (.ofParse (parse .standard "-x^-y".toList)) 0
      (parse .standard "-x^-y".toList).items).toOption.any (·.subtrees.any (·.isSignedPower))) =
        true := by decide +kernel
  obtain ⟨-, tree, htree, -⟩ := builds_of_compile hf
  rw [htree 0] at hsigned
  obtain ⟨sub, hsub, hpower⟩ := List.any_eq_true.1 hsigned
  rw [hall _ f hf _ tree .whole htree sub hsub] at hpower
  cases hpower

end Formula

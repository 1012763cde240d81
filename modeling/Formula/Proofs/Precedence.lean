import Formula.Proofs.Signs

/-!
# Precedence

In a list in which operators and values alternate, the reduction builds the tree that precedence
asks for: the operator that binds least tightly is at the root, the rightmost one of several, with
the trees of the terms to its left and to its right below it.

The reduction works from the other end.  It looks for the operator that binds most tightly, the
leftmost one of several, and puts a value in the place of it and its operands.  All other operators
stay where they are with their precedences, and where a list can be split after the step it can be
split before it, since what has become a value binds more tightly than all operators to its left and
at least as tightly as all operators to its right (`SplitsInto.expand`).
-/

namespace Formula

/-- How tightly the operators of a list bind.  A value stands before the list if `left` is set. -/
def precedences (left : Bool) : List Term → List Nat
  | [] => []
  | .value _ :: ts => precedences true ts
  | .operator op _ :: ts =>
    (if left then op.precedence else op.signPrecedence) :: precedences false ts

theorem precedences_append (left : Bool) (xs ys : List Term) :
    precedences left (xs ++ ys) =
      precedences left xs ++ precedences (endsInValue left xs) ys := by
  induction xs generalizing left with
  | nil => rfl
  | cons x xs ih => cases x <;> simp [precedences, endsInValue, ih]

theorem length_precedences (left : Bool) (terms : List Term) :
    (precedences left terms).length = operatorCount terms := by
  induction terms generalizing left with
  | nil => rfl
  | cons t terms ih => cases t <;> simp [precedences, ih]

/-- A list of terms that is split, again and again, at the operator that binds least tightly, the
rightmost one of several. -/
inductive SplitsInto : List Term → OperatorTree → Prop
  /-- A single value is not split. -/
  | value (tree : OperatorTree) : SplitsInto [.value tree] tree
  /-- An operator between two lists. -/
  | between {before after : List Term} {op : Operator} {start : Nat} {left right : OperatorTree} :
    (∀ p ∈ precedences false before, op.precedence ≤ p) →
    (∀ p ∈ precedences false after, op.precedence < p) →
    SplitsInto before left → SplitsInto after right →
    SplitsInto (before ++ .operator op start :: after) (.apply op start left right)
  /-- An operator at the beginning, which has its default value as left operand. -/
  | sign {after : List Term} {op : Operator} {start : Nat} {value : Float} {right : OperatorTree} :
    (∀ p ∈ precedences false after, op.signPrecedence < p) →
    DefaultsTo op.left? value → SplitsInto after right →
    SplitsInto (.operator op start :: after) (.apply op start (.absent value) right)

namespace SplitsInto

variable {terms : List Term} {tree tree' : OperatorTree}

theorem endsInValue_eq_true (h : SplitsInto terms tree) (left : Bool) :
    endsInValue left terms = true := by
  induction h generalizing left with
  | value => rfl
  | between _ _ _ _ _ ih => rw [endsInValue_append, endsInValue, ih]
  | sign _ _ _ ih => rw [endsInValue, ih]

/-- Of two operators the right one is not split off first if it binds more tightly, and the left one
not if it does not. -/
theorem not_split_later {before mid after : List Term} {op op' : Operator} {start start' : Nat}
    {left : OperatorTree} (hend : endsInValue false before = true)
    (hafter : ∀ p ∈ precedences false (mid ++ .operator op' start' :: after), op.precedence < p)
    (hbefore : ∀ p ∈ precedences false (before ++ .operator op start :: mid), op'.precedence ≤ p)
    (hleft : SplitsInto (before ++ .operator op start :: mid) left) : False := by
  have hmid : endsInValue false mid = true := by
    simpa [endsInValue_append, endsInValue] using hleft.endsInValue_eq_true false
  have hlt : op.precedence < op'.precedence :=
    hafter _ (by simp [precedences_append, precedences, hmid])
  have hle : op'.precedence ≤ op.precedence :=
    hbefore _ (by simp [precedences_append, precedences, hend])
  omega

/-- A sign at the beginning that binds less tightly than all other operators is split off first. -/
theorem not_split_sign {mid after : List Term} {op op' : Operator} {start start' : Nat}
    {left : OperatorTree}
    (hafter : ∀ p ∈ precedences false (mid ++ .operator op' start' :: after),
      op.signPrecedence < p)
    (hbefore : ∀ p ∈ precedences false (.operator op start :: mid), op'.precedence ≤ p)
    (hleft : SplitsInto (.operator op start :: mid) left) : False := by
  have hmid : endsInValue false mid = true := hleft.endsInValue_eq_true false
  have hlt : op.signPrecedence < op'.precedence :=
    hafter _ (by simp [precedences_append, precedences, hmid])
  have hle : op'.precedence ≤ op.signPrecedence := hbefore _ (by simp [precedences])
  omega

/-- **There is one way to split a list.** -/
theorem unique (h : SplitsInto terms tree) (h' : SplitsInto terms tree') : tree = tree' := by
  induction h generalizing tree' with
  | value =>
    generalize hterms : [Term.value _] = terms at h'
    cases h' with
    | value => simpa using hterms
    | @between before => cases before <;> simp at hterms
    | sign => cases hterms
  | @between before after op start left right hbefore hafter hleft hright ihl ihr =>
    generalize hterms : before ++ .operator op start :: after = terms at h'
    cases h' with
    | value => cases before <;> simp at hterms
    | @between before' after' op' start' left' right' hbefore' hafter' hleft' hright' =>
      rcases List.append_eq_append_iff.1 hterms with ⟨mid, rfl, hmid⟩ | ⟨mid, rfl, hmid⟩
      · cases mid with
        | nil =>
          obtain ⟨⟨rfl, rfl⟩, rfl⟩ : (op = op' ∧ start = start') ∧ after = after' := by
            simpa using hmid
          rw [List.append_nil] at hleft'
          rw [ihl hleft', ihr hright']
        | cons t mid =>
          obtain ⟨rfl, rfl⟩ := List.cons.inj hmid
          exact (not_split_later (hleft.endsInValue_eq_true false) hafter hbefore' hleft').elim
      · cases mid with
        | nil =>
          obtain ⟨⟨rfl, rfl⟩, rfl⟩ : (op' = op ∧ start' = start) ∧ after' = after := by
            simpa using hmid
          rw [List.append_nil] at ihl
          rw [ihl hleft', ihr hright']
        | cons t mid =>
          obtain ⟨rfl, rfl⟩ := List.cons.inj hmid
          exact (not_split_later (hleft'.endsInValue_eq_true false) hafter' hbefore hleft).elim
    | @sign after' op' start' value right' hafter' hdefault hright' =>
      cases before with
      | nil => cases hleft.endsInValue_eq_true false
      | cons t mid =>
        obtain ⟨rfl, rfl⟩ := List.cons.inj hterms
        exact (not_split_sign hafter' hbefore hleft).elim
  | @sign after op start value right hafter hdefault hright ih =>
    generalize hterms : Term.operator op start :: after = terms at h'
    cases h' with
    | value => cases hterms
    | @between before' after' op' start' left' right' hbefore' hafter' hleft' hright' =>
      cases before' with
      | nil => cases hleft'.endsInValue_eq_true false
      | cons t mid =>
        obtain ⟨rfl, rfl⟩ := List.cons.inj hterms
        exact (not_split_sign hafter hbefore' hleft').elim
    | @sign after' op' start' value' right' hafter' hdefault' hright' =>
      obtain ⟨⟨rfl, rfl⟩, rfl⟩ : (op = op' ∧ start = start') ∧ after = after' := by
        simpa using hterms
      obtain ⟨literal, hliteral, hvalue⟩ := hdefault
      obtain ⟨literal', hliteral', hvalue'⟩ := hdefault'
      obtain rfl := Option.some.inj (hliteral.symm.trans hliteral')
      obtain rfl := Except.ok.inj (hvalue.symm.trans hvalue')
      rw [ih hright']

/-- What holds of all precedences after a value has been replaced. -/
theorem forall_precedences_expand {before mid after : List Term} {new : OperatorTree} {q : Nat}
    (hmid : SplitsInto mid new) (hprecedence : precedences (endsInValue false before) mid = [q])
    {P : Nat → Prop} (hq : P q) (h : ∀ p ∈ precedences false (before ++ .value new :: after), P p) :
    ∀ p ∈ precedences false (before ++ (mid ++ after)), P p := by
  rw [precedences_append] at h
  rw [precedences_append, precedences_append, hprecedence, hmid.endsInValue_eq_true,
    List.singleton_append]
  exact List.forall_mem_append.2 ⟨(List.forall_mem_append.1 h).1,
    List.forall_mem_cons.2 ⟨hq, (List.forall_mem_append.1 h).2⟩⟩

/-- **A value can be replaced by a list that splits into it**, if the one operator that is split off
there binds more tightly than all operators before the value and at least as tightly as all
operators after it. -/
theorem expand {before mid after : List Term} {new : OperatorTree} {q : Nat}
    (hmid : SplitsInto mid new) (hprecedence : precedences (endsInValue false before) mid = [q])
    (hbefore : ∀ p ∈ precedences false before, p < q)
    (hafter : ∀ p ∈ precedences true after, p ≤ q)
    (h : SplitsInto (before ++ .value new :: after) tree) :
    SplitsInto (before ++ (mid ++ after)) tree := by
  generalize hterms : before ++ .value new :: after = terms at h
  induction h generalizing before after with
  | value tree =>
    cases before with
    | nil =>
      obtain ⟨rfl, rfl⟩ : new = tree ∧ after = [] := by simpa using hterms
      simpa using hmid
    | cons t before => simp at hterms
  | @between before' after' op start left right hbefore' hafter' hleft hright ihl ihr =>
    have hend : endsInValue false before' = true := hleft.endsInValue_eq_true false
    rcases List.append_eq_append_iff.1 hterms.symm with ⟨mid', rfl, hmid'⟩ | ⟨mid', rfl, hmid'⟩
    · -- The value is to the right of the operator, which binds less tightly.
      cases mid' with
      | nil => cases hmid'
      | cons t mid' =>
        simp only [List.cons_append, List.cons.injEq] at hmid'
        obtain ⟨rfl, rfl⟩ := hmid'
        rw [endsInValue_append, endsInValue] at hprecedence
        simp only [precedences_append, precedences, hend, if_true] at hbefore
        have hright' : SplitsInto (mid' ++ (mid ++ after)) right :=
          ihr hprecedence (fun p hp => hbefore p (by simp [hp])) hafter rfl
        rw [List.append_assoc, List.cons_append]
        exact .between hbefore'
          (forall_precedences_expand hmid hprecedence (hbefore _ (by simp)) hafter') hleft hright'
    · -- The value is to the left of the operator, which does not bind more tightly.
      cases mid' with
      | nil => cases hmid'
      | cons t mid' =>
        simp only [List.cons_append, List.cons.injEq] at hmid'
        obtain ⟨rfl, rfl⟩ := hmid'
        rw [endsInValue_append, endsInValue] at hend
        simp only [precedences_append, precedences, hend, if_true] at hafter
        have hleft' : SplitsInto (before ++ (mid ++ mid')) left :=
          ihl hprecedence hbefore (fun p hp => hafter p (by simp [hp])) rfl
        rw [← List.append_assoc, ← List.append_assoc, List.append_assoc before]
        exact .between
          (forall_precedences_expand hmid hprecedence (hafter _ (by simp)) hbefore') hafter' hleft'
          hright
  | @sign after' op start value right hafter' hdefault hright ih =>
    cases before with
    | nil => cases hterms
    | cons t before =>
      simp only [List.cons_append, List.cons.injEq] at hterms
      obtain ⟨rfl, rfl⟩ := hterms
      rw [endsInValue] at hprecedence
      rw [precedences] at hbefore
      exact .sign (forall_precedences_expand hmid hprecedence (hbefore _ (by simp)) hafter')
        hdefault (ih hprecedence (fun p hp => hbefore p (by simp [hp])) hafter rfl)

end SplitsInto

/-! ## The operator that is next -/

/-- An operator in a list that goes on with further terms. -/
def Site.extend (more : List Term) (s : Site) : Site :=
  { s with after := s.after ++ more }

theorem sitesAfter_append (before xs ys : List Term) :
    sitesAfter before (xs ++ ys) =
      (sitesAfter before xs).map (.extend ys) ++ sitesAfter (xs.reverse ++ before) ys := by
  induction xs generalizing before with
  | nil => rfl
  | cons x xs ih => cases x <;> simp [sitesAfter, ih, Site.extend]

theorem map_precedence_sitesAfter (before terms : List Term) :
    (sitesAfter before terms).map Site.precedence =
      precedences (endsInValue false before.reverse) terms := by
  induction terms generalizing before with
  | nil => rfl
  | cons t terms ih =>
    cases t with
    | value v =>
      rw [sitesAfter, ih, precedences, List.reverse_cons, endsInValue_append]
      rfl
    | operator op start =>
      rw [sitesAfter, List.map_cons, ih, precedences, List.reverse_cons, endsInValue_append]
      congr 1
      cases before with
      | nil => rfl
      | cons u before => cases u <;> simp [Site.precedence, endsInValue_append, endsInValue]

theorem length_before_of_mem_sitesAfter {before terms : List Term} {s : Site}
    (h : s ∈ sitesAfter before terms) : s.before.length < before.length + terms.length := by
  have hlength := congrArg List.length (eq_of_mem_sitesAfter h)
  simp only [List.length_append, List.length_reverse, List.length_cons] at hlength
  omega

/-- The operators of a list, seen from one of them. -/
theorem sites_terms (s : Site) :
    sites s.terms = (sites s.before.reverse).map (.extend (.operator s.op s.start :: s.after)) ++
      s :: sitesAfter (.operator s.op s.start :: s.before) s.after := by
  rw [Site.terms, sites, sitesAfter_append, sitesAfter, List.reverse_reverse, List.append_nil]
  rfl

/-- The operator that is next binds more tightly than all that are ready and stand before it. -/
theorem lt_of_select?_append {s : Site} {l l' : List Site} (h : select? (l ++ s :: l') = some s)
    (hs : s ∉ l) : ∀ u ∈ l, u.isReady = true → u.precedence < s.precedence := by
  induction l with
  | nil => simp
  | cons v l ih =>
    simp only [List.mem_cons, not_or] at hs
    obtain ⟨hne, hs⟩ := hs
    have hrest : select? (l ++ s :: l') = some s := by
      rw [List.cons_append, select?] at h
      split at h
      · split at h
        · exact absurd (Option.some.inj h).symm hne
        · cases h
      · rename_i best hbest
        split at h
        · exact absurd (Option.some.inj h).symm hne
        · rw [hbest, h]
    intro u hu hready
    rcases List.mem_cons.1 hu with rfl | hu
    · exact (eq_or_lt_of_select?_cons h hready).resolve_left hne
    · exact ih hrest hs u hu hready

/-- **The operator that is next** binds more tightly than all operators before it and at least as
tightly as all operators after it, if all of them are ready. -/
theorem precedences_of_select? {s : Site} (h : select? (sites s.terms) = some s)
    (hready : ∀ u ∈ sites s.terms, u.isReady = true) :
    (∀ p ∈ precedences false s.before.reverse, p < s.precedence) ∧
      ∀ p ∈ precedences false s.after, p ≤ s.precedence := by
  have hmax := precedence_le_of_select? h
  rw [sites_terms] at h hready hmax
  constructor
  · intro p hp
    have hprecedences := map_precedence_sitesAfter [] s.before.reverse
    rw [List.reverse_nil, endsInValue, ← sites] at hprecedences
    rw [← hprecedences] at hp
    obtain ⟨u, hu, rfl⟩ := List.mem_map.1 hp
    have hmem : u.extend (.operator s.op s.start :: s.after) ∈
        (sites s.before.reverse).map (.extend (.operator s.op s.start :: s.after)) :=
      List.mem_map_of_mem hu
    -- The operators before it have fewer terms before them.
    have hother : s ∉ (sites s.before.reverse).map
        (.extend (.operator s.op s.start :: s.after)) := by
      intro hs
      obtain ⟨v, hv, hvs⟩ := List.mem_map.1 hs
      have hlength := length_before_of_mem_sitesAfter hv
      rw [← hvs] at hlength
      simp [Site.extend] at hlength
    have hlt := lt_of_select?_append h hother _ hmem (hready _ (List.mem_append_left _ hmem))
    exact hlt
  · intro p hp
    have hprecedences :=
      map_precedence_sitesAfter (.operator s.op s.start :: s.before) s.after
    rw [List.reverse_cons, endsInValue_append, endsInValue, endsInValue] at hprecedences
    rw [← hprecedences] at hp
    obtain ⟨u, hu, rfl⟩ := List.mem_map.1 hp
    have hmem := List.mem_append_right
      ((sites s.before.reverse).map (.extend (.operator s.op s.start :: s.after)))
      (List.mem_cons_of_mem s hu)
    exact hmax u hmem (hready u hmem)

/-! ## Alternating lists -/

/-- A list in which operators and values alternate and which ends in a value.  It begins with a
value, or with an operator that may do without a left operand. -/
structure Alternating (terms : List Term) : Prop where
  /-- Of two neighbours one is a value. -/
  neighbours : terms.IsChain fun a b => a.isValue ≠ b.isValue
  /-- The last term is a value. -/
  last : endsInValue false terms = true
  /-- If the first term is an operator, it has a number as the default value of its left operand. -/
  first : ∀ op start, terms.head? = some (.operator op start) → ∃ value, DefaultsTo op.left? value

/-- What an operator takes from its list: the terms before it, those that make up the new value, and
those after it. -/
structure Site.Gathers (s : Site) (before mid after : List Term) (new : OperatorTree) : Prop where
  /-- Nothing is left out. -/
  terms : s.terms = before ++ (mid ++ after)
  /-- The new value stands in the place of what is taken. -/
  collapse : s.collapse = .ok (before ++ .value new :: after)
  /-- It is what these terms split into. -/
  splits : SplitsInto mid new
  /-- There is no other operator among them. -/
  precedence : precedences (endsInValue false before) mid = [s.precedence]
  /-- No operator is taken from the terms before it. -/
  precedences_before : precedences false before = precedences false s.before.reverse
  /-- No operator is taken from the terms after it. -/
  precedences_after : precedences true after = precedences false s.after
  /-- What is taken begins with a value unless it is at the beginning of the list. -/
  head : before ≠ [] → mid.head?.any Term.isValue = true

theorem exists_concat_value {left : Bool} {terms : List Term} (h : endsInValue left terms = true)
    (hne : terms ≠ []) : ∃ rest tree, terms = rest ++ [.value tree] := by
  obtain ⟨rest, t, rfl⟩ := (List.eq_nil_or_concat' terms).resolve_left hne
  cases t with
  | value tree => exact ⟨rest, tree, rfl⟩
  | operator op start => simp [endsInValue_append, endsInValue] at h

namespace Alternating

variable {s : Site}

/-- What stands to the right of an operator. -/
theorem exists_right (h : Alternating s.terms) :
    ∃ right after, s.after = .value right :: after := by
  have hchain := h.neighbours
  have hlast := h.last
  cases hafter : s.after with
  | nil => simp [Site.terms, hafter, endsInValue_append, endsInValue] at hlast
  | cons t after =>
    rw [Site.terms, hafter, List.isChain_append_cons_cons] at hchain
    cases t with
    | value right => exact ⟨right, after, rfl⟩
    | operator op start => exact absurd rfl hchain.2.1

/-- What stands to the left of an operator. -/
theorem exists_left (h : Alternating s.terms) :
    (s.before = [] ∧ ∃ value, DefaultsTo s.op.left? value) ∨
      ∃ left before, s.before = .value left :: before := by
  cases hbefore : s.before with
  | nil => exact .inl ⟨rfl, h.first s.op s.start (by simp [Site.terms, hbefore])⟩
  | cons t before =>
    have hchain := h.neighbours
    rw [Site.terms, hbefore, List.reverse_cons, List.append_assoc, List.singleton_append,
      List.isChain_append_cons_cons] at hchain
    cases t with
    | value left => exact .inr ⟨left, before, rfl⟩
    | operator op start => exact absurd rfl hchain.2.1

/-- All operators of an alternating list are ready. -/
theorem isReady {terms : List Term} (h : Alternating terms) :
    ∀ u ∈ sites terms, u.isReady = true := by
  intro u hu
  obtain rfl : u.terms = terms := terms_of_mem_sites hu
  obtain ⟨right, after, hafter⟩ := h.exists_right
  simp [Site.isReady, hafter, Term.isValue]

/-- An operator of an alternating list takes the values next to it, or its default value if it is at
the beginning. -/
theorem exists_gathers (h : Alternating s.terms) :
    ∃ before mid after new, s.Gathers before mid after new := by
  obtain ⟨right, after, hafter⟩ := h.exists_right
  have hright : s.takeRight = .ok (right, after) := by simp [Site.takeRight, hafter]
  rcases h.exists_left with ⟨hbefore, value, hdefault⟩ | ⟨left, before, hbefore⟩
  · obtain ⟨literal, hliteral, hvalue⟩ := hdefault
    have hleft : s.takeLeft = .ok (.absent value, []) := by
      simp [Site.takeLeft, hbefore, Site.defaultOperand, hliteral, readLiteral, hvalue]
    exact ⟨[], [.operator s.op s.start, .value right], after,
      .apply s.op s.start (.absent value) right,
      { terms := by simp [Site.terms, hbefore, hafter]
        collapse := by rw [Site.collapse, hright, hleft]; rfl
        splits := .sign (by simp [precedences]) ⟨literal, hliteral, hvalue⟩ (.value right)
        precedence := by simp [precedences, endsInValue, Site.precedence, hbefore]
        precedences_before := by rw [hbefore]; rfl
        precedences_after := by rw [hafter]; rfl
        head := fun hne => absurd rfl hne }⟩
  · have hleft : s.takeLeft = .ok (left, before) := by simp [Site.takeLeft, hbefore]
    exact ⟨before.reverse, [.value left, .operator s.op s.start, .value right], after,
      .apply s.op s.start left right,
      { terms := by simp [Site.terms, hbefore, hafter]
        collapse := by rw [Site.collapse, hright, hleft]; rfl
        splits := @SplitsInto.between [.value left] _ _ _ _ _ (by simp [precedences])
          (by simp [precedences]) (.value left) (.value right)
        precedence := by simp [precedences, Site.precedence, hbefore]
        precedences_before := by simp [hbefore, precedences_append, precedences]
        precedences_after := by rw [hafter]; rfl
        head := fun _ => rfl }⟩

/-- A value in the place of what an operator takes. -/
theorem of_gathers {before mid after : List Term} {new : OperatorTree} (h : Alternating s.terms)
    (hs : s.Gathers before mid after new) : Alternating (before ++ .value new :: after) := by
  have hend (left : Bool) : endsInValue left mid = true := hs.splits.endsInValue_eq_true left
  obtain ⟨hneighbours, hlast, hfirst⟩ := h
  rw [hs.terms] at hneighbours hlast hfirst
  refine ⟨?_, ?_, ?_⟩
  · obtain ⟨rest, tree, rfl⟩ := exists_concat_value (hend false) (by rintro rfl; cases hend false)
    rw [List.append_assoc, List.singleton_append, List.isChain_append, List.isChain_append,
      List.isChain_cons] at hneighbours
    obtain ⟨hbefore, ⟨-, hafter, -⟩, hborder⟩ := hneighbours
    refine List.isChain_append.2 ⟨hbefore, List.isChain_cons.2 hafter, ?_⟩
    intro x hx y hy
    obtain rfl : .value new = y := by simpa using hy
    have hne : before ≠ [] := by
      rintro rfl
      cases hx
    obtain ⟨z, hz, hvalue⟩ := (Option.any_eq_true _ _).1 (hs.head hne)
    have hx := hborder x hx z (by cases rest <;> simpa using hz)
    rwa [hvalue] at hx
  · rw [endsInValue_append, endsInValue_append, hend] at hlast
    rwa [endsInValue_append, endsInValue]
  · intro op start hhead
    refine hfirst op start ?_
    cases before with
    | nil => cases hhead
    | cons t before => exact hhead

/-- **A step of the reduction.**  The list that it leaves alternates too, and the original list
splits into what this one splits into. -/
theorem collapse (h : Alternating s.terms) (hs : select? (sites s.terms) = some s) :
    ∃ new, s.collapse = .ok new ∧ Alternating new ∧
      operatorCount s.terms = operatorCount new + 1 ∧
      ∀ tree, SplitsInto new tree → SplitsInto s.terms tree := by
  obtain ⟨before, mid, after, new, hgathers⟩ := h.exists_gathers
  obtain ⟨hbefore, hafter⟩ := precedences_of_select? hs h.isReady
  rw [← hgathers.precedences_before] at hbefore
  rw [← hgathers.precedences_after] at hafter
  refine ⟨_, hgathers.collapse, h.of_gathers hgathers, ?_, fun tree htree => ?_⟩
  · have hmid : operatorCount mid = 1 := by
      rw [← length_precedences, hgathers.precedence, List.length_singleton]
    simp only [hgathers.terms, operatorCount_append, operatorCount_value]
    omega
  · rw [hgathers.terms]
    exact hgathers.splits.expand hgathers.precedence hbefore hafter htree

variable {terms : List Term}

theorem ne_nil (h : Alternating terms) : terms ≠ [] := by
  rintro rfl
  cases h.last

theorem exists_eq_singleton (h : Alternating terms) (hcount : operatorCount terms = 0) :
    ∃ tree, terms = [.value tree] := by
  obtain ⟨rest, tree, rfl⟩ := exists_concat_value h.last h.ne_nil
  rcases List.eq_nil_or_concat' rest with rfl | ⟨rest, t, rfl⟩
  · exact ⟨tree, rfl⟩
  · have hvalue : t.isValue = true := isValue_of_operatorCount hcount t (by simp)
    have hchain := h.neighbours
    rw [List.append_assoc, List.singleton_append, List.isChain_append_cons_cons] at hchain
    exact absurd hvalue hchain.2.1

/-- As long as there are operators, one of them is next. -/
theorem exists_select? (h : Alternating terms) (hne : operatorCount terms ≠ 0) :
    ∃ s : Site, s.terms = terms ∧ select? (sites s.terms) = some s := by
  cases hs : select? (sites terms) with
  | some s =>
    obtain rfl : s.terms = terms := terms_of_mem_sites (isReady_of_select? hs).1
    exact ⟨s, rfl, hs⟩
  | none =>
    rw [← length_sitesAfter [] terms, ← sites] at hne
    obtain ⟨u, hu⟩ := List.exists_mem_of_length_pos (Nat.pos_of_ne_zero hne)
    have hready := h.isReady u hu
    rw [select?_eq_none hs u hu] at hready
    cases hready

/-- **A run of the reduction.**  What is left in the end is a tree into which the list splits. -/
theorem reduceSteps {n : Nat} (h : Alternating terms) (hcount : operatorCount terms = n) :
    ∃ tree, reduceSteps n terms = .ok [.value tree] ∧ SplitsInto terms tree := by
  induction n generalizing terms with
  | zero =>
    obtain ⟨tree, rfl⟩ := h.exists_eq_singleton hcount
    exact ⟨tree, rfl, .value tree⟩
  | succ n ih =>
    obtain ⟨s, rfl, hs⟩ := h.exists_select? (by omega)
    obtain ⟨new, hcollapse, hnew, hcountnew, hsplits⟩ := h.collapse hs
    obtain ⟨tree, htree, hsplit⟩ := ih hnew (by omega)
    refine ⟨tree, ?_, hsplits tree hsplit⟩
    rw [Formula.reduceSteps, hs]
    exact bind_eq_ok_iff.2 ⟨new, hcollapse, htree⟩

end Alternating

/-- **The reduction of a list in which operators and values alternate.**  It gives the tree that
comes from splitting the list at the operator that binds least tightly, the rightmost one of
several, and there is only one such tree. -/
theorem reduce_of_alternating (start : Nat) {terms : List Term} (h : Alternating terms) :
    ∃ tree, reduce start terms = .ok tree ∧ ∀ tree', SplitsInto terms tree' ↔ tree' = tree := by
  obtain ⟨tree, hsteps, hsplits⟩ := h.reduceSteps (length_sitesAfter [] terms).symm
  refine ⟨tree, ?_, fun tree' => ⟨fun hsplits' => hsplits'.unique hsplits, ?_⟩⟩
  · rw [reduce]
    exact bind_eq_ok_iff.2 ⟨_, hsteps, rfl⟩
  · rintro rfl
    exact hsplits

/-- `-x-y*x` is the difference of `-x` and a product. -/
theorem reduce_of_alternating_difference :
    reduce 0 [.operator (.sign "-" "Subtraction" .sub 10 25) 0, .value (.operand (.var 0)),
      .operator (.sign "-" "Subtraction" .sub 10 25) 2, .value (.operand (.var 1)),
      .operator (.between "*" "Multiplication" .mul 20) 4, .value (.operand (.var 0))] =
    .ok (.apply (.sign "-" "Subtraction" .sub 10 25) 2
      (.apply (.sign "-" "Subtraction" .sub 10 25) 0 (.absent 0) (.operand (.var 0)))
      (.apply (.between "*" "Multiplication" .mul 20) 4 (.operand (.var 1))
        (.operand (.var 0)))) := by
  have hdefault : DefaultsTo (Operator.sign "-" "Subtraction" .sub 10 25).left? 0 :=
    ⟨"0".toList, by decide, by decide +kernel⟩
  have halternating : Alternating
      [.operator (.sign "-" "Subtraction" .sub 10 25) 0, .value (.operand (.var 0)),
        .operator (.sign "-" "Subtraction" .sub 10 25) 2, .value (.operand (.var 1)),
        .operator (.between "*" "Multiplication" .mul 20) 4, .value (.operand (.var 0))] :=
    { neighbours := by simp [Term.isValue]
      last := rfl
      first := by
        intro op start hhead
        cases hhead
        exact ⟨0, hdefault⟩ }
  obtain ⟨tree, htree, hsplits⟩ := reduce_of_alternating 0 halternating
  rw [htree, ← (hsplits _).1]
  refine @SplitsInto.between [.operator _ 0, .value _] _ _ _ _ _ (by decide) (by decide)
    (.sign (by decide) hdefault (.value _)) ?_
  exact @SplitsInto.between [.value _] _ _ _ _ _ (by decide) (by decide) (.value _) (.value _)

end Formula

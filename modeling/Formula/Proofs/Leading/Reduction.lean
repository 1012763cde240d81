import Formula.Proofs.Reduction

/-!
# The first value of a list

The reduction does not look into values, so a list with another first value is reduced to the same
tree with another leftmost operand.

A sign in front of the first value need not wait for its turn.  It is ready from the beginning, and
the first value is taken by nothing else before, unless the operator after it binds more tightly than
the sign.  All other operators take their operands alike, whether the sign is still there or not.
-/

namespace Formula

/-- An operator with further terms in front of its list, the last one first. -/
def Site.behind (earlier : List Term) (s : Site) : Site := { s with before := s.before ++ earlier }

theorem sitesAfter_behind (before earlier terms : List Term) :
    sitesAfter (before ++ earlier) terms =
      (sitesAfter before terms).map (Site.behind earlier) := by
  induction terms generalizing before with
  | nil => rfl
  | cons t terms ih =>
    cases t with
    | value tree => exact ih (.value tree :: before)
    | operator op start =>
      exact congrArg (Site.behind earlier ⟨before, op, start, terms⟩ :: ·)
        (ih (.operator op start :: before))

theorem sites_value (tree : OperatorTree) (terms : List Term) :
    sites (.value tree :: terms) = (sites terms).map (Site.behind [.value tree]) :=
  sitesAfter_behind [] [.value tree] terms

theorem sites_sign (op : Operator) (start : Nat) (tree : OperatorTree) (terms : List Term) :
    sites (.operator op start :: .value tree :: terms) =
      ⟨[], op, start, .value tree :: terms⟩ ::
        (sites terms).map (Site.behind [.value tree, .operator op start]) := by
  rw [sites, sites, ← sitesAfter_behind]
  rfl

namespace Site

variable {s : Site} {earlier : List Term}

/-- How tightly an operator binds behind a value does not depend on the value. -/
theorem precedence_behind (s : Site) (tree tree' : OperatorTree) (earlier earlier' : List Term) :
    (s.behind (.value tree :: earlier)).precedence =
      (s.behind (.value tree' :: earlier')).precedence := by
  obtain ⟨before, op, start, after⟩ := s
  cases before with
  | nil => rfl
  | cons t before => cases t <;> rfl

theorem takeLeft_behind (h : s.before ≠ []) : (s.behind earlier).takeLeft =
    (fun taken => (taken.1, taken.2 ++ earlier)) <$> s.takeLeft := by
  obtain ⟨before, op, start, after⟩ := s
  cases before with
  | nil => exact absurd rfl h
  | cons t before =>
    cases t with
    | value tree => rfl
    | operator op' start' =>
      change (·, Term.operator op' start' :: before ++ earlier) <$> defaultOperand _ op.left? =
        _ <$> (·, Term.operator op' start' :: before) <$> defaultOperand _ op.left?
      rw [← comp_map]
      rfl

/-- **An operator behind the first of its list does not touch what is before the list.** -/
theorem collapse_behind (h : s.before ≠ []) :
    (s.behind earlier).collapse = (earlier.reverse ++ ·) <$> s.collapse := by
  have hright : (s.behind earlier).takeRight = s.takeRight := rfl
  rw [collapse, collapse, takeLeft_behind h, hright]
  cases s.takeRight with
  | error e => rfl
  | ok right =>
    cases s.takeLeft with
    | error e => rfl
    | ok left =>
      simp [bind, Except.bind, Functor.map, Except.map, pure, Except.pure, behind]

end Site

/-- Behind two values, the operators that are next stand in the same place. -/
theorem select?_behind (l : List Site) (tree tree' : OperatorTree) (earlier earlier' : List Term) :
    (select? (l.map (Site.behind (.value tree :: earlier))) = none ∧
      select? (l.map (Site.behind (.value tree' :: earlier'))) = none) ∨
    ∃ s ∈ l, select? (l.map (Site.behind (.value tree :: earlier))) =
        some (s.behind (.value tree :: earlier)) ∧
      select? (l.map (Site.behind (.value tree' :: earlier'))) =
        some (s.behind (.value tree' :: earlier')) := by
  have hsites : List.Forall₂
      (fun s s' => ∃ u ∈ l, s = u.behind (.value tree :: earlier) ∧
        s' = u.behind (.value tree' :: earlier'))
      (l.map (Site.behind (.value tree :: earlier)))
      (l.map (Site.behind (.value tree' :: earlier'))) := by
    rw [List.forall₂_map_left_iff, List.forall₂_map_right_iff, List.forall₂_same]
    exact fun u hu => ⟨u, hu, rfl, rfl⟩
  have hselected := select?_forall₂ hsites
    (by rintro _ _ ⟨u, -, rfl, rfl⟩; rfl)
    (by rintro _ _ ⟨u, -, rfl, rfl⟩; exact u.precedence_behind tree' tree earlier' earlier)
  rcases hselected with hnone | ⟨_, _, hs, hs', u, hu, rfl, rfl⟩
  · exact .inl hnone
  · exact .inr ⟨u, hu, hs, hs'⟩

/-! ## Another first value -/

/-- A tree, and what it is with another tree in the place of its leftmost operand. -/
inductive OperatorTree.Grafted (old new : OperatorTree) : OperatorTree → OperatorTree → Prop
  /-- The operand itself. -/
  | here : Grafted old new old new
  /-- The operand is on the left. -/
  | left {op : Operator} {start : Nat} {left left' right : OperatorTree}
    (h : Grafted old new left left') :
    Grafted old new (.apply op start left right) (.apply op start left' right)

section Grafting

variable {old new tree tree' result : OperatorTree} {terms last : List Term}

/-- A step with another first value. -/
theorem Site.collapse_grafted {s : Site} (h : old.Grafted new tree tree')
    (hlast : (s.behind [.value tree]).collapse = .ok last) :
    ∃ first first' rest, last = .value first :: rest ∧
      (s.behind [.value tree']).collapse = .ok (.value first' :: rest) ∧
      old.Grafted new first first' := by
  by_cases hs : s.before = []
  · -- the operator takes the first value as its left operand
    obtain ⟨before, op, start, after⟩ := s
    obtain rfl : before = [] := hs
    obtain ⟨⟨right, rest⟩, hright, hlast⟩ := bind_eq_ok_iff.1 hlast
    obtain rfl := Except.ok.inj hlast
    exact ⟨_, _, rest, rfl, bind_eq_ok_iff.2 ⟨(right, rest), hright, rfl⟩, h.left⟩
  · rw [collapse_behind hs] at hlast ⊢
    obtain ⟨rest, hrest, rfl⟩ := map_eq_ok_iff.1 hlast
    exact ⟨tree, tree', rest, rfl, map_eq_ok_iff.2 ⟨rest, hrest, rfl⟩, h⟩

theorem reduceSteps_grafted {n : Nat} (h : old.Grafted new tree tree')
    (hlast : reduceSteps n (.value tree :: terms) = .ok last) :
    ∃ first first' rest, last = .value first :: rest ∧
      reduceSteps n (.value tree' :: terms) = .ok (.value first' :: rest) ∧
      old.Grafted new first first' := by
  induction n generalizing tree tree' terms with
  | zero =>
    obtain rfl := Except.ok.inj hlast
    exact ⟨tree, tree', terms, rfl, rfl, h⟩
  | succ n ih =>
    rw [reduceSteps, sites_value] at hlast ⊢
    rcases select?_behind (sites terms) tree tree' [] [] with ⟨hnone, hnone'⟩ | ⟨s, -, hs, hs'⟩
    · rw [hnone] at hlast
      rw [hnone']
      obtain rfl := Except.ok.inj hlast
      exact ⟨tree, tree', terms, rfl, rfl, h⟩
    · rw [hs] at hlast
      rw [hs']
      obtain ⟨mid, hmid, hlast⟩ := bind_eq_ok_iff.1 hlast
      obtain ⟨next, next', terms', rfl, hmid', hnext⟩ := Site.collapse_grafted h hmid
      obtain ⟨first, first', rest, rfl, hlast', hfirst⟩ := ih hnext hlast
      exact ⟨first, first', rest, rfl, bind_eq_ok_iff.2 ⟨_, hmid', hlast'⟩, hfirst⟩

/-- **A list with another first value is reduced to the same tree with another leftmost operand.** -/
theorem reduce_grafted (new : OperatorTree) {start : Nat}
    (hbalanced : Balanced false false (.value old :: terms))
    (h : reduce start (.value old :: terms) = .ok result) :
    ∃ result', reduce start (.value new :: terms) = .ok result' ∧
      old.Grafted new result result' := by
  obtain ⟨last, hlast, hresult⟩ := bind_eq_ok_iff.1 h
  have hgrafted : old.Grafted new old new := .here
  obtain ⟨first, first', rest, rfl, hlast', hfirst⟩ := reduceSteps_grafted hgrafted hlast
  -- a balanced list ends as a single value, which is the first one
  have hend : Balanced false false (.value first :: rest) :=
    (reduces_of_reduceSteps hlast).balanced hbalanced
  obtain ⟨hsole, rfl⟩ := List.cons.inj (eq_singleton_of_soleValue hend hresult)
  obtain rfl := Term.value.inj hsole
  refine ⟨first', bind_eq_ok_iff.2 ⟨[.value first'], ?_, rfl⟩, hfirst⟩
  rwa [sites_value, List.length_map] at hlast' ⊢

end Grafting

/-! ## Signs -/

/-- The operator that is next is not the first one if it binds more tightly. -/
theorem select?_of_cons {u s : Site} {l : List Site} (h : select? (u :: l) = some s)
    (hlt : u.precedence < s.precedence) : select? l = some s := by
  have hne : u ≠ s := by
    rintro rfl
    exact Nat.lt_irrefl _ hlt
  rw [select?] at h
  split at h
  · split at h
    · exact absurd (Option.some.inj h) hne
    · cases h
  · rename_i best hbest
    split at h
    · exact absurd (Option.some.inj h) hne
    · rwa [hbest]

/-- An operator that has taken its operands is gone, and what was in front of the first operator is
still there. -/
theorem Site.collapse_shrinks {s : Site} {new : List Term} (hready : s.isReady = true)
    (h : s.collapse = .ok new) : operatorCount new < operatorCount s.terms ∧
      ∀ op start rest, new = .operator op start :: rest →
        ∃ rest', s.terms = .operator op start :: rest' := by
  obtain ⟨left, right, before, after, hleft, hright, rfl⟩ := collapse_eq_ok hready h
  have hbefore : operatorCount before ≤ operatorCount s.before :=
    hleft.suffix.sublist.countP_le
  have hafter : operatorCount after ≤ operatorCount s.after := hright.suffix.sublist.countP_le
  constructor
  · simp only [terms, operatorCount_append, operatorCount_reverse, operatorCount_value,
      operatorCount_operator]
    omega
  · intro op start rest heq
    obtain ⟨more, hmore⟩ : before.reverse <+: s.before.reverse :=
      List.reverse_prefix.2 hleft.suffix
    cases hfirst : before.reverse with
    | nil =>
      rw [hfirst] at heq
      cases heq
    | cons t rest =>
      rw [hfirst] at heq hmore
      obtain ⟨rfl, -⟩ := List.cons.inj heq
      exact ⟨_, by rw [terms, ← hmore]; rfl⟩

section Sign

variable {op : Operator} {pos : Nat} {value : Float} {tree : OperatorTree} {terms : List Term}

/-- The list in which a sign has been applied to the first value. -/
theorem collapse_sign (hdefault : DefaultsTo op.left? value) :
    (⟨[], op, pos, .value tree :: terms⟩ : Site).collapse =
      .ok (.value (.apply op pos (.absent value) tree) :: terms) := by
  obtain ⟨literal, hliteral, hvalue⟩ := hdefault
  have hleft : (⟨[], op, pos, .value tree :: terms⟩ : Site).takeLeft =
      (·, []) <$> (OperatorTree.absent <$> readLiteral literal pos) := by
    rw [Site.takeLeft, Site.defaultOperand, hliteral]
  rw [readLiteral, hvalue] at hleft
  exact bind_eq_ok_iff.2 ⟨(tree, terms), rfl, bind_eq_ok_iff.2 ⟨_, hleft, rfl⟩⟩

/-- Either the sign is next, or an operator is that comes after the first one behind the value, and
which would be next if the sign were not there. -/
theorem select?_sign (pos : Nat) (tree tree' : OperatorTree) (hfirst : ∀ q start rest,
      terms = .operator q start :: rest → q.precedence < op.signPrecedence) :
    select? (sites (.operator op pos :: .value tree :: terms)) =
        some ⟨[], op, pos, .value tree :: terms⟩ ∨
      ∃ s ∈ sites terms, s.before ≠ [] ∧ s.isReady = true ∧
        select? (sites (.operator op pos :: .value tree :: terms)) =
          some (s.behind [.value tree, .operator op pos]) ∧
        select? (sites (.value tree' :: terms)) = some (s.behind [.value tree']) := by
  set sign : Site := ⟨[], op, pos, .value tree :: terms⟩ with hsign
  have hready : sign.isReady = true := rfl
  rw [sites_sign, sites_value, ← hsign]
  cases hnext : select? (sign :: (sites terms).map
      (Site.behind [.value tree, .operator op pos])) with
  | none =>
    rw [select?_eq_none hnext sign List.mem_cons_self] at hready
    cases hready
  | some next =>
    rcases eq_or_lt_of_select?_cons hnext hready with rfl | hlt
    · exact .inl rfl
    · have hlater := select?_of_cons hnext hlt
      rcases select?_behind (sites terms) tree tree' [.operator op pos] [] with
        ⟨hnone, -⟩ | ⟨s, hs, hselect, hselect'⟩
      · rw [hlater] at hnone
        cases hnone
      · obtain rfl := Option.some.inj (hlater.symm.trans hselect)
        refine .inr ⟨s, hs, ?_, (isReady_of_select? hselect').2, rfl, hselect'⟩
        intro hnil
        have hterms : terms = .operator s.op s.start :: s.after := by
          rw [← terms_of_mem_sites hs, Site.terms, hnil]
          rfl
        have hle := hfirst _ _ _ hterms
        have hprecedence : (s.behind [.value tree, .operator op pos]).precedence =
            s.op.precedence := by
          rw [Site.precedence, Site.behind, hnil]
          rfl
        have hsignPrecedence : sign.precedence = op.signPrecedence := rfl
        omega

/-- The induction is on the operators after the first value.  As long as one of them is next, the
sign and the value stay in front of the list. -/
theorem reduceSteps_sign {n : Nat} (hdefault : DefaultsTo op.left? value)
    (hfirst : ∀ q start rest, terms = .operator q start :: rest →
      q.precedence < op.signPrecedence) (hcount : operatorCount terms ≤ n) :
    reduceSteps (n + 1) (.operator op pos :: .value tree :: terms) =
      reduceSteps n (.value (.apply op pos (.absent value) tree) :: terms) := by
  set applied : OperatorTree := .apply op pos (.absent value) tree with happlied
  induction n generalizing terms with
  | zero =>
    rcases select?_sign pos tree applied hfirst with hsign | ⟨s, hs, -⟩
    · rw [reduceSteps_of_select? hsign, collapse_sign hdefault]
      rfl
    · have hlength := List.length_pos_of_mem hs
      rw [sites, length_sitesAfter] at hlength
      omega
  | succ n ih =>
    rcases select?_sign pos tree applied hfirst with hsign | ⟨s, hs, hne, hready, hnext, hnext'⟩
    · rw [reduceSteps_of_select? hsign, collapse_sign hdefault]
      rfl
    · rw [reduceSteps_of_select? hnext, reduceSteps_of_select? hnext', Site.collapse_behind hne,
        Site.collapse_behind hne]
      cases hcollapse : s.collapse with
      | error e => rfl
      | ok rest =>
        obtain ⟨hless, hstarts⟩ := Site.collapse_shrinks hready hcollapse
        rw [terms_of_mem_sites hs] at hless hstarts
        change reduceSteps (n + 1) (.operator op pos :: .value tree :: rest) =
          reduceSteps n (.value applied :: rest)
        refine ih ?_ (by omega)
        intro q start more hrest
        obtain ⟨more', hterms⟩ := hstarts q start more hrest
        exact hfirst q start more' hterms

/-- **A sign is applied first** to the value after it, unless the operator after the value binds more
tightly. -/
theorem reduce_sign (start : Nat) (hdefault : DefaultsTo op.left? value)
    (hfirst : ∀ q start rest, terms = .operator q start :: rest →
      q.precedence < op.signPrecedence) :
    reduce start (.operator op pos :: .value tree :: terms) =
      reduce start (.value (.apply op pos (.absent value) tree) :: terms) := by
  have hcount : operatorCount terms = (sites terms).length := (length_sitesAfter [] terms).symm
  rw [reduce, reduce, sites_sign, sites_value, List.length_cons, List.length_map, List.length_map,
    reduceSteps_sign hdefault hfirst (Nat.le_of_eq hcount)]

end Sign

end Formula

import Formula.Proofs.Grammar.Building

/-!
# What stands first in a list

The parts that a formula begins with do not matter to what is built after them, as long as nothing
becomes part of them.  Two builders that differ in these parts only stay so while they take in the
same tokens, whatever parentheses are opened and closed.
-/

namespace Formula

/-- What comes next in a list that begins with these parts, the last one first, becomes a part of
none of them: no function name waits for a parenthesis, and no operator stands alone. -/
structure Firm (items : List Part) : Prop where
  /-- Something is there. -/
  ne_nil : items ≠ []
  /-- No function name waits for its parenthesis. -/
  ready : Ready items
  /-- No operator stands alone. -/
  ne_operator : ∀ op e, items ≠ [.operator op e]

theorem Firm.cons {items : List Part} (h : Firm items) {p : Part} (hready : Ready (p :: items)) :
    Firm (p :: items) := by
  refine ⟨List.cons_ne_nil _ _, hready, ?_⟩
  intro op e heq
  exact h.ne_nil (List.cons.inj heq).2

theorem firm_number (e : Excerpt) (items : List Part) : Firm (.number e :: items) :=
  ⟨List.cons_ne_nil _ _, ready_number e items, by simp⟩

/-- A part that is added to a list that goes on after firm parts joins none of them. -/
theorem Firm.push {base : List Part} (h : Firm base) (p : Part) (new : List Part) :
    Builder.push p (new ++ base) = p :: (new ++ base) := by
  rcases Builder.push_eq_or p (new ++ base) with hpush | ⟨e, op, sign, -, hlone, -⟩
  · exact hpush
  · rcases List.append_eq_singleton_iff.1 hlone with ⟨-, hbase⟩ | ⟨-, hbase⟩
    · exact absurd hbase (h.ne_operator op sign)
    · exact absurd hbase h.ne_nil

namespace Builder

/-- The innermost list and the open parentheses of two builders, if the outermost list begins with
`base` in one of them and with `base'` in the other. -/
inductive Reseated (base base' : List Part) :
    List Part → List Frame → List Part → List Frame → Prop
  /-- No parenthesis is open. -/
  | outermost (new : List Part) : Reseated base base' (new ++ base) [] (new ++ base') []
  /-- A parenthesis is open. -/
  | inner (bracket : Bracket) (position : Nat) (items : List Part)
    {before before' : List Part} {outer outer' : List Frame}
    (h : Reseated base base' before outer before' outer') :
    Reseated base base' items (⟨bracket, position, before⟩ :: outer) items
      (⟨bracket, position, before'⟩ :: outer')

variable {text : Text} {base base' items items' : List Part} {frames frames' : List Frame}

theorem Reseated.cons (h : Reseated base base' items frames items' frames') (p : Part) :
    Reseated base base' (p :: items) frames (p :: items') frames' := by
  cases h with
  | outermost new => exact .outermost (p :: new)
  | inner bracket position items h => exact .inner bracket position (p :: items) h

theorem Reseated.push (hbase : Firm base) (hbase' : Firm base')
    (h : Reseated base base' items frames items' frames') (p : Part) :
    Reseated base base' (push p items) frames (push p items') frames' := by
  cases h with
  | outermost new =>
    rw [hbase.push, hbase'.push]
    exact .outermost (p :: new)
  | inner bracket position items h => exact .inner bracket position (Builder.push p items) h

theorem Reseated.ready (hbase' : Firm base')
    (h : Reseated base base' items frames items' frames') (hready : Ready items) :
    Ready items' := by
  cases h with
  | outermost new =>
    cases new with
    | nil => exact hbase'.ready
    | cons p new =>
      intro f name before heq
      obtain ⟨rfl, -⟩ := List.cons.inj heq
      exact hready f name _ rfl
  | inner => exact hready

/-- A function name that waits for its parenthesis is not among the parts that come first. -/
theorem Reseated.tail (hbase : Firm base) {f : Operation} {name : Excerpt}
    (h : Reseated base base' (.call f name [] :: items) frames items' frames') :
    ∃ items'', items' = .call f name [] :: items'' ∧
      Reseated base base' items frames items'' frames' := by
  generalize hitems : Part.call f name [] :: items = all at h
  cases h with
  | outermost new =>
    cases new with
    | nil => exact absurd hitems.symm (hbase.ready f name items)
    | cons p new =>
      obtain ⟨rfl, rfl⟩ := List.cons.inj hitems
      exact ⟨new ++ base', rfl, .outermost new⟩
  | inner bracket position _ h =>
    subst hitems
    exact ⟨items, rfl, .inner bracket position items h⟩

/-- **What comes first in the outermost list stays first**, whatever token comes next. -/
theorem reseated_step (text : Text) {b : Builder} (hbase : Firm base) (hbase' : Firm base')
    (h : Reseated base base' b.items b.frames items' frames') (tok : Token) :
    ∃ items'' frames'', { b with items := items', frames := frames' }.step text tok =
        { b.step text tok with items := items'', frames := frames'' } ∧
      Reseated base base' (b.step text tok).items (b.step text tok).frames items'' frames'' := by
  obtain ⟨position, items, frames, errors, hints⟩ := b
  cases tok with
  | blank | unknown | repeatedPoint | uncalled => exact ⟨items', frames', rfl, h⟩
  | number n => exact ⟨_, frames', rfl, h.push hbase hbase' _⟩
  | symbol s w => exact ⟨_, frames', rfl, h.push hbase hbase' _⟩
  | opening =>
    by_cases hready : Ready items
    · rw [step_opening (h.ready hbase' hready), step_opening hready]
      exact ⟨_, _, rfl, .inner .group position [] h⟩
    · simp only [Ready, not_forall, not_not] at hready
      obtain ⟨f, name, before, rfl⟩ := hready
      obtain ⟨before', rfl, hbefore⟩ := h.tail hbase
      exact ⟨_, _, rfl, .inner (.call f name [] (position + 1)) position [] hbefore⟩
  | closing =>
    cases h with
    | outermost new => exact ⟨_, _, rfl, .outermost new⟩
    | inner bracket opened items hframe =>
      cases bracket with
      | group => exact ⟨_, _, rfl, hframe.cons _⟩
      | call f name slots slotStart => exact ⟨_, _, rfl, hframe.cons _⟩
  | comma =>
    cases h with
    | outermost new => exact ⟨_, _, rfl, .outermost new⟩
    | inner bracket opened items hframe =>
      cases bracket with
      | group => exact ⟨_, _, rfl, .inner .group opened items hframe⟩
      | call f name slots slotStart => exact ⟨_, _, rfl, .inner _ opened [] hframe⟩

/-- **What comes first in the outermost list does not matter** to what is built after it. -/
theorem reseated_run (text : Text) {b : Builder} (hbase : Firm base) (hbase' : Firm base')
    (h : Reseated base base' b.items b.frames items' frames') (ts : List Token) :
    ∃ items'' frames'', { b with items := items', frames := frames' }.run text ts =
        { b.run text ts with items := items'', frames := frames'' } ∧
      Reseated base base' (b.run text ts).items (b.run text ts).frames items'' frames'' := by
  induction ts generalizing b items' frames' with
  | nil => exact ⟨items', frames', rfl, h⟩
  | cons tok ts ih =>
    obtain ⟨next, outer, hstep, hnext⟩ := reseated_step text hbase hbase' h tok
    obtain ⟨last, rest, hrun, hlast⟩ := ih hnext
    exact ⟨last, rest, by rw [run_cons, hstep, hrun, run_cons], hlast⟩

/-! ## The first part -/

/-- Tokens that begin with some that add one part.  If the part is an operator, these are its own
token and blanks before it. -/
def Begins (text : Text) (b : Builder) (ts : List Token) : Prop :=
  ∃ ss us p n hints, ts = ss ++ us ∧
    b.run text ss = { b with position := n, items := p :: b.items, hints := hints } ∧
    Ready (p :: b.items) ∧ ∀ op e, p = .operator op e →
      ∃ gap w, ss = gap ++ [Token.symbol (.operator op) w] ∧ isSilent gap = true

section Beginning

variable {b : Builder} {ss us : List Token}

/-- Tokens that add a value. -/
theorem Begins.of_value {n : Nat} {p : Part} {hints : List Hint}
    (hrun : b.run text ss = { b with position := n, items := p :: b.items, hints := hints })
    (hready : Ready (p :: b.items)) (hvalue : p.isOperator = false) :
    b.Begins text (ss ++ us) := by
  refine ⟨ss, us, p, n, hints, rfl, hrun, hready, ?_⟩
  rintro op e rfl
  cases hvalue

theorem begins_symbol {s : Symbol} {w : Text} (hs : s.isCallable = false) :
    b.Begins text (.symbol s w :: us) := by
  refine ⟨[.symbol s w], us, .ofSymbol s ⟨b.position, w⟩, _, b.hints, rfl, step_symbol b s w,
    ready_ofSymbol hs _ _, ?_⟩
  intro op e hop
  cases s with
  | operator op' =>
    obtain ⟨rfl, -⟩ := Part.operator.inj hop
    exact ⟨[], w, rfl, rfl⟩
  | function | constant | free => cases hop

theorem Begins.silent {tok : Token} (htok : tok.isSilent = true)
    (h : ∀ b' : Builder, b'.items = b.items → b'.Begins text us) :
    b.Begins text (tok :: us) := by
  have hsilent : isSilent [tok] = true := by simp [isSilent, htok]
  obtain ⟨m, hints, hfirst⟩ := run_silent text b hsilent
  obtain ⟨ss, vs, p, n, hints', rfl, hrun, hready, hoperator⟩ :=
    h (b.run text [tok]) (by rw [hfirst])
  rw [hfirst] at hrun hready
  refine ⟨tok :: ss, vs, p, n, hints', rfl, ?_, hready, ?_⟩
  · rw [run_cons, ← run_singleton, hfirst, hrun]
  · intro op e hop
    obtain ⟨gap, w, rfl, hgap⟩ := hoperator op e hop
    exact ⟨tok :: gap, w, rfl, by simpa [isSilent, htok] using hgap⟩

/-- **The tokens of a scope begin with some that add one part**, unless they are blank. -/
theorem begins_of_scope {last : Last} {ts : List Token} (h : Scope .declared last ts)
    (hb : Firm b.items) : isSilent ts = true ∨ b.Begins text ts := by
  have hnil : ∀ {us : List Token}, Scope .declared .nothing us →
      ∀ b : Builder, b.items = [] → b.Finishes text us := by
    intro us hus b hitems
    apply run_of_scope hus b
    rw [hitems]
    exact goesOn_nil
  induction h generalizing b with
  | nil => exact .inl rfl
  | @silent last tok us htok rest ih =>
    by_cases hsilent : isSilent us = true
    · exact .inl (by simpa [isSilent, htok] using hsilent)
    · exact .inr (.silent htok fun b' hb' => (ih (hb' ▸ hb)).resolve_left hsilent)
  | @number last n us rest =>
    have hrun : b.run text [.number n] = { b with
        position := b.position + n.length
        items := .number ⟨b.position, n⟩ :: b.items } := by
      rw [run_singleton, step, take, ← List.nil_append b.items, hb.push]
      rfl
    exact .inr (Begins.of_value hrun (ready_number _ _) rfl)
  | constant | free | operator => exact .inr (begins_symbol rfl)
  | group hinner =>
    obtain ⟨n, items, hints, hrun, -, -⟩ :=
      hnil hinner (b.run text [.opening]) (by rw [run_singleton, step_opening hb.ready])
    exact .inr (Begins.of_value (run_group hb.ready hrun) (ready_group _ _ _) rfl)
  | call hgap hslots =>
    obtain ⟨n, slots, hints, hrun, hne, -, -⟩ :=
      exists_run_call hgap fun slot hslot => hnil (hslots slot hslot)
    exact .inr (Begins.of_value hrun (ready_call _ _ hne _) rfl)

/-- An operator that a scope adds first to a list comes first among the tokens, after blanks at
most. -/
theorem exists_token_of_first {text : Text} {last : Last} {ts : List Token}
    (h : Scope .declared last ts) (hb : Firm b.items) (hframes : b.frames = [])
    {new : List Part} (hrun : (b.run text ts).items = new ++ b.items)
    (hend : (b.run text ts).frames = []) {op : Operator} {e : Excerpt}
    (hop : new.reverse.head? = some (.operator op e)) : ∃ gap w us,
      ts = gap ++ [Token.symbol (.operator op) w] ++ us ∧ isSilent gap = true := by
  have hbegins : isSilent ts = true ∨ b.Begins text ts := begins_of_scope h hb
  rcases hbegins with hsilent | ⟨ss, us, p, n, hints, rfl, hfirst, hready, hoperator⟩
  · obtain ⟨n, hints, hblanks⟩ := run_silent text b hsilent
    rw [hblanks] at hrun
    rw [List.self_eq_append_left.1 hrun] at hop
    cases hop
  · -- the first part stays where it is, like what is before it
    have hp : Firm (p :: b.items) := hb.cons hready
    have hstart : Reseated (p :: b.items) (p :: b.items) (b.run text ss).items
        (b.run text ss).frames (p :: b.items) [] := by
      rw [hfirst, hframes]
      exact .outermost []
    obtain ⟨items', frames', -, hlast⟩ := reseated_run text hp hp hstart us
    rw [← run_append, hrun, hend] at hlast
    generalize hall : new ++ b.items = all at hlast
    cases hlast with
    | outermost new' =>
      have hnew : new = new' ++ [p] := by
        apply List.append_cancel_right
        rw [hall, List.append_assoc]
        rfl
      obtain rfl : p = .operator op e := by simpa [hnew] using hop
      obtain ⟨gap, w, rfl, hgap⟩ := hoperator op e rfl
      exact ⟨gap, w, us, rfl, hgap⟩

end Beginning

/-! ## What follows a value -/

/-- A builder at a position of the outermost list. -/
def resumed (position : Nat) (items : List Part) : Builder := ⟨position, items, [], [], []⟩

/-- **What follows a value does not depend on what it follows.**  If an operator comes first, its
token does, after blanks at most. -/
theorem exists_run_resumed (text : Text) (position : Nat) {ts : List Token}
    (h : Scope .declared .value ts) : ∃ (n : Nat) (parts : List Part) (hints : List Hint),
      (∀ base, Firm base → (resumed position base).run text ts =
        ⟨n, parts.reverse ++ base, [], [], hints⟩) ∧
      ∀ op e, parts.head? = some (.operator op e) → ∃ gap w us,
        ts = gap ++ [Token.symbol (.operator op) w] ++ us ∧ isSilent gap = true := by
  -- a number stands for the parts that come first
  set value : List Part := [.number ⟨0, []⟩]
  set b : Builder := resumed position value
  have hvalue : Firm value := firm_number _ []
  have hgoesOn : GoesOn .value value :=
    ⟨⟨trivial, innerErrors_number _, trivial⟩, rfl, ready_number _ _⟩
  have hfinishes : b.Finishes text ts := run_of_scope h b hgoesOn
  obtain ⟨n, items, hints, hrun, -, -⟩ := hfinishes
  have hall : ∀ base, Firm base → ∃ new, items = new ++ value ∧
      (resumed position base).run text ts = ⟨n, new ++ base, [], [], hints⟩ := by
    intro base hbase
    have hstart : Reseated value base b.items b.frames base [] := .outermost []
    obtain ⟨items', frames', hrun', hend⟩ := reseated_run text hvalue hbase hstart ts
    rw [hrun] at hrun' hend
    cases hend with
    | outermost new => exact ⟨new, rfl, hrun'⟩
  obtain ⟨new, rfl, -⟩ := hall value hvalue
  refine ⟨n, new.reverse, hints, ?_, ?_⟩
  · intro base hbase
    obtain ⟨new', hnew', hrun'⟩ := hall base hbase
    rw [hrun', List.reverse_reverse, List.append_cancel_right hnew']
  · intro op e hop
    have hitems : (b.run text ts).items = new ++ b.items := congrArg Builder.items hrun
    have hframes : (b.run text ts).frames = [] := congrArg Builder.frames hrun
    exact exists_token_of_first h hvalue rfl hitems hframes hop

end Builder

end Formula

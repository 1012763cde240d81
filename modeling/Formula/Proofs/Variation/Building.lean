import Formula.Proofs.Grammar.Building
import Formula.Proofs.Variation.Tokens

/-!
# Building a formula and its variation

The tokens of a formula and of its variation are taken in side by side, by two builders whose
sibling lists are related.  The proof is by induction on the tokens that are still to come: a scope
in parentheses or in a slot is taken in as a whole, so the parentheses that are open do not matter.

A number joins a minus sign that it touches if nothing else is in the list.  The distance of a lone
operator from the position of the builder is the same on both sides, so it joins on both or on
neither.
-/

namespace Formula

variable {V : Variation}

theorem SlotsVary.concat {slots slots' : List Slot} {e e' : Excerpt} {items items' : List Part}
    (h : SlotsVary V slots slots') (hitems : Stacked V items items') :
    SlotsVary V (slots ++ [Slot.mk e items.reverse]) (slots' ++ [Slot.mk e' items'.reverse]) := by
  have hslot : Stacked V items.reverse.reverse items'.reverse.reverse := by simpa using hitems
  induction slots generalizing slots' with
  | nil =>
    cases h
    exact .cons hslot .nil
  | cons s slots ih =>
    cases h with
    | cons hs h => exact .cons hs (ih h)

/-- A sibling list and a variation of it, the last part first, given what stands last. -/
def BuiltUp (V : Variation) : Before → List Part → List Part → Prop
  | .other, items, items' => Stacked V items items'
  | .value, items, items' => Stacked V items items' ∧ ∃ l rest, items = l :: rest ∧
      l.isOperator = false
  | .written, items, items' => ∃ l rest op e more, items = l :: rest ∧ l.isOperator = false ∧
      V.product? = some op ∧ items' = .operator op e :: more ∧ Stacked V items more

theorem BuiltUp.stacked {before : Before} {items items' : List Part}
    (h : BuiltUp V before items items') (hbefore : before ≠ .written) : Stacked V items items' := by
  cases before with
  | other => exact h
  | value => exact h.1
  | written => exact absurd rfl hbefore

/-- A value may be added to every list. -/
theorem BuiltUp.add_value {before : Before} {items items' : List Part} {p p' : Part}
    (h : BuiltUp V before items items') (hp : p.Varies V p') (hvalue : p.isOperator = false) :
    BuiltUp V .value (p :: items) (p' :: items') := by
  refine ⟨?_, p, items, rfl, hvalue⟩
  cases before with
  | other => exact .cons hp h
  | value => exact .cons hp h.1
  | written =>
    obtain ⟨l, rest, op, e, more, rfl, hleft, hop, rfl, hstacked⟩ := h
    exact .product hop hvalue hleft hp hstacked

/-- A lone operator stays alone. -/
theorem BuiltUp.of_lone {before : Before} {items' : List Part} {op : Operator} {e : Excerpt}
    (h : BuiltUp V before [.operator op e] items') :
    ∃ e', items' = [.operator op e'] ∧ e'.text = e.text := by
  have hvalue : ∀ (l : Part) (rest : List Part), [.operator op e] = l :: rest →
      l.isOperator = false → False := by
    rintro l rest heq hl
    obtain ⟨rfl, -⟩ := List.cons.inj heq
    cases hl
  cases before with
  | other =>
    cases h with
    | cons hp hrest =>
      cases hrest
      cases hp with
      | operator htext => exact ⟨_, rfl, htext⟩
  | value =>
    obtain ⟨-, l, rest, heq, hl⟩ := h
    exact (hvalue l rest heq hl).elim
  | written =>
    obtain ⟨l, rest, op', e', more, heq, hl, -⟩ := h
    exact (hvalue l rest heq hl).elim

/-- An operator that is alone in a variation was alone before. -/
theorem BuiltUp.lone {before : Before} {items : List Part} {op : Operator} {e' : Excerpt}
    (h : BuiltUp V before items [.operator op e']) : ∃ e, items = [.operator op e] := by
  have hstacked : Stacked V items [.operator op e'] → ∃ e, items = [.operator op e] := by
    intro hitems
    cases hitems with
    | cons hp hrest =>
      cases hrest
      cases hp
      exact ⟨_, rfl⟩
  cases before with
  | other => exact hstacked h
  | value => exact hstacked h.1
  | written =>
    obtain ⟨l, rest, op', e, more, rfl, -, -, heq, hmore⟩ := h
    obtain ⟨-, rfl⟩ := List.cons.inj heq
    cases hmore

namespace Builder

variable {text text' : Text} {b b' : Builder} {before : Before}

/-- Two builders at the same place of a formula and of its variation. -/
structure Linked (V : Variation) (before : Before) (b b' : Builder) : Prop where
  /-- The innermost sibling lists are related. -/
  items : BuiltUp V before b.items b'.items
  /-- No function name waits for its parenthesis. -/
  ready : Ready b.items
  /-- Nor does one in the variation. -/
  ready' : Ready b'.items
  /-- A lone operator is equally far away. -/
  lone : ∀ op e e', b.items = [.operator op e] → b'.items = [.operator op e'] →
    e.stop + b'.position = e'.stop + b.position

theorem linked_nil (hitems : b.items = []) (hitems' : b'.items = []) :
    Linked V .other b b' := by
  refine ⟨?_, hitems ▸ ready_nil, hitems' ▸ ready_nil, ?_⟩
  · rw [hitems, hitems']
    exact .nil
  · intro op e e' hlone
    rw [hitems] at hlone
    cases hlone

/-- After a value, no operator stands alone. -/
theorem linked_value (hitems : BuiltUp V .value b.items b'.items) (hready : Ready b.items)
    (hready' : Ready b'.items) : Linked V .value b b' := by
  refine ⟨hitems, hready, hready', ?_⟩
  intro op e e' hlone
  obtain ⟨-, l, rest, heq, hvalue⟩ := hitems
  rw [hlone] at heq
  obtain ⟨rfl, -⟩ := List.cons.inj heq
  cases hvalue

/-- Whether a number at a position joins a minus sign. -/
def Joins (position : Nat) (items : List Part) : Prop :=
  ∃ op sign, items = [.operator op sign] ∧ op.literal = ['-'] ∧ sign.stop = position

theorem push_number_or (e : Excerpt) (items : List Part) :
    (∃ op sign, items = [.operator op sign] ∧ op.literal = ['-'] ∧ sign.stop = e.start ∧
      push (.number e) items = [.number ⟨sign.start, sign.text ++ e.text⟩]) ∨
    ¬ Joins e.start items ∧ push (.number e) items = .number e :: items := by
  by_cases hjoins : Joins e.start items
  · obtain ⟨op, sign, rfl, hop, htouch⟩ := hjoins
    exact .inl ⟨op, sign, rfl, hop, htouch, by rw [push, if_pos (by simp [hop, htouch])]⟩
  · refine .inr ⟨hjoins, ?_⟩
    rcases push_eq_or (.number e) items with hpush | ⟨e', op, sign, he, hitems, hop, htouch, -⟩
    · exact hpush
    · obtain rfl := Part.number.inj he
      exact absurd ⟨op, sign, hitems, hop, htouch⟩ hjoins

/-- **A number is added on both sides alike**: it joins a minus sign on both or on neither. -/
theorem Linked.push_number (h : Linked V before b b') (n : Text) :
    BuiltUp V .value (push (.number ⟨b.position, n⟩) b.items)
      (push (.number ⟨b'.position, n⟩) b'.items) := by
  have hitems := h.items
  rcases push_number_or ⟨b.position, n⟩ b.items with
    ⟨op, sign, hlone, hop, htouch, hpush⟩ | ⟨hjoins, hpush⟩
  · rw [hlone] at hitems
    obtain ⟨sign', hlone', htext⟩ := hitems.of_lone
    have hdistance := h.lone op sign sign' hlone hlone'
    rcases push_number_or ⟨b'.position, n⟩ b'.items with
      ⟨op', sign'', heq, -, -, hpush'⟩ | ⟨hnot, -⟩
    · rw [hlone'] at heq
      obtain ⟨-, rfl⟩ := Part.operator.inj (List.cons.inj heq).1
      rw [hpush, hpush']
      have hnumber : (Part.number ⟨sign.start, sign.text ++ n⟩).Varies V
          (.number ⟨sign'.start, sign'.text ++ n⟩) := .number (by rw [htext])
      exact ⟨.cons hnumber .nil, _, [], rfl, rfl⟩
    · exact absurd ⟨op, sign', hlone', hop, by simp at htouch ⊢; omega⟩ hnot
  · rcases push_number_or ⟨b'.position, n⟩ b'.items with
      ⟨op, sign', hlone', hop, htouch, -⟩ | ⟨-, hpush'⟩
    · rw [hlone'] at hitems
      obtain ⟨sign, hlone⟩ := hitems.lone
      have hdistance := h.lone op sign sign' hlone hlone'
      exact absurd ⟨op, sign, hlone, hop, by simp at htouch ⊢; omega⟩ hjoins
    · rw [hpush, hpush']
      exact hitems.add_value (.number rfl) rfl

/-- Tokens that change the innermost lists only, which are related afterwards. -/
def Together (V : Variation) (text text' : Text) (b b' : Builder) (ts ts' : List Token) : Prop :=
  ∃ n items hints n' items' hints',
    b.run text ts = { b with position := n, items := items, hints := hints } ∧
    b'.run text' ts' = { b' with position := n', items := items', hints := hints' } ∧
    Stacked V items items'

/-- Taking in tokens first, which change the innermost lists only, and then the others. -/
theorem Together.of_append {ss ss' ts ts' : List Token} {n n' : Nat} {items items' : List Part}
    {hints hints' : List Hint}
    (hrun : b.run text ss = { b with position := n, items := items, hints := hints })
    (hrun' : b'.run text' ss' = { b' with position := n', items := items', hints := hints' })
    (h : Together V text text' (b.run text ss) (b'.run text' ss') ts ts') :
    Together V text text' b b' (ss ++ ts) (ss' ++ ts') := by
  obtain ⟨m, last, hints₁, m', last', hints₁', hlast, hlast', hstacked⟩ := h
  refine ⟨m, last, hints₁, m', last', hints₁', ?_, ?_, hstacked⟩
  · rw [run_append, hlast, hrun]
  · rw [run_append, hlast', hrun']

/-- The slots of a call are completed side by side, and the calls are closed. -/
theorem run_slots {first : List Token × List Token} {more : List (List Token × List Token)}
    (hslots : ∀ slot ∈ first :: more, ∀ b b' : Builder, b.items = [] → b'.items = [] →
      Together V text text' b b' slot.1 slot.2)
    {f : Operation} {name name' : Excerpt} {slots slots' : List Slot}
    {slotStart slotStart' opened opened' : Nat} {before before' : List Part}
    {outer outer' : List Frame} (hitems : b.items = []) (hitems' : b'.items = [])
    (hframes : b.frames = ⟨.call f name slots slotStart, opened, before⟩ :: outer)
    (hframes' : b'.frames = ⟨.call f name' slots' slotStart', opened', before'⟩ :: outer')
    (hvary : SlotsVary V slots.reverse slots'.reverse) :
    ∃ n closed hints n' closed' hints',
      b.run text (commaJoin first.1 (more.map Prod.fst) ++ [Token.closing]) = { b with
        position := n
        items := .call f name closed :: before
        frames := outer
        hints := hints } ∧
      b'.run text' (commaJoin first.2 (more.map Prod.snd) ++ [Token.closing]) = { b' with
        position := n'
        items := .call f name' closed' :: before'
        frames := outer'
        hints := hints' } ∧
      closed ≠ [] ∧ SlotsVary V closed closed' := by
  induction more generalizing first b b' slots slots' slotStart slotStart' with
  | nil =>
    obtain ⟨n, items, hints, n', items', hints', hrun, hrun', hstacked⟩ :=
      hslots first List.mem_cons_self b b' hitems hitems'
    refine ⟨n + 1, (.mk ⟨slotStart, text.slice slotStart n⟩ items.reverse :: slots).reverse, hints,
      n' + 1, (.mk ⟨slotStart', text'.slice slotStart' n'⟩ items'.reverse :: slots').reverse,
      hints', ?_, ?_, by simp, ?_⟩
    · simpa only [List.map_nil, commaJoin, List.flatMap_nil, List.append_nil] using
        run_slot_closing hframes hrun
    · simpa only [List.map_nil, commaJoin, List.flatMap_nil, List.append_nil] using
        run_slot_closing hframes' hrun'
    · simpa only [List.reverse_cons] using hvary.concat hstacked
  | cons next more ih =>
    obtain ⟨n, items, hints, n', items', hints', hrun, hrun', hstacked⟩ :=
      hslots first List.mem_cons_self b b' hitems hitems'
    obtain ⟨-, hmore⟩ := List.forall_mem_cons.1 hslots
    have hcomma := run_slot_comma hframes hrun
    have hcomma' := run_slot_comma hframes' hrun'
    have hsplit : ∀ (ss next : List Token) (more : List (List Token)),
        commaJoin ss (next :: more) ++ [Token.closing] =
          ss ++ [Token.comma] ++ (commaJoin next more ++ [Token.closing]) := by
      intro ss next more
      simp [commaJoin]
    have hgrown : SlotsVary V
        (.mk ⟨slotStart, text.slice slotStart n⟩ items.reverse :: slots).reverse
        (.mk ⟨slotStart', text'.slice slotStart' n'⟩ items'.reverse :: slots').reverse := by
      simpa only [List.reverse_cons] using hvary.concat hstacked
    have hempty : (b.run text (first.1 ++ [Token.comma])).items = [] := by rw [hcomma]
    have hempty' : (b'.run text' (first.2 ++ [Token.comma])).items = [] := by rw [hcomma']
    obtain ⟨m, closed, hints₁, m', closed', hints₁', hlast, hlast', hne, hclosed⟩ :=
      ih hmore hempty hempty' (by rw [hcomma]) (by rw [hcomma']) hgrown
    refine ⟨m, closed, hints₁, m', closed', hints₁', ?_, ?_, hne, hclosed⟩
    · rw [List.map_cons, hsplit, run_append, hlast, hcomma]
    · rw [List.map_cons, hsplit, run_append, hlast', hcomma']

/-! ## The rules of a scope -/

section Rules

variable {ts ts' : List Token}

theorem together_silent {tok : Token} (hb : Linked V before b b') (htok : tok.isSilent = true)
    (hrest : ∀ b b' : Builder, Linked V before b b' → Together V text text' b b' ts ts') :
    Together V text text' b b' (tok :: ts) (tok :: ts') := by
  have hrun : ∀ (t : Text) (b : Builder), ∃ hints, b.run t [tok] =
      { b with position := b.position + tok.text.length, hints := hints } := by
    intro t b
    cases tok with
    | blank | uncalled => exact ⟨_, rfl⟩
    | opening | closing | comma | number | symbol | unknown | repeatedPoint => cases htok
  obtain ⟨hints, hrun₁⟩ := hrun text b
  obtain ⟨hints', hrun₂⟩ := hrun text' b'
  change Together V text text' b b' ([tok] ++ ts) ([tok] ++ ts')
  refine Together.of_append hrun₁ hrun₂ (hrest _ _ ?_)
  rw [hrun₁, hrun₂]
  refine ⟨hb.items, hb.ready, hb.ready', ?_⟩
  intro op e e' hlone hlone'
  have hdistance := hb.lone op e e' hlone hlone'
  simp only
  omega

theorem together_number {n : Text} (hb : Linked V before b b')
    (hrest : ∀ b b' : Builder, Linked V .value b b' → Together V text text' b b' ts ts') :
    Together V text text' b b' (.number n :: ts) (.number n :: ts') := by
  change Together V text text' b b' ([Token.number n] ++ ts) ([Token.number n] ++ ts')
  refine Together.of_append rfl rfl (hrest _ _ ?_)
  exact linked_value (hb.push_number n) (ready_push_number _ _) (ready_push_number _ _)

/-- A value that is added on both sides. -/
theorem Linked.add_value {p p' : Part} {n n' : Nat} {hints hints' : List Hint}
    (hb : Linked V before b b') (hp : p.Varies V p') (hvalue : p.isOperator = false)
    (hready : Ready (p :: b.items)) (hready' : Ready (p' :: b'.items)) :
    Linked V .value { b with position := n, items := p :: b.items, hints := hints }
      { b' with position := n', items := p' :: b'.items, hints := hints' } :=
  linked_value (hb.items.add_value hp hvalue) hready hready'

theorem together_symbol {s : Symbol} {w : Text} (hb : Linked V before b b')
    (hs : s.isCallable = false) (hvalue : ∀ e, (Part.ofSymbol s e).isOperator = false)
    (hvaries : ∀ e e', (Part.ofSymbol s e).Varies V (.ofSymbol s e'))
    (hrest : ∀ b b' : Builder, Linked V .value b b' → Together V text text' b b' ts ts') :
    Together V text text' b b' (.symbol s w :: ts) (.symbol s w :: ts') := by
  have hrun : b.run text [.symbol s w] = _ := step_symbol b s w
  have hrun' : b'.run text' [.symbol s w] = _ := step_symbol b' s w
  change Together V text text' b b' ([Token.symbol s w] ++ ts) ([Token.symbol s w] ++ ts')
  refine Together.of_append hrun hrun' (hrest _ _ ?_)
  rw [hrun, hrun']
  exact hb.add_value (hvaries _ _) (hvalue _) (ready_ofSymbol hs _ _) (ready_ofSymbol hs _ _)

theorem together_operator {op : Operator} {w : Text} (hb : Linked V before b b')
    (hbefore : before ≠ .written)
    (hrest : ∀ b b' : Builder, Linked V .other b b' → Together V text text' b b' ts ts') :
    Together V text text' b b' (.symbol (.operator op) w :: ts)
      (.symbol (.operator op) w :: ts') := by
  have hrun : b.run text [.symbol (.operator op) w] = _ := step_symbol b (.operator op) w
  have hrun' : b'.run text' [.symbol (.operator op) w] = _ := step_symbol b' (.operator op) w
  change Together V text text' b b' ([Token.symbol (.operator op) w] ++ ts)
    ([Token.symbol (.operator op) w] ++ ts')
  refine Together.of_append hrun hrun' (hrest _ _ ?_)
  rw [hrun, hrun']
  refine ⟨.cons (.operator rfl) (hb.items.stacked hbefore), ready_ofSymbol rfl _ _,
    ready_ofSymbol rfl _ _, ?_⟩
  intro op' e e' hlone hlone'
  obtain ⟨-, rfl⟩ := Part.operator.inj (List.cons.inj hlone).1
  obtain ⟨-, rfl⟩ := Part.operator.inj (List.cons.inj hlone').1
  simp only [Excerpt.stop]
  omega

/-- An operator that is written between two values. -/
theorem together_product {op : Operator} (hb : Linked V .value b b') (hop : V.product? = some op)
    (hrest : ∀ b b' : Builder, Linked V .written b b' → Together V text text' b b' ts ts') :
    Together V text text' b b' ts (op.token :: ts') := by
  have hrun' : b'.run text' [op.token] = _ := step_symbol b' (.operator op) op.literal
  change Together V text text' b b' ([] ++ ts) ([op.token] ++ ts')
  refine Together.of_append rfl hrun' (hrest _ _ ?_)
  obtain ⟨hstacked, l, rest, hitems, hvalue⟩ := hb.items
  rw [hrun']
  refine ⟨⟨l, rest, op, _, _, hitems, hvalue, hop, rfl, hstacked⟩, hb.ready,
    ready_ofSymbol rfl _ _, ?_⟩
  intro op' e e' hlone
  change b.items = _ at hlone
  rw [hitems] at hlone
  obtain ⟨rfl, -⟩ := List.cons.inj hlone
  cases hvalue

theorem together_group {inner inner' : List Token} (hb : Linked V before b b')
    (hinner : ∀ b b' : Builder, b.items = [] → b'.items = [] →
      Together V text text' b b' inner inner')
    (hrest : ∀ b b' : Builder, Linked V .value b b' → Together V text text' b b' ts ts') :
    Together V text text' b b' ([Token.opening] ++ inner ++ [Token.closing] ++ ts)
      ([Token.opening] ++ inner' ++ [Token.closing] ++ ts') := by
  have hopened : b.run text [.opening] = _ := step_opening hb.ready
  have hopened' : b'.run text' [.opening] = _ := step_opening hb.ready'
  obtain ⟨n, items, hints, n', items', hints', hrun, hrun', hstacked⟩ :=
    hinner (b.run text [.opening]) (b'.run text' [.opening]) (by rw [hopened]) (by rw [hopened'])
  have hclosed := run_group hb.ready hrun
  have hclosed' := run_group hb.ready' hrun'
  refine Together.of_append hclosed hclosed' (hrest _ _ ?_)
  rw [hclosed, hclosed']
  exact hb.add_value (.group (by simpa using hstacked)) rfl (ready_group _ _ _) (ready_group _ _ _)

/-- A variable and a number in parentheses. -/
theorem together_replaced {literal w n : Text} (hb : Linked V before b b')
    (hnumber : V.number? literal = some n)
    (hrest : ∀ b b' : Builder, Linked V .value b b' → Together V text text' b b' ts ts') :
    Together V text text' b b' (.symbol (.free literal) w :: ts)
      ([Token.opening, .number n, .closing] ++ ts') := by
  have hrun : b.run text [.symbol (.free literal) w] = _ := step_symbol b (.free literal) w
  have hopened : b'.step text' .opening = _ := step_opening hb.ready'
  have hrun' : b'.run text' [.opening, .number n, .closing] = { b' with
      position := b'.position + 1 + n.length + 1
      items := .group
        ⟨b'.position, text'.slice b'.position (b'.position + 1 + n.length + 1)⟩
        [.number ⟨b'.position + 1, n⟩] :: b'.items } := by
    rw [run_cons, hopened, run_cons, run_singleton]
    exact step_closing_group rfl
  change Together V text text' b b' ([Token.symbol (.free literal) w] ++ ts)
    ([Token.opening, .number n, .closing] ++ ts')
  refine Together.of_append hrun hrun' (hrest _ _ ?_)
  rw [hrun, hrun']
  exact hb.add_value (.replaced hnumber) rfl (ready_ofSymbol rfl _ _) (ready_group _ _ _)

theorem together_call {f : Operation} {w : Text} {gap : List Token}
    {first : List Token × List Token} {more : List (List Token × List Token)}
    (hb : Linked V before b b') (hgap : isSilent gap = true)
    (hslots : ∀ slot ∈ first :: more, ∀ b b' : Builder, b.items = [] → b'.items = [] →
      Together V text text' b b' slot.1 slot.2)
    (hrest : ∀ b b' : Builder, Linked V .value b b' → Together V text text' b b' ts ts') :
    Together V text text' b b'
      ([Token.symbol (.function f) w] ++ gap ++ [Token.opening] ++
        commaJoin first.1 (more.map Prod.fst) ++ [Token.closing] ++ ts)
      ([Token.symbol (.function f) w] ++ gap ++ [Token.opening] ++
        commaJoin first.2 (more.map Prod.snd) ++ [Token.closing] ++ ts') := by
  obtain ⟨q, hints, hopened⟩ := run_opening text b f w hgap
  obtain ⟨q', hints', hopened'⟩ := run_opening text' b' f w hgap
  have hempty :
      (b.run text ([Token.symbol (.function f) w] ++ gap ++ [Token.opening])).items = [] := by
    rw [hopened]
  have hempty' :
      (b'.run text' ([Token.symbol (.function f) w] ++ gap ++ [Token.opening])).items = [] := by
    rw [hopened']
  obtain ⟨n, closed, hints₁, n', closed', hints₁', hrun, hrun', hne, hvary⟩ :=
    run_slots hslots hempty hempty' (by rw [hopened]) (by rw [hopened']) .nil
  have hclosed : b.run text ([Token.symbol (.function f) w] ++ gap ++ [Token.opening] ++
      commaJoin first.1 (more.map Prod.fst) ++ [Token.closing]) = { b with
      position := n
      items := .call f ⟨b.position, w⟩ closed :: b.items
      hints := hints₁ } := by
    rw [List.append_assoc _ _ [Token.closing], run_append, hrun, hopened]
  have hclosed' : b'.run text' ([Token.symbol (.function f) w] ++ gap ++ [Token.opening] ++
      commaJoin first.2 (more.map Prod.snd) ++ [Token.closing]) = { b' with
      position := n'
      items := .call f ⟨b'.position, w⟩ closed' :: b'.items
      hints := hints₁' } := by
    rw [List.append_assoc _ _ [Token.closing], run_append, hrun', hopened']
  refine Together.of_append hclosed hclosed' (hrest _ _ ?_)
  rw [hclosed, hclosed']
  have hne' : closed' ≠ [] := by
    rw [← List.length_pos_iff, hvary.length_eq, List.length_pos_iff]
    exact hne
  exact hb.add_value (.call hvary) rfl (ready_call _ _ hne _) (ready_call _ _ hne' _)

end Rules

/-- **The tokens of a scope and of a variation of it lead to related lists.** -/
theorem together_of_rewrites {ts ts' : List Token} (h : Rewrites V before ts ts') :
    ∀ b b' : Builder, Linked V before b b' → Together V text text' b b' ts ts' := by
  have hnil : ∀ {us us' : List Token},
      (∀ b b' : Builder, Linked V .other b b' → Together V text text' b b' us us') →
      ∀ b b' : Builder, b.items = [] → b'.items = [] → Together V text text' b b' us us' :=
    fun hus b b' hitems hitems' => hus b b' (linked_nil hitems hitems')
  induction h with
  | nil hbefore =>
    intro b b' hb
    exact ⟨_, _, _, _, _, _, rfl, rfl, hb.items.stacked hbefore⟩
  | silent hbefore htok rest ih =>
    intro b b' hb
    exact together_silent hb htok ih
  | operator hbefore rest ih =>
    intro b b' hb
    exact together_operator hb hbefore ih
  | number rest ih =>
    intro b b' hb
    exact together_number hb ih
  | constant rest ih =>
    intro b b' hb
    exact together_symbol hb rfl (fun _ => rfl) (fun _ _ => .constant) ih
  | free hstays rest ih =>
    intro b b' hb
    exact together_symbol hb rfl (fun _ => rfl) (fun _ _ => .free hstays) ih
  | replaced hnumber rest ih =>
    intro b b' hb
    exact together_replaced hb hnumber ih
  | group hinner rest ihinner ih =>
    intro b b' hb
    exact together_group hb (hnil ihinner) ih
  | call hgap hslots rest ihslots ih =>
    intro b b' hb
    exact together_call hb hgap (fun slot hslot => hnil (ihslots slot hslot)) ih
  | product hop rest ih =>
    intro b b' hb
    exact together_product hb hop ih

end Builder

/-! ## Whole formulas -/

/-- **A variation of a formula without errors is without errors**, and its parts are varied. -/
theorem varyAll_of_rewrites (hV : V.Legible) {t : Text} {ts' : List Token}
    (hclean : (parse .standard t).isClean = true)
    (h : Rewrites V .other (tokens .standard t) ts') :
    VaryAll V false (parse .standard t).items (parse .standard (ts'.flatMap Token.text)).items ∧
      (parse .standard (ts'.flatMap Token.text)).isClean = true := by
  have hscope := (isClean_parse_iff_scope minusStandsAlone_standard t).1 hclean
  have htokens := h.tokens_eq hV hscope
  set t' := ts'.flatMap Token.text
  have htogether : Builder.Together V t t' .empty .empty (tokens .standard t) ts' :=
    Builder.together_of_rewrites h _ _ (Builder.linked_nil rfl rfl)
  obtain ⟨n, items, hints, n', items', hints', hrun, hrun', hstacked⟩ := htogether
  rw [← htokens] at hrun'
  have hitems : (parse .standard t).items = items.reverse := by
    rw [items_parse_of_frames (by rw [hrun]; rfl), hrun]
  have hitems' : (parse .standard t').items = items'.reverse := by
    rw [items_parse_of_frames (by rw [hrun']; rfl), hrun']
  have hvary : VaryAll V false (parse .standard t).items (parse .standard t').items := by
    rw [hitems, hitems']
    exact hstacked.varyAll
  refine ⟨hvary, ?_⟩
  obtain ⟨-, -, hinner, hcomplete⟩ := isClean_parse_iff.1 hclean
  refine isClean_parse_iff.2 ⟨?_, ?_, hvary.innerErrors_eq_nil hinner, hvary.complete hcomplete⟩
  · rw [hrun']
    rfl
  · rw [hrun']
    rfl

end Formula

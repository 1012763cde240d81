import Formula.Proofs.Grammar.Lists

/-!
# From scopes to sibling lists

The tokens of a scope become a sibling list that lacks nothing.  The proof is by induction on the
scope: whatever list has been fed so far, the tokens that may complete the scope complete the list,
and the parentheses that were open before stay as they are.
-/

namespace Formula

namespace Builder

variable {text : Text}

/-- Taking in tokens completes the innermost list, which then lacks nothing and is empty if and only
if the tokens are silent. -/
def Finishes (text : Text) (b : Builder) (ts : List Token) : Prop :=
  ∃ n items hints, b.run text ts = { b with position := n, items := items, hints := hints } ∧
    Fed false items ∧ items.isEmpty = (b.items.isEmpty && isSilent ts)

/-- Taking in tokens first and then the others. -/
theorem Finishes.of_append {b : Builder} {ss ts : List Token} {n : Nat} {items : List Part}
    {hints : List Hint}
    (hrun : b.run text ss = { b with position := n, items := items, hints := hints })
    (hempty : items.isEmpty = (b.items.isEmpty && isSilent ss))
    (h : (b.run text ss).Finishes text ts) : b.Finishes text (ss ++ ts) := by
  obtain ⟨n', items', hints', hrun', hfed, hitems⟩ := h
  refine ⟨n', items', hints', ?_, hfed, ?_⟩
  · rw [run_append, hrun', hrun]
  · rw [hitems, hrun, hempty, isSilent_append, Bool.and_assoc]

/-- Tokens that add a part first and then the others. -/
theorem Finishes.of_part {b : Builder} {ss ts : List Token} {n : Nat} {p : Part}
    {hints : List Hint} (hss : isSilent ss = false)
    (hrun : b.run text ss = { b with position := n, items := p :: b.items, hints := hints })
    (h : ∀ b' : Builder, b'.items = p :: b.items → b'.Finishes text ts) :
    b.Finishes text (ss ++ ts) := by
  refine .of_append hrun ?_ (h _ (by rw [hrun]))
  rw [hss, Bool.and_false, List.isEmpty_cons]

/-- The tokens of slots complete all slots but the last one, whose parts are there. -/
theorem run_commaJoin {first : List Token} {more : List (List Token)}
    (hslots : ∀ slot ∈ first :: more, ∀ b : Builder, b.items = [] → b.Finishes text slot)
    {b : Builder} {f : Operation} {name : Excerpt} {slots : List Slot}
    {slotStart opened : Nat} {before : List Part} {outer : List Frame} (hitems : b.items = [])
    (hframes : b.frames = ⟨.call f name slots slotStart, opened, before⟩ :: outer)
    (herrors : ∀ s ∈ slots, s.errors [] = []) :
    ∃ n slots' slotStart' items hints, b.run text (commaJoin first more) = { b with
        position := n
        items := items
        frames := ⟨.call f name slots' slotStart', opened, before⟩ :: outer
        hints := hints } ∧
      Fed false items ∧ (∀ s ∈ slots', s.errors [] = []) ∧
      slots'.reverse.map Slot.isEmpty ++ [items.isEmpty] =
        slots.reverse.map Slot.isEmpty ++ (first :: more).map isSilent := by
  induction more generalizing first b slots slotStart with
  | nil =>
    obtain ⟨n, items, hints, hrun, hfed, hempty⟩ := hslots first List.mem_cons_self b hitems
    refine ⟨n, slots, slotStart, items, hints, ?_, hfed, herrors, ?_⟩
    · rw [commaJoin, List.flatMap_nil, List.append_nil, hrun, hframes]
    · rw [hempty, hitems]
      rfl
  | cons next more ih =>
    obtain ⟨n, items, hints, hrun, hfed, hempty⟩ := hslots first List.mem_cons_self b hitems
    have hsplit : commaJoin first (next :: more) =
        first ++ [Token.comma] ++ commaJoin next more := by
      simp [commaJoin]
    set slot := Slot.mk ⟨slotStart, text.slice slotStart n⟩ items.reverse with hslot
    have hcomma := run_slot_comma hframes hrun
    have hslotErrors : ∀ s ∈ slot :: slots, s.errors [] = [] := by
      intro s hs
      rcases List.mem_cons.1 hs with rfl | hs
      · exact errors_mk_iff.2 hfed
      · exact herrors s hs
    have hmore : ∀ slot ∈ next :: more, ∀ b : Builder, b.items = [] → b.Finishes text slot :=
      fun slot hslot => hslots slot (List.mem_cons_of_mem _ hslot)
    obtain ⟨n', slots', slotStart', items', hints', hrun', hfed', herrors', hblanks⟩ :=
      ih hmore (b := b.run text (first ++ [Token.comma])) (by rw [hcomma]) (by rw [hcomma])
        hslotErrors
    refine ⟨n', slots', slotStart', items', hints', ?_, hfed', herrors', ?_⟩
    · rw [hsplit, run_append, hrun', hcomma]
    · have hslotEmpty : slot.isEmpty = isSilent first := by
        rw [hslot, isEmpty_mk_reverse, hempty, hitems]
        rfl
      rw [hblanks, List.reverse_cons, List.map_append, List.append_assoc, List.map_cons,
        List.map_cons, hslotEmpty]
      rfl

/-- A sibling list, the last part first, that lacks nothing so far and waits for nothing, with `last`
standing last. -/
structure GoesOn (last : Last) (items : List Part) : Prop where
  /-- Nothing is missing so far. -/
  fed : Fed true items
  /-- What stands last. -/
  last_eq : Last.ofItems items = last
  /-- No function name waits for its parenthesis. -/
  ready : Ready items

theorem goesOn_nil : GoesOn .nothing [] := ⟨trivial, rfl, ready_nil⟩

theorem GoesOn.number {items before : List Part} {n : Excerpt} {last : Last}
    (h : GoesOn last items) (hpush : push (.number n) items = before) :
    GoesOn .value before := by
  obtain ⟨e, rest, hcons, hrest⟩ := exists_push_number n items
  rw [hcons] at hpush
  subst hpush
  exact ⟨⟨trivial, innerErrors_number e, hrest h.fed⟩, rfl, ready_number e rest⟩

theorem GoesOn.symbol {items : List Part} {s : Symbol} {e : Excerpt} {last : Last}
    (h : GoesOn last items) (hs : s.isCallable = false)
    (hsupplied : (Part.ofSymbol s e).Supplied last.isValue true) :
    GoesOn (Last.ofItems [.ofSymbol s e]) (.ofSymbol s e :: items) := by
  refine ⟨⟨h.last_eq ▸ hsupplied, innerErrors_ofSymbol s e, h.fed⟩, ?_, ready_ofSymbol hs e items⟩
  cases s <;> rfl

/-- A group that is closed. -/
theorem GoesOn.group {items inner : List Part} {e : Excerpt} {last : Last}
    (h : GoesOn last items) (hinner : Fed false inner) :
    GoesOn .value (.group e inner.reverse :: items) := by
  exact ⟨⟨trivial, innerErrors_group_iff.2 hinner, h.fed⟩, rfl, ready_group e _ items⟩

/-- A call that is closed. -/
theorem GoesOn.call {items : List Part} {f : Operation} {name : Excerpt} {slots : List Slot}
    {last : Last} (h : GoesOn last items) (hne : slots ≠ [])
    (hslots : ∀ s ∈ slots, s.errors [] = [])
    (hallows : Grammar.declared.Allows f (slots.map Slot.isEmpty)) :
    GoesOn .value (.call f name slots :: items) := by
  have hinner : (Part.call f name slots).innerErrors [] = [] := by
    rw [innerErrors_call, slotErrors_eq_nil_iff]
    exact hslots
  exact ⟨⟨supplied_call_iff.2 hallows, hinner, h.fed⟩, rfl, ready_call f name hne items⟩

section Rules

variable {b : Builder} {last : Last} {ts : List Token}

theorem finishes_number {n : Text} (hb : GoesOn last b.items)
    (hrest : ∀ b' : Builder, GoesOn .value b'.items → b'.Finishes text ts) :
    b.Finishes text (.number n :: ts) := by
  obtain ⟨e, before, hpush, -⟩ := exists_push_number ⟨b.position, n⟩ b.items
  have hrun : b.run text [.number n] = { b with
      position := b.position + n.length
      items := .number e :: before } := by
    rw [run_singleton, step, take, hpush]
    rfl
  have hsilent : isSilent [.number n] = false := rfl
  change b.Finishes text ([Token.number n] ++ ts)
  refine .of_append hrun ?_ (hrest _ ?_)
  · rw [hsilent, Bool.and_false, List.isEmpty_cons]
  · rw [hrun]
    exact hb.number hpush

theorem finishes_symbol {s : Symbol} {w : Text} (hb : GoesOn last b.items)
    (hs : s.isCallable = false) (hsupplied : ∀ e, (Part.ofSymbol s e).Supplied last.isValue true)
    (hrest : ∀ b' : Builder, GoesOn (Last.ofItems [.ofSymbol s ⟨b.position, w⟩]) b'.items →
      b'.Finishes text ts) : b.Finishes text (.symbol s w :: ts) := by
  have hrun : b.run text [.symbol s w] = { b with
      position := b.position + w.length
      items := .ofSymbol s ⟨b.position, w⟩ :: b.items } := step_symbol b s w
  have hsilent : isSilent [.symbol s w] = false := rfl
  change b.Finishes text ([Token.symbol s w] ++ ts)
  apply Finishes.of_part hsilent hrun
  intro b' hb'
  apply hrest b'
  rw [hb']
  exact hb.symbol hs (hsupplied _)

theorem finishes_group {inner : List Token} (hb : GoesOn last b.items)
    (hinner : ∀ b' : Builder, b'.items = [] → b'.Finishes text inner)
    (hrest : ∀ b' : Builder, GoesOn .value b'.items → b'.Finishes text ts) :
    b.Finishes text ([Token.opening] ++ inner ++ [Token.closing] ++ ts) := by
  have hopened : b.run text [.opening] = _ := step_opening hb.ready
  obtain ⟨n, items, hints, hrun, hitems, -⟩ := hinner (b.run text [.opening]) (by rw [hopened])
  have hclosed := run_group hb.ready hrun
  have hsilent : isSilent ([Token.opening] ++ inner ++ [Token.closing]) = false := by
    simp [isSilent, Token.isSilent]
  apply Finishes.of_part hsilent hclosed
  intro b' hb'
  apply hrest b'
  rw [hb']
  exact hb.group hitems

/-- A function name and its slots become a call whose slots lack nothing. -/
theorem exists_run_call {f : Operation} {w : Text} {gap first : List Token}
    {more : List (List Token)} (hgap : isSilent gap = true)
    (hslots : ∀ slot ∈ first :: more, ∀ b' : Builder, b'.items = [] → b'.Finishes text slot) :
    ∃ n slots hints, b.run text ([Token.symbol (.function f) w] ++ gap ++ [Token.opening] ++
        commaJoin first more ++ [Token.closing]) = { b with
          position := n
          items := .call f ⟨b.position, w⟩ slots :: b.items
          hints := hints } ∧
      slots ≠ [] ∧ (∀ s ∈ slots, s.errors [] = []) ∧
      slots.map Slot.isEmpty = (first :: more).map isSilent := by
  obtain ⟨q, hints, hopened⟩ := run_opening text b f w hgap
  obtain ⟨n, slots, slotStart, items, hints', hrun, hitems, herrors, hempty⟩ :=
    run_commaJoin hslots
      (b := b.run text ([Token.symbol (.function f) w] ++ gap ++ [Token.opening]))
      (by rw [hopened]) (by rw [hopened]) (by simp)
  set lastSlot := Slot.mk ⟨slotStart, text.slice slotStart n⟩ items.reverse with hlastSlot
  refine ⟨n + 1, (lastSlot :: slots).reverse, hints', ?_, by simp, ?_, ?_⟩
  · rw [run_append, run_append, hrun, hopened, run_singleton]
    exact step_closing_call rfl
  · intro s hs
    rcases List.mem_cons.1 (List.mem_reverse.1 hs) with rfl | hs
    · exact errors_mk_iff.2 hitems
    · exact herrors s hs
  · rw [List.reverse_cons, List.map_append, List.map_cons, hlastSlot, isEmpty_mk_reverse,
      List.map_nil, hempty]
    rfl

theorem finishes_call {f : Operation} {w : Text} {gap first : List Token}
    {more : List (List Token)} (hb : GoesOn last b.items) (hgap : isSilent gap = true)
    (hslots : ∀ slot ∈ first :: more, ∀ b' : Builder, b'.items = [] → b'.Finishes text slot)
    (hallows : Grammar.declared.Allows f ((first :: more).map isSilent))
    (hrest : ∀ b' : Builder, GoesOn .value b'.items → b'.Finishes text ts) :
    b.Finishes text ([Token.symbol (.function f) w] ++ gap ++ [Token.opening] ++
      commaJoin first more ++ [Token.closing] ++ ts) := by
  obtain ⟨n, slots, hints, hclosed, hne, herrors, hempty⟩ := exists_run_call hgap hslots
  have hsilent : isSilent ([Token.symbol (.function f) w] ++ gap ++ [Token.opening] ++
      commaJoin first more ++ [Token.closing]) = false := by
    simp [isSilent, Token.isSilent]
  apply Finishes.of_part hsilent hclosed
  intro b' hb'
  apply hrest b'
  rw [hb']
  exact hb.call hne herrors (hempty ▸ hallows)

end Rules

/-- **The tokens of a scope become a sibling list that lacks nothing.** -/
theorem run_of_scope {last : Last} {ts : List Token} (h : Scope .declared last ts) :
    ∀ b : Builder, GoesOn last b.items → b.Finishes text ts := by
  have hnil : ∀ {us : List Token},
      (∀ b : Builder, GoesOn .nothing b.items → b.Finishes text us) →
      ∀ b : Builder, b.items = [] → b.Finishes text us := by
    intro us hus b hitems
    apply hus b
    rw [hitems]
    exact goesOn_nil
  induction h with
  | nil hlast =>
    intro b hb
    refine ⟨b.position, b.items, b.hints, rfl, fed_false_iff.2 ⟨hb.fed, hb.last_eq ▸ hlast⟩, ?_⟩
    simp [isSilent]
  | @silent last tok ts htok rest ih =>
    intro b hb
    have hsilent : isSilent [tok] = true := by simp [isSilent, htok]
    obtain ⟨n, hints, hrun⟩ := run_silent text b hsilent
    refine .of_append hrun (by simp [hsilent]) (ih _ ?_)
    rwa [hrun]
  | number rest ih =>
    intro b hb
    exact finishes_number hb ih
  | constant rest ih =>
    intro b hb
    exact finishes_symbol hb rfl (fun _ => trivial) ih
  | free rest ih =>
    intro b hb
    exact finishes_symbol hb rfl (fun _ => trivial) ih
  | @operator last op w ts hleft rest ih =>
    intro b hb
    have hsupplied : last.isValue = true ∨ op.leftOptional = true := by
      by_cases h : op.leftOptional = true
      · exact .inr h
      · exact .inl (hleft (by simp [Grammar.declared, h]))
    exact finishes_symbol hb rfl (fun _ => ⟨hsupplied, .inl rfl⟩) ih
  | group hinner rest ihinner ih =>
    intro b hb
    exact finishes_group hb (hnil ihinner) ih
  | call hgap hslots hallows rest ihslots ih =>
    intro b hb
    exact finishes_call hb hgap (fun slot hslot => hnil (ihslots slot hslot)) hallows ih

end Builder

end Formula

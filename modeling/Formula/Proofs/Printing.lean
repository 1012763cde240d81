import Formula.Proofs.Part.Leaves
import Formula.Proofs.Part.Operands
import Formula.Proofs.Token.Standard

/-!
# Printing and reading back

A tree without its positions is a list of *shapes*.  A list of shapes is printed by writing its
tokens with blanks after each of them, symbols in any letter case, and reading what is printed gives
the same shapes again.  Nothing is found wrong but operands and arguments that are missing in the
shapes themselves.

The proof follows a printed text token by token.  Its tokens can be told from what follows them,
since blanks do, so they are read back.  The builder takes them in from any state that is *settled*:
the part that was added last is no function name that waits for its parenthesis, and it does not
touch what comes next, so no minus sign is joined to a number.
-/

namespace Formula

/-- A part of a formula without its position and the way in which its symbol is written. -/
inductive Shape
  /-- A number. -/
  | number (digits : Text)
  /-- A symbol that is not called. -/
  | symbol (s : Symbol)
  /-- A list in parentheses. -/
  | group (items : List Shape)
  /-- A call with the list of each argument. -/
  | call (f : Operation) (slots : List (List Shape))

mutual

/-- A part without its position. -/
def Part.shape : Part → Shape
  | .number e => .number e.text
  | .operator op _ => .symbol (.operator op)
  | .constant literal expression _ => .symbol (.constant literal expression)
  | .free literal _ => .symbol (.free literal)
  | .group _ items => .group (shapes items)
  | .call f _ slots => .call f (slotShapes slots)

/-- The parts of a slot without their positions. -/
def Slot.shape : Slot → List Shape
  | .mk _ items => shapes items

/-- A sibling list without positions. -/
def shapes : List Part → List Shape
  | [] => []
  | p :: ps => p.shape :: shapes ps

/-- Slots without positions. -/
def slotShapes : List Slot → List (List Shape)
  | [] => []
  | s :: ss => s.shape :: slotShapes ss

end

@[simp] theorem shapes_append (ps qs : List Part) : shapes (ps ++ qs) = shapes ps ++ shapes qs := by
  induction ps with
  | nil => simp [shapes]
  | cons p ps ih => simp [shapes, ih]

@[simp] theorem slotShapes_append (ss us : List Slot) :
    slotShapes (ss ++ us) = slotShapes ss ++ slotShapes us := by
  induction ss with
  | nil => simp [slotShapes]
  | cons s ss ih => simp [slotShapes, ih]

theorem shape_ofSymbol {s : Symbol} (hs : s.isCallable = false) (e : Excerpt) :
    (Part.ofSymbol s e).shape = .symbol s := by
  cases s with
  | function => cases hs
  | _ => simp [Part.ofSymbol, Part.shape]

/-- Blanks, at least one. -/
def IsGap (g : Text) : Prop := g ≠ [] ∧ ∀ c ∈ g, isBlank c = true

instance (g : Text) : Decidable (IsGap g) :=
  decidable_of_iff (g ≠ [] ∧ g.all isBlank = true) (by simp [IsGap])

/-- A word is the literal of a registered symbol in some letter case; the literal has no
delimiters. -/
def Spells (r : Registry) (s : Symbol) (word : Text) : Prop :=
  s ∈ r.symbols ∧ Solid s.literal ∧ word.lower = s.key

mutual

/-- A text that prints a list of shapes, with blanks after every token. -/
inductive Prints (r : Registry) : List Shape → Text → Prop
  /-- Nothing is printed for no shapes. -/
  | nil : Prints r [] []
  /-- A number. -/
  | number {n gap t : Text} {ss : List Shape} (hn : Numeral.isPlain n = true) (hgap : IsGap gap)
    (rest : Prints r ss t) : Prints r (.number n :: ss) (n ++ gap ++ t)
  /-- A symbol that is not called. -/
  | symbol {s : Symbol} {w gap t : Text} {ss : List Shape} (hw : Spells r s w)
    (hs : s.isCallable = false) (hgap : IsGap gap) (rest : Prints r ss t) :
    Prints r (.symbol s :: ss) (w ++ gap ++ t)
  /-- A list in parentheses. -/
  | group {before inner after t : Text} {items ss : List Shape} (hbefore : IsGap before)
    (hitems : Prints r items inner) (hafter : IsGap after) (rest : Prints r ss t) :
    Prints r (.group items :: ss) (['('] ++ before ++ inner ++ [')'] ++ after ++ t)
  /-- A call. -/
  | call {f : Operation} {w gap inner after t : Text} {slots : List (List Shape)}
    {ss : List Shape} (hw : Spells r (.function f) w) (hgap : IsGap gap)
    (hslots : PrintsSlots r slots inner) (hafter : IsGap after) (rest : Prints r ss t) :
    Prints r (.call f slots :: ss) (w ++ gap ++ ['('] ++ inner ++ [')'] ++ after ++ t)

/-- A text that prints one or more slots, with commas between them and blanks in front of each. -/
inductive PrintsSlots (r : Registry) : List (List Shape) → Text → Prop
  /-- A single slot. -/
  | last {gap t : Text} {items : List Shape} (hgap : IsGap gap) (hitems : Prints r items t) :
    PrintsSlots r [items] (gap ++ t)
  /-- A slot before others. -/
  | cons {gap t u : Text} {items : List Shape} {slots : List (List Shape)} (hgap : IsGap gap)
    (hitems : Prints r items t) (rest : PrintsSlots r slots u) :
    PrintsSlots r (items :: slots) (gap ++ t ++ [','] ++ u)

end

theorem text_blanks (gap : Text) : (gap.map Token.blank).flatMap Token.text = gap := by
  induction gap with
  | nil => rfl
  | cons c gap ih => rw [List.map_cons, List.flatMap_cons, ih, Token.text, List.singleton_append]

theorem IsGap.exists_cons {gap : Text} (h : IsGap gap) (u : Text) :
    ∃ c rest, gap ++ u = c :: rest ∧ isDelimiter c = true := by
  obtain ⟨hne, hblank⟩ := h
  obtain ⟨c, gap, rfl⟩ := List.exists_cons_of_ne_nil hne
  exact ⟨c, gap ++ u, rfl, isDelimiter_of_isBlank (hblank c List.mem_cons_self)⟩

theorem IsGap.continuesNumeral {gap : Text} (h : IsGap gap) (u : Text) :
    continuesNumeral (gap ++ u) = false := by
  obtain ⟨c, rest, heq, hc⟩ := h.exists_cons u
  rw [heq, continuesNumeral_of_isDelimiter hc]

theorem IsGap.endsWord {gap : Text} (h : IsGap gap) (u : Text) : endsWord (gap ++ u) = true := by
  obtain ⟨c, rest, heq, hc⟩ := h.exists_cons u
  rw [heq]
  simpa [Formula.endsWord] using hc

theorem startsCall_of_blanks {gap : Text} (h : ∀ c ∈ gap, isBlank c = true) (u : Text) :
    startsCall (gap ++ '(' :: u) = true := by
  have hparen : isBlank '(' = false := by decide
  rw [startsCall, List.dropWhile_append_of_pos h, List.dropWhile_cons_of_neg (by simp [hparen])]
  rfl

theorem solid_of_spells {r : Registry} {s : Symbol} {w : Text} (h : Spells r s w) : Solid w := by
  rw [← solid_lower, h.2.2, Symbol.key, solid_lower]
  exact h.2.1

/-- Tokens that can be told from whatever follows the list. -/
def StandApart (r : Registry) (ts : List Token) : Prop :=
  ∀ after, InContext (Token.Stands r) after ts

section StandApart

variable {r : Registry} {gap : Text}

theorem StandApart.append {ss ts : List Token} (hs : StandApart r ss) (ht : StandApart r ts) :
    StandApart r (ss ++ ts) := by
  intro after
  exact inContext_append.2 ⟨hs _, ht after⟩

theorem standApart_blanks (hgap : ∀ c ∈ gap, isBlank c = true) :
    StandApart r (gap.map Token.blank) := by
  intro after
  apply inContext_of_forall
  intro following tok htok
  obtain ⟨c, hc, rfl⟩ := List.mem_map.1 htok
  exact hgap c hc

theorem standApart_opening : StandApart r [.opening] := fun _ => ⟨trivial, trivial⟩

theorem standApart_closing : StandApart r [.closing] := fun _ => ⟨trivial, trivial⟩

theorem standApart_comma : StandApart r [.comma] := fun _ => ⟨trivial, trivial⟩

theorem standApart_number {n : Text} (hn : Numeral.isPlain n = true) (hgap : IsGap gap) :
    StandApart r ([Token.number n] ++ gap.map Token.blank) := by
  intro after
  have hends : continuesNumeral ((gap.map Token.blank).flatMap Token.text ++ after) = false := by
    rw [text_blanks]
    exact hgap.continuesNumeral after
  exact ⟨⟨hn, hends⟩, standApart_blanks hgap.2 after⟩

theorem standApart_symbol {s : Symbol} {w : Text} (hw : Spells r s w)
    (hs : s.isCallable = false) (hgap : IsGap gap) :
    StandApart r ([Token.symbol s w] ++ gap.map Token.blank) := by
  intro after
  have hends : endsWord ((gap.map Token.blank).flatMap Token.text ++ after) = true := by
    rw [text_blanks]
    exact hgap.endsWord after
  refine ⟨⟨hw.1, hw.2.2, solid_of_spells hw, ?_, .inl hends⟩, standApart_blanks hgap.2 after⟩
  intro hcallable
  rw [hs] at hcallable
  cases hcallable

/-- A function name needs the parenthesis after it. -/
theorem standApart_call {f : Operation} {w : Text} (hw : Spells r (.function f) w)
    (hgap : IsGap gap) :
    StandApart r ([Token.symbol (.function f) w] ++ gap.map Token.blank ++ [Token.opening]) := by
  intro after
  have hfollowing : (gap.map Token.blank ++ [Token.opening]).flatMap Token.text ++ after =
      gap ++ '(' :: after := by
    rw [List.flatMap_append, text_blanks, List.append_assoc]
    rfl
  have hends : endsWord ((gap.map Token.blank ++ [Token.opening]).flatMap Token.text ++ after) =
      true := by
    rw [hfollowing]
    exact hgap.endsWord _
  refine ⟨⟨hw.1, hw.2.2, solid_of_spells hw, ?_, .inl hends⟩,
    ((standApart_blanks hgap.2).append standApart_opening) after⟩
  intro _
  change startsCall ((gap.map Token.blank ++ [Token.opening]).flatMap Token.text ++ after) = true
  rw [hfollowing]
  exact startsCall_of_blanks hgap.2 after

end StandApart

/-! ## The builder between printed tokens -/

/-- What comes next, at a position, may become part of this part: of a function name that waits for
its parenthesis, or of a sign that touches it. -/
def Part.IsOpen (position : Nat) : Part → Prop
  | .operator _ sign => position ≤ sign.stop
  | .call _ _ slots => slots = []
  | _ => False

/-- A symbol with blanks after it. -/
theorem IsGap.not_isOpen_ofSymbol {gap : Text} (h : IsGap gap) {s : Symbol}
    (hs : s.isCallable = false) {position : Nat} {w : Text} :
    ¬ (Part.ofSymbol s ⟨position, w⟩).IsOpen (position + w.length + gap.length) := by
  cases s with
  | function => cases hs
  | operator op =>
    intro hle
    have hpos : 0 < gap.length := List.length_pos_iff.2 h.1
    simp only [Part.ofSymbol, Part.IsOpen, Excerpt.stop] at hle
    omega
  | constant => exact not_false
  | free => exact not_false

namespace Builder

variable {text : Text} {b : Builder} {ts us : List Token} {ss ss' : List Shape}

/-- Nothing that comes next becomes part of a part that is already there. -/
def Settled (b : Builder) : Prop :=
  ∀ p ∈ b.items.head?, ¬ p.IsOpen b.position

/-- Taking in tokens adds parts of the given shapes, finds nothing wrong and ends settled. -/
def Adds (text : Text) (b : Builder) (ts : List Token) (ss : List Shape) : Prop :=
  ∃ n ps, b.run text ts = { b with position := n, items := ps.reverse ++ b.items } ∧
    shapes ps = ss ∧ (b.run text ts).Settled

theorem Adds.settled (h : b.Adds text ts ss) : (b.run text ts).Settled := by
  obtain ⟨n, ps, -, -, hsettled⟩ := h
  exact hsettled

theorem settled_of_items_eq_nil (h : b.items = []) : b.Settled := by
  intro p hp
  rw [h] at hp
  cases hp

theorem Settled.ready (h : b.Settled) : Ready b.items := by
  intro f name before heq
  exact h (.call f name []) (by simp [heq]) rfl

/-- Blanks only move the position. -/
theorem run_blanks (b : Builder) (gap : Text) :
    b.run text (gap.map Token.blank) = { b with position := b.position + gap.length } := by
  induction gap generalizing b with
  | nil => rfl
  | cons c gap ih =>
    have hlength : b.position + 1 + gap.length = b.position + (c :: gap).length := by
      rw [List.length_cons]
      omega
    rw [List.map_cons, run_cons, ih, ← hlength]
    rfl

/-- Blanks keep a builder settled. -/
theorem adds_blanks (h : b.Settled) (gap : Text) : b.Adds text (gap.map Token.blank) [] := by
  refine ⟨_, [], run_blanks b gap, by simp [shapes], ?_⟩
  rw [run_blanks]
  intro p hp hopen
  refine h p hp ?_
  cases p with
  | operator op sign =>
    have hle : b.position + gap.length ≤ sign.stop := hopen
    exact Nat.le_trans (Nat.le_add_right ..) hle
  | call => exact hopen
  | number | constant | free | group => exact hopen

/-- What is added by tokens, one list after another. -/
theorem Adds.append (h : b.Adds text ts ss) (h' : (b.run text ts).Adds text us ss') :
    b.Adds text (ts ++ us) (ss ++ ss') := by
  obtain ⟨n, ps, hrun, rfl, -⟩ := h
  obtain ⟨n', qs, hrun', rfl, hsettled⟩ := h'
  refine ⟨n', ps ++ qs, ?_, shapes_append ps qs, by rwa [run_append]⟩
  rw [run_append, hrun', hrun]
  simp

/-- Blanks and then the tokens. -/
theorem adds_blanks_append (hb : b.Settled) (gap : Text)
    (hts : ∀ b' : Builder, b'.Settled → b'.Adds text ts ss) :
    b.Adds text (gap.map Token.blank ++ ts) ss := by
  have hblanks : b.Adds text (gap.map Token.blank) [] := adds_blanks hb gap
  exact hblanks.append (hts _ hblanks.settled)

/-- Tokens that add a single part, with blanks after them. -/
theorem adds_part {n : Nat} {p : Part}
    (h : b.run text ts = { b with position := n, items := p :: b.items }) (gap : Text)
    (hopen : ¬ p.IsOpen (n + gap.length)) :
    b.Adds text (ts ++ gap.map Token.blank) [p.shape] := by
  have hrun : b.run text (ts ++ gap.map Token.blank) =
      { b with position := n + gap.length, items := p :: b.items } := by
    rw [run_append, h, run_blanks]
  refine ⟨_, [p], hrun, by simp [shapes], ?_⟩
  rw [hrun]
  intro q hq
  obtain rfl : p = q := by simpa using hq
  exact hopen

/-- A number does not join a sign that it does not touch. -/
theorem push_of_settled (h : b.Settled) (n : Text) :
    push (.number ⟨b.position, n⟩) b.items = .number ⟨b.position, n⟩ :: b.items := by
  rcases push_eq_or (.number ⟨b.position, n⟩) b.items with hpush | ⟨e, op, sign, he, hb, -, ht, -⟩
  · exact hpush
  · obtain rfl : ⟨b.position, n⟩ = e := Part.number.inj he
    have hnot := h (.operator op sign) (by simp [hb])
    exact absurd (Nat.le_of_eq ht.symm) hnot

theorem adds_number (hb : b.Settled) (n gap : Text) :
    b.Adds text ([Token.number n] ++ gap.map Token.blank) [.number n] := by
  have hpart : b.run text [.number n] = { b with
      position := b.position + n.length
      items := .number ⟨b.position, n⟩ :: b.items } := by
    rw [run_singleton, step, take, push_of_settled hb]
    rfl
  have h := adds_part hpart gap not_false
  rwa [Part.shape] at h

/-- A symbol that is not called. -/
theorem adds_symbol {s : Symbol} (hs : s.isCallable = false) {gap : Text} (hgap : IsGap gap)
    (b : Builder) (w : Text) :
    b.Adds text ([Token.symbol s w] ++ gap.map Token.blank) [.symbol s] := by
  have hpart : b.run text [.symbol s w] = { b with
      position := b.position + w.length
      items := .ofSymbol s ⟨b.position, w⟩ :: b.items } := step_symbol b s w
  have h := adds_part hpart gap (hgap.not_isOpen_ofSymbol hs)
  rwa [shape_ofSymbol hs] at h

/-- A list in parentheses. -/
theorem adds_group {inner : List Token} {items : List Shape} (hb : b.Settled)
    (hinner : ∀ b' : Builder, b'.Settled → b'.Adds text inner items) (before after : Text) :
    b.Adds text
      ([Token.opening] ++ before.map Token.blank ++ inner ++ [Token.closing] ++
        after.map Token.blank)
      [.group items] := by
  set opened := b.run text ([Token.opening] ++ before.map Token.blank) with hopened
  have hrun : opened = { b with
      position := b.position + 1 + before.length
      items := []
      frames := ⟨.group, b.position, b.items⟩ :: b.frames } := by
    rw [hopened, run_append, run_blanks, run_singleton, step_opening hb.ready]
  have hsettled : opened.Settled := settled_of_items_eq_nil (by rw [hrun])
  obtain ⟨n, ps, hclosed, rfl, -⟩ := hinner opened hsettled
  have hpart : b.run text ([Token.opening] ++ before.map Token.blank ++ inner ++ [Token.closing]) =
      { b with
        position := n + 1
        items := .group ⟨b.position, text.slice b.position (n + 1)⟩ ps :: b.items } := by
    rw [run_append, run_append, ← hopened, hclosed, hrun, run_singleton, step_closing_group rfl,
      List.append_nil, List.reverse_reverse]
  have h := adds_part hpart after not_false
  rwa [Part.shape] at h

/-- Taking in tokens inside the parentheses of a call, at the start of a slot, completes all slots
of the given shapes but the last one, whose parts are there. -/
def AddsSlots (text : Text) (b : Builder) (ts : List Token) (sss : List (List Shape)) : Prop :=
  ∀ f name slots slotStart opened before outer, b.items = [] →
    b.frames = ⟨.call f name slots slotStart, opened, before⟩ :: outer →
    ∃ n slots' slotStart' items, b.run text ts = { b with
        position := n
        items := items
        frames := ⟨.call f name slots' slotStart', opened, before⟩ :: outer } ∧
      slotShapes slots'.reverse ++ [shapes items.reverse] = slotShapes slots.reverse ++ sss

/-- The last slot. -/
theorem addsSlots_last {items : List Shape} (h : b.items = [] → b.Adds text ts items) :
    b.AddsSlots text ts [items] := by
  intro f name slots slotStart opened before outer hitems hframes
  obtain ⟨n, ps, hrun, rfl, -⟩ := h hitems
  refine ⟨n, slots, slotStart, ps.reverse, ?_, by rw [List.reverse_reverse]⟩
  rw [hrun, hitems, hframes, List.append_nil]

/-- A slot and the comma after it. -/
theorem addsSlots_cons {items : List Shape} {sss : List (List Shape)}
    (h : b.items = [] → b.Adds text ts items)
    (hrest : ∀ b' : Builder, b'.AddsSlots text us sss) :
    b.AddsSlots text (ts ++ [Token.comma] ++ us) (items :: sss) := by
  intro f name slots slotStart opened before outer hitems hframes
  obtain ⟨n, ps, hrun, rfl, -⟩ := h hitems
  rw [hitems, List.append_nil] at hrun
  set slot := Slot.mk ⟨slotStart, text.slice slotStart n⟩ ps.reverse.reverse with hslot
  have hcomma := run_slot_comma hframes hrun
  obtain ⟨n', slots', slotStart', items', hrun', hshapes⟩ :=
    hrest (b.run text (ts ++ [Token.comma])) f name (slot :: slots) (n + 1) opened before outer
      (by rw [hcomma]) (by rw [hcomma])
  refine ⟨n', slots', slotStart', items', ?_, ?_⟩
  · rw [run_append, hrun', hcomma]
  · rw [hshapes, List.reverse_cons, slotShapes_append, List.append_assoc]
    simp [slotShapes, Slot.shape, hslot]

/-- A call. -/
theorem adds_call {inner : List Token} {slots : List (List Shape)}
    (hinner : ∀ b' : Builder, b'.AddsSlots text inner slots) (b : Builder) (f : Operation)
    (w gap after : Text) :
    b.Adds text ([Token.symbol (.function f) w] ++ gap.map Token.blank ++ [Token.opening] ++
      inner ++ [Token.closing] ++ after.map Token.blank) [.call f slots] := by
  set name : Excerpt := ⟨b.position, w⟩ with hname
  set q := b.position + w.length + gap.length with hq
  have hopened : b.run text
      ([Token.symbol (.function f) w] ++ gap.map Token.blank ++ [Token.opening]) =
      { b with
        position := q + 1
        items := []
        frames := ⟨.call f name [] (q + 1), q, b.items⟩ :: b.frames } := by
    rw [run_append, run_append, run_blanks, run_singleton, run_singleton, step_symbol]
    exact step_opening_call rfl
  obtain ⟨n, slots', slotStart, items, hrun, hshapes⟩ :=
    hinner (b.run text ([Token.symbol (.function f) w] ++ gap.map Token.blank ++ [Token.opening]))
      f name [] (q + 1) q b.items b.frames (by rw [hopened]) (by rw [hopened])
  set last := Slot.mk ⟨slotStart, text.slice slotStart n⟩ items.reverse with hlast
  have hpart : b.run text ([Token.symbol (.function f) w] ++ gap.map Token.blank ++
      [Token.opening] ++ inner ++ [Token.closing]) = { b with
        position := n + 1
        items := .call f name (last :: slots').reverse :: b.items } := by
    rw [run_append, run_append, hrun, hopened, run_singleton]
    exact step_closing_call rfl
  have hne : (last :: slots').reverse ≠ [] := by simp
  have h := adds_part hpart after hne
  have hslots : slotShapes (last :: slots').reverse = slots := by
    rw [List.reverse_cons, slotShapes_append]
    simpa [slotShapes, Slot.shape, hlast] using hshapes
  rwa [Part.shape, hslots] at h

end Builder

/-! ## Reading back -/

variable {r : Registry}

mutual

/-- **Printed shapes are written with tokens that are read back and that add these shapes.** -/
theorem Prints.exists_tokens {ss : List Shape} {t : Text} (h : Prints r ss t) :
    ∃ ts, ts.flatMap Token.text = t ∧ StandApart r ts ∧
      ∀ text (b : Builder), b.Settled → b.Adds text ts ss := by
  cases h with
  | nil =>
    refine ⟨[], rfl, ?_, ?_⟩
    · intro after
      trivial
    · intro text b hb
      exact Builder.adds_blanks hb []
  | @number n gap t ss hn hgap rest =>
    obtain ⟨ts, rfl, hstands, hadds⟩ := rest.exists_tokens
    refine ⟨[Token.number n] ++ gap.map Token.blank ++ ts, ?_, ?_, ?_⟩
    · simp [text_blanks, Token.text]
    · exact (standApart_number hn hgap).append hstands
    · intro text b hb
      have hnumber : b.Adds text ([Token.number n] ++ gap.map Token.blank) [.number n] :=
        Builder.adds_number hb n gap
      exact hnumber.append (hadds text _ hnumber.settled)
  | @symbol s w gap t ss hw hs hgap rest =>
    obtain ⟨ts, rfl, hstands, hadds⟩ := rest.exists_tokens
    refine ⟨[Token.symbol s w] ++ gap.map Token.blank ++ ts, ?_, ?_, ?_⟩
    · simp [text_blanks, Token.text]
    · exact (standApart_symbol hw hs hgap).append hstands
    · intro text b hb
      have hsymbol : b.Adds text ([Token.symbol s w] ++ gap.map Token.blank) [.symbol s] :=
        Builder.adds_symbol hs hgap b w
      exact hsymbol.append (hadds text _ hsymbol.settled)
  | @group before inner after t items ss hbefore hitems hafter rest =>
    obtain ⟨us, rfl, hinner, haddsInner⟩ := hitems.exists_tokens
    obtain ⟨ts, rfl, hstands, hadds⟩ := rest.exists_tokens
    refine ⟨[Token.opening] ++ before.map Token.blank ++ us ++ [Token.closing] ++
      after.map Token.blank ++ ts, ?_, ?_, ?_⟩
    · simp [text_blanks, Token.text]
    · have hopened := standApart_opening.append (standApart_blanks (r := r) hbefore.2)
      have hclosed := standApart_closing.append (standApart_blanks (r := r) hafter.2)
      have hgroup := ((hopened.append hinner).append hclosed).append hstands
      simpa using hgroup
    · intro text b hb
      have hgroup := Builder.adds_group hb (haddsInner text) before after
      exact hgroup.append (hadds text _ hgroup.settled)
  | @call f w gap inner after t slots ss hw hgap hslots hafter rest =>
    obtain ⟨us, rfl, hinner, haddsInner⟩ := hslots.exists_tokens
    obtain ⟨ts, rfl, hstands, hadds⟩ := rest.exists_tokens
    refine ⟨[Token.symbol (.function f) w] ++ gap.map Token.blank ++ [Token.opening] ++ us ++
      [Token.closing] ++ after.map Token.blank ++ ts, ?_, ?_, ?_⟩
    · simp [text_blanks, Token.text]
    · have hclosed := standApart_closing.append (standApart_blanks (r := r) hafter.2)
      have hcall := (((standApart_call hw hgap).append hinner).append hclosed).append hstands
      simpa using hcall
    · intro text b hb
      have hcall := Builder.adds_call (haddsInner text) b f w gap after
      exact hcall.append (hadds text _ hcall.settled)

/-- Printed slots are written with tokens that are read back and that complete these slots. -/
theorem PrintsSlots.exists_tokens {slots : List (List Shape)} {t : Text}
    (h : PrintsSlots r slots t) :
    ∃ ts, ts.flatMap Token.text = t ∧ StandApart r ts ∧
      ∀ text (b : Builder), b.AddsSlots text ts slots := by
  cases h with
  | @last gap t items hgap hitems =>
    obtain ⟨ts, rfl, hstands, hadds⟩ := hitems.exists_tokens
    refine ⟨gap.map Token.blank ++ ts, ?_, (standApart_blanks hgap.2).append hstands, ?_⟩
    · rw [List.flatMap_append, text_blanks]
    · intro text b
      apply Builder.addsSlots_last
      intro hnil
      exact Builder.adds_blanks_append (Builder.settled_of_items_eq_nil hnil) gap (hadds text)
  | @cons gap t u items slots hgap hitems rest =>
    obtain ⟨ts, rfl, hstands, hadds⟩ := hitems.exists_tokens
    obtain ⟨us, rfl, hrest, haddsRest⟩ := rest.exists_tokens
    refine ⟨gap.map Token.blank ++ ts ++ [Token.comma] ++ us, ?_, ?_, ?_⟩
    · simp [text_blanks, Token.text]
    · have hfirst := (standApart_blanks hgap.2).append hstands
      exact (hfirst.append standApart_comma).append hrest
    · intro text b
      refine Builder.addsSlots_cons ?_ (haddsRest text)
      intro hnil
      exact Builder.adds_blanks_append (Builder.settled_of_items_eq_nil hnil) gap (hadds text)

end

/-- **Reading undoes printing.**  If no literal starts like a number, a printed list of shapes is
read as these shapes, without hints, and the only errors are about operands and arguments. -/
theorem parse_of_prints (hr : r.LeavesNumerals) {ss : List Shape} {gap t : Text}
    (hgap : ∀ c ∈ gap, isBlank c = true) (h : Prints r ss t) :
    shapes (parse r (gap ++ t)).items = ss ∧ (parse r (gap ++ t)).hints = [] ∧
      ∀ e ∈ (parse r (gap ++ t)).errors, e.concernsArguments = true := by
  obtain ⟨ts, rfl, hstands, hadds⟩ := h.exists_tokens
  have hin : InContext (Token.Stands r) [] (gap.map Token.blank ++ ts) :=
    ((standApart_blanks hgap).append hstands) []
  have htokens : tokens r (gap ++ ts.flatMap Token.text) = gap.map Token.blank ++ ts := by
    have hback := tokens_flatMap_text hr hin
    rwa [List.flatMap_append, text_blanks] at hback
  generalize gap ++ ts.flatMap Token.text = text at htokens
  have hall : Builder.empty.Adds text (gap.map Token.blank ++ ts) ss :=
    Builder.adds_blanks_append (Builder.settled_of_items_eq_nil rfl) gap (hadds text)
  obtain ⟨n, ps, hrun, hshapes, -⟩ := hall
  rw [← htokens] at hrun
  have hitems : (parse r text).items = ps := by
    change (Builder.empty.run text (tokens r text)).finish text = ps
    rw [hrun]
    change (ps.reverse ++ []).reverse = ps
    rw [List.append_nil, List.reverse_reverse]
  have herrors : (Builder.empty.run text (tokens r text)).allErrors = [] := by
    rw [hrun]
    rfl
  refine ⟨hitems ▸ hshapes, ?_, ?_⟩
  · change (Builder.empty.run text (tokens r text)).hints = []
    rw [hrun]
    rfl
  · intro e he
    simp only [parse, herrors, List.nil_append] at he
    rw [collapse_of_concernsArguments concernsArguments_of_mem_argumentErrors] at he
    exact concernsArguments_of_mem_argumentErrors e he

/-- A call with a sign in front of a number, which do not touch, and a group. -/
theorem parse_of_prints_log : ∃ minus log,
    Prints .standard [.call log [[.symbol (.operator minus), .number ['2']],
      [.group [.symbol (.free ['x'])]]]] "Log ( - 2 , ( X ) ) ".toList ∧
    shapes (parse .standard " Log ( - 2 , ( X ) ) ".toList).items =
      [.call log [[.symbol (.operator minus), .number ['2']], [.group [.symbol (.free ['x'])]]]] ∧
    (parse .standard " Log ( - 2 , ( X ) ) ".toList).hints = [] ∧
    ∀ e ∈ (parse .standard " Log ( - 2 , ( X ) ) ".toList).errors,
      e.concernsArguments = true := by
  have hgap : IsGap [' '] := by decide
  have htwo : Numeral.isPlain ['2'] = true := by decide
  have hx : Spells .standard (.free ['x']) ['X'] :=
    ⟨Registry.mem_standard.2 (by simp [standardSymbols]), by decide, rfl⟩
  have hminus : Spells .standard (.operator (.sign "-" "Subtraction" .sub 10 25)) ['-'] :=
    ⟨Registry.mem_standard.2 (by simp [standardSymbols, standardOperators]), by decide, rfl⟩
  have hlog : Spells .standard (.named "log" "Logarithm" .log [.required, .optional "10".toList])
      "Log".toList :=
    ⟨Registry.mem_standard.2 (by simp [standardSymbols, standardFunctions]), by decide, rfl⟩
  have hprints := Prints.call hlog hgap
    (.cons hgap (.symbol hminus rfl hgap (.number htwo hgap .nil))
      (.last hgap (.group hgap (.symbol hx rfl hgap .nil) hgap .nil))) hgap .nil
  obtain ⟨hshapes, hhints, herrors⟩ := parse_of_prints leavesNumerals_standard hgap.2 hprints
  exact ⟨_, _, hprints, hshapes, hhints, herrors⟩

end Formula

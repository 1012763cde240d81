import Formula.Proofs.Part.SiblingLists
import Formula.Proofs.Variation.Building

/-!
# Where two values stand side by side

Between two values that stand side by side, in whatever sibling list, the tokens of the formula can
be cut, so that an operator is written there.  The place is the position of the right value.

The proof follows the builder through the scopes of the formula.  A statement `P` about positions is
carried along that holds wherever the tokens that are still to come can be cut; then it holds of
every value that is added after a value.
-/

namespace Formula

/-- An operator that is written between two values. -/
def Variation.writing (op : Operator) : Variation where
  number? _ := none
  product? := some op

/-- An operator may be written after `n` characters of the rest of a scope. -/
def Cuts (op : Operator) (b : Before) (ts : List Token) (n : Nat) : Prop :=
  ∃ ss us, ts = ss ++ us ∧ (ss.flatMap Token.text).length = n ∧
    Rewrites (.writing op) b ts (ss ++ op.token :: us)

variable {op : Operator}

theorem Scope.rewrites_self {g : Grammar} {last : Last} {ts : List Token} (h : Scope g last ts)
    {b : Before} (hb : b ≠ .written) : Rewrites (.writing op) b ts ts := by
  have hts := h.rewrites (V := .writing op) b hb
  rwa [Variation.tokens_eq_self fun _ => rfl] at hts

/-- A call in which nothing is written. -/
theorem rewrites_call_self {b : Before} {f : Operation} {w : Text} {gap first ts ts' : List Token}
    {more : List (List Token)} (hgap : isSilent gap = true)
    (hslots : ∀ slot ∈ first :: more, Rewrites (.writing op) .other slot slot)
    (hts : Rewrites (.writing op) .value ts ts') :
    Rewrites (.writing op) b
      ([Token.symbol (.function f) w] ++ gap ++ [Token.opening] ++ commaJoin first more ++
        [Token.closing] ++ ts)
      ([Token.symbol (.function f) w] ++ gap ++ [Token.opening] ++ commaJoin first more ++
        [Token.closing] ++ ts') := by
  have hcall := rewrites_call_map (b := b) (f := f) (w := w) id hgap hslots hts
  rwa [List.map_id] at hcall

/-- Before a value that stands after a value, an operator may be written. -/
theorem cuts_zero {ts : List Token} (h : Rewrites (.writing op) .written ts ts) :
    Cuts op .value ts 0 :=
  ⟨[], ts, rfl, rfl, .product rfl h⟩

/-- What is cut later is cut in the rest. -/
theorem Cuts.prepend {b b' : Before} {us ts : List Token} {n : Nat}
    (h : Cuts op b ts n)
    (hus : ∀ ts', Rewrites (.writing op) b ts ts' →
      Rewrites (.writing op) b' (us ++ ts) (us ++ ts')) :
    Cuts op b' (us ++ ts) ((us.flatMap Token.text).length + n) := by
  obtain ⟨ss, rest, rfl, rfl, hrewrites⟩ := h
  refine ⟨us ++ ss, rest, by simp, by simp, ?_⟩
  rw [List.append_assoc]
  exact hus _ hrewrites

/-- What is cut inside parentheses. -/
theorem Cuts.group {b : Before} {inner ts : List Token} {n : Nat} (h : Cuts op .other inner n)
    (hts : Rewrites (.writing op) .value ts ts) :
    Cuts op b ([Token.opening] ++ inner ++ [Token.closing] ++ ts) (1 + n) := by
  obtain ⟨ss, rest, rfl, rfl, hrewrites⟩ := h
  have hgroup := Rewrites.group (b := b) hrewrites hts
  refine ⟨[Token.opening] ++ ss, rest ++ [Token.closing] ++ ts, by simp, ?_, by simpa using hgroup⟩
  simp [Token.text, Nat.add_comm]

/-- An operator may be written after `n` characters of the slots of a call. -/
def CutsSlots (op : Operator) (first : List Token) (more : List (List Token)) (n : Nat) : Prop :=
  ∃ (first' : List Token × List Token) (more' : List (List Token × List Token))
    (ss us : List Token),
    first'.1 = first ∧ more'.map Prod.fst = more ∧
    (∀ slot ∈ first' :: more', Rewrites (.writing op) .other slot.1 slot.2) ∧
    commaJoin first more = ss ++ us ∧ (ss.flatMap Token.text).length = n ∧
    commaJoin first'.2 (more'.map Prod.snd) = ss ++ op.token :: us

theorem Cuts.first {first : List Token} {more : List (List Token)} {n : Nat}
    (h : Cuts op .other first n)
    (hmore : ∀ slot ∈ more, Rewrites (.writing op) .other slot slot) :
    CutsSlots op first more n := by
  obtain ⟨ss, us, rfl, rfl, hrewrites⟩ := h
  refine ⟨(ss ++ us, ss ++ op.token :: us), more.map fun slot => (slot, slot), ss,
    us ++ more.flatMap (.comma :: ·), rfl, by simp [Function.comp_def], ?_, by simp [commaJoin],
    rfl, by simp [commaJoin, Function.comp_def]⟩
  refine List.forall_mem_cons.2 ⟨hrewrites, ?_⟩
  intro pair hpair
  obtain ⟨slot, hslot, rfl⟩ := List.mem_map.1 hpair
  exact hmore slot hslot

theorem CutsSlots.later {first next : List Token} {more : List (List Token)} {n : Nat}
    (h : CutsSlots op next more n) (hfirst : Rewrites (.writing op) .other first first) :
    CutsSlots op first (next :: more) ((first.flatMap Token.text).length + (1 + n)) := by
  obtain ⟨next', more', ss, us, rfl, rfl, hslots, hjoin, rfl, hjoin'⟩ := h
  refine ⟨(first, first), next' :: more', first ++ [Token.comma] ++ ss, us, rfl, rfl,
    List.forall_mem_cons.2 ⟨hfirst, hslots⟩, ?_, ?_, ?_⟩
  · have hsplit : commaJoin first (next'.1 :: more'.map Prod.fst) =
        first ++ [Token.comma] ++ commaJoin next'.1 (more'.map Prod.fst) := by simp [commaJoin]
    rw [hsplit, hjoin]
    simp
  · simp [Token.text]
    omega
  · have hsplit : commaJoin first (next'.2 :: more'.map Prod.snd) =
        first ++ [Token.comma] ++ commaJoin next'.2 (more'.map Prod.snd) := by simp [commaJoin]
    rw [List.map_cons, hsplit, hjoin']
    simp

/-- What is cut in a slot is cut in the call. -/
theorem CutsSlots.call {b : Before} {f : Operation} {w : Text} {gap first ts : List Token}
    {more : List (List Token)} {n : Nat} (h : CutsSlots op first more n)
    (hgap : isSilent gap = true) (hts : Rewrites (.writing op) .value ts ts) :
    Cuts op b ([Token.symbol (.function f) w] ++ gap ++ [Token.opening] ++ commaJoin first more ++
      [Token.closing] ++ ts)
      ((([Token.symbol (.function f) w] ++ gap ++ [Token.opening]).flatMap Token.text).length +
        n) := by
  obtain ⟨first', more', ss, us, rfl, rfl, hslots, hjoin, rfl, hjoin'⟩ := h
  have hcall := Rewrites.call (b := b) (f := f) (w := w) hgap hslots hts
  rw [hjoin, hjoin'] at hcall
  rw [hjoin]
  refine ⟨[Token.symbol (.function f) w] ++ gap ++ [Token.opening] ++ ss,
    us ++ [Token.closing] ++ ts, by simp, ?_, by simpa using hcall⟩
  simp only [List.flatMap_append, List.length_append]

/-- A statement holds of the position of every value in a list that stands after a value. -/
def Marked (P : Nat → Prop) (l : List Part) : Prop :=
  ∀ before p q after, l = before ++ p :: q :: after → p.isOperator = false →
    q.isOperator = false → P q.start

/-- A statement holds of the position of every value that stands after a value in a formula. -/
def AllMarked (P : Nat → Prop) (items : List Part) : Prop :=
  ∀ l, SiblingList items l → Marked P l

variable {P : Nat → Prop}

theorem marked_singleton (p : Part) : Marked P [p] := by
  intro before x y after heq
  cases before with
  | nil => cases heq
  | cons z before => simp at heq

theorem allMarked_nil : AllMarked P [] := by
  intro l hl
  have hnil : l = [] := by
    induction hl with
    | whole => rfl
    | group _ hmem ih => simp [ih] at hmem
    | slot _ hmem _ ih => simp [ih] at hmem
  intro before p q after heq
  simp [hnil] at heq

theorem allMarked_number (e : Excerpt) : AllMarked P [.number e] := by
  intro l hl
  rcases hl.of_singleton with rfl | ⟨_, _, heq, -⟩ | ⟨_, _, _, _, heq, -⟩
  · exact marked_singleton _
  · cases heq
  · cases heq

theorem allMarked_ofSymbol (s : Symbol) (e : Excerpt) : AllMarked P [.ofSymbol s e] := by
  intro l hl
  rcases hl.of_singleton with rfl | ⟨_, _, heq, -⟩ | ⟨_, _, slots, u, heq, hu, -⟩
  · exact marked_singleton _
  · cases s <;> cases heq
  · cases s with
    | function f =>
      obtain ⟨-, -, rfl⟩ := Part.call.inj heq
      cases hu
    | operator | constant | free => cases heq

theorem AllMarked.group {inner : List Part} (h : AllMarked P inner) (e : Excerpt) :
    AllMarked P [.group e inner] := by
  intro l hl
  rcases hl.of_singleton with rfl | ⟨_, _, heq, hl⟩ | ⟨_, _, _, _, heq, -⟩
  · exact marked_singleton _
  · obtain ⟨-, rfl⟩ := Part.group.inj heq
    exact h l hl
  · cases heq

theorem allMarked_call {slots : List Slot} (h : ∀ s ∈ slots, AllMarked P s.items) (f : Operation)
    (name : Excerpt) : AllMarked P [.call f name slots] := by
  intro l hl
  rcases hl.of_singleton with rfl | ⟨_, _, heq, -⟩ | ⟨_, _, _, s, heq, hs, hl⟩
  · exact marked_singleton _
  · cases heq
  · obtain ⟨-, -, rfl⟩ := Part.call.inj heq
    exact h s hs l hl

/-- **A part is added to a list**, the last part first. -/
theorem AllMarked.add {items : List Part} {p : Part} (h : AllMarked P items.reverse)
    (hp : AllMarked P [p])
    (hlast : ∀ l rest, items = l :: rest → l.isOperator = false → p.isOperator = false →
      P p.start) : AllMarked P (p :: items).reverse := by
  rw [List.reverse_cons]
  intro l hl
  rcases hl.of_append with rfl | hl | hl
  · intro before x y after heq hx hy
    rcases List.eq_nil_or_concat after with rfl | ⟨rest, z, rfl⟩
    · -- the two values are the last part of the list and the part that is added
      have hsplit : items.reverse ++ [p] = (before ++ [x]) ++ [y] := by simpa using heq
      obtain ⟨hitems, hlast'⟩ := List.append_inj' hsplit rfl
      obtain rfl : p = y := List.singleton_inj.1 hlast'
      have hcons : items = x :: before.reverse := by
        simpa using congrArg List.reverse hitems
      exact hlast x _ hcons hx hy
    · have hsplit : items.reverse ++ [p] = (before ++ x :: y :: rest) ++ [z] := by simpa using heq
      obtain ⟨hitems, -⟩ := List.append_inj' hsplit rfl
      exact h _ .whole before x y rest hitems hx hy
  · exact h l hl
  · exact hp l hl

/-- What stands last in a scope, as far as a value is concerned. -/
def Before.ofLast (last : Last) : Before := if last.isValue then .value else .other

theorem Before.ofLast_ne_written (last : Last) : ofLast last ≠ .written := by
  rw [ofLast]
  split <;> decide

namespace Builder

variable {text : Text} {b : Builder} {last last' : Last} {us ts : List Token}

/-- Tokens that change the innermost list only, and add no value after a value where the statement
does not hold. -/
def Marks (P : Nat → Prop) (text : Text) (b : Builder) (ts : List Token) : Prop :=
  ∃ n items hints, b.run text ts = { b with position := n, items := items, hints := hints } ∧
    AllMarked P items.reverse

/-- A builder for which the statement holds so far, and holds wherever the tokens to come can be
cut. -/
structure Awaits (op : Operator) (P : Nat → Prop) (last : Last) (b : Builder)
    (ts : List Token) : Prop where
  /-- No function name waits for its parenthesis. -/
  ready : Ready b.items
  /-- It is known where a value stands last. -/
  afterValue : ∀ l rest, b.items = l :: rest → l.isOperator = false → last.isValue = true
  /-- The statement holds so far. -/
  marked : AllMarked P b.items.reverse
  /-- The statement holds at the cuts. -/
  cuts : ∀ n, Cuts op (.ofLast last) ts n → P (b.position + n)

theorem awaits_nil (hitems : b.items = [])
    (hcuts : ∀ n, Cuts op .other ts n → P (b.position + n)) : Awaits op P .nothing b ts := by
  refine ⟨hitems ▸ ready_nil, ?_, ?_, hcuts⟩
  · intro l rest heq
    rw [hitems] at heq
    cases heq
  · rw [hitems]
    exact allMarked_nil

theorem Marks.of_append {n : Nat} {items : List Part} {hints : List Hint}
    (hrun : b.run text us = { b with position := n, items := items, hints := hints })
    (h : (b.run text us).Marks P text ts) : b.Marks P text (us ++ ts) := by
  obtain ⟨m, items', hints', hrun', hmarked⟩ := h
  exact ⟨m, items', hints', by rw [run_append, hrun', hrun], hmarked⟩

/-- The statement holds of a value that comes next, if a value stands last. -/
theorem Awaits.here (hb : Awaits op P last b ts) (hself : Rewrites (.writing op) .written ts ts) :
    ∀ l rest, b.items = l :: rest → l.isOperator = false → P b.position := by
  intro l rest hitems hvalue
  have hlast : Before.ofLast last = .value := if_pos (hb.afterValue l rest hitems hvalue)
  have hcut := hb.cuts 0
  rw [hlast] at hcut
  exact hcut (cuts_zero hself)

/-- The builder after tokens that change the innermost list only. -/
theorem Awaits.next (hb : Awaits op P last b (us ++ ts)) (hready : Ready (b.run text us).items)
    (hlast : ∀ l rest, (b.run text us).items = l :: rest → l.isOperator = false →
      last'.isValue = true)
    (hmarked : AllMarked P (b.run text us).items.reverse)
    (hus : ∀ ts', Rewrites (.writing op) (.ofLast last') ts ts' →
      Rewrites (.writing op) (.ofLast last) (us ++ ts) (us ++ ts')) :
    Awaits op P last' (b.run text us) ts := by
  refine ⟨hready, hlast, hmarked, ?_⟩
  intro n hcut
  rw [position_run, Nat.add_assoc]
  exact hb.cuts _ (hcut.prepend hus)

/-- A value is added. -/
theorem Awaits.add_value {p : Part} {n : Nat} {hints : List Hint}
    (hb : Awaits op P last b (us ++ ts))
    (hrun : b.run text us = { b with position := n, items := p :: b.items, hints := hints })
    (hself : Rewrites (.writing op) .written (us ++ ts) (us ++ ts))
    (hstart : p.start = b.position) (hready : Ready (p :: b.items)) (hp : AllMarked P [p])
    (hus : ∀ ts', Rewrites (.writing op) .value ts ts' →
      Rewrites (.writing op) (.ofLast last) (us ++ ts) (us ++ ts'))
    (hrest : ∀ b' : Builder, Awaits op P .value b' ts → b'.Marks P text ts) :
    b.Marks P text (us ++ ts) := by
  refine .of_append hrun (hrest _ (hb.next ?_ (fun _ _ _ _ => rfl) ?_ hus))
  · rw [hrun]
    exact hready
  · rw [hrun]
    refine hb.marked.add hp ?_
    intro l rest hitems hvalue _
    rw [hstart]
    exact hb.here hself l rest hitems hvalue

/-! ## The rules of a scope -/

theorem marks_silent {tok : Token} (hb : Awaits op P last b (tok :: ts))
    (htok : tok.isSilent = true)
    (hrest : ∀ b' : Builder, Awaits op P last b' ts → b'.Marks P text ts) :
    b.Marks P text (tok :: ts) := by
  have hsilent : isSilent [tok] = true := by simp [isSilent, htok]
  obtain ⟨n, hints, hrun⟩ := run_silent text b hsilent
  change Awaits op P last b ([tok] ++ ts) at hb
  change b.Marks P text ([tok] ++ ts)
  refine .of_append hrun (hrest _ (hb.next ?_ ?_ ?_ ?_))
  · rw [hrun]
    exact hb.ready
  · rw [hrun]
    exact hb.afterValue
  · rw [hrun]
    exact hb.marked
  · exact fun ts' h => .silent (Before.ofLast_ne_written last) htok h

theorem marks_number {n : Text} (hb : Awaits op P last b (.number n :: ts))
    (hself : Rewrites (.writing op) .value ts ts)
    (hrest : ∀ b' : Builder, Awaits op P .value b' ts → b'.Marks P text ts) :
    b.Marks P text (.number n :: ts) := by
  change Awaits op P last b ([Token.number n] ++ ts) at hb
  change b.Marks P text ([Token.number n] ++ ts)
  rcases push_number_or ⟨b.position, n⟩ b.items with ⟨o, sign, -, -, -, hpush⟩ | ⟨-, hpush⟩
  · refine .of_append rfl (hrest _ (hb.next ?_ (fun _ _ _ _ => rfl) ?_ fun ts' h => .number h))
    · exact ready_push_number _ _
    · change AllMarked P (push _ _).reverse
      rw [hpush]
      exact allMarked_number _
  · have hrun : b.run text [.number n] = { b with
        position := b.position + n.length
        items := .number ⟨b.position, n⟩ :: b.items } := by
      rw [run_singleton, step, take, hpush]
      rfl
    exact hb.add_value hrun (.number hself) rfl (ready_number _ _) (allMarked_number _)
      (fun ts' h => .number h) hrest

theorem marks_symbol {s : Symbol} {w : Text} (hb : Awaits op P last b (.symbol s w :: ts))
    (hs : s.isCallable = false)
    (hself : Rewrites (.writing op) .written (.symbol s w :: ts) (.symbol s w :: ts))
    (hus : ∀ ts', Rewrites (.writing op) .value ts ts' →
      Rewrites (.writing op) (.ofLast last) (.symbol s w :: ts) (.symbol s w :: ts'))
    (hrest : ∀ b' : Builder, Awaits op P .value b' ts → b'.Marks P text ts) :
    b.Marks P text (.symbol s w :: ts) := by
  have hrun : b.run text [.symbol s w] = _ := step_symbol b s w
  change Awaits op P last b ([Token.symbol s w] ++ ts) at hb
  refine hb.add_value hrun hself ?_ (ready_ofSymbol hs _ _) (allMarked_ofSymbol _ _) hus hrest
  rw [Part.start, Part.excerpt_ofSymbol]

theorem marks_operator {o : Operator} {w : Text} {lacking : Bool}
    (hb : Awaits op P last b (.symbol (.operator o) w :: ts))
    (hrest : ∀ b' : Builder, Awaits op P (.operator lacking) b' ts → b'.Marks P text ts) :
    b.Marks P text (.symbol (.operator o) w :: ts) := by
  have hrun : b.run text [.symbol (.operator o) w] = _ := step_symbol b (.operator o) w
  change Awaits op P last b ([Token.symbol (.operator o) w] ++ ts) at hb
  change b.Marks P text ([Token.symbol (.operator o) w] ++ ts)
  refine .of_append hrun (hrest _ (hb.next ?_ ?_ ?_
    fun ts' h => .operator (Before.ofLast_ne_written last) h))
  · rw [hrun]
    exact ready_ofSymbol rfl _ _
  · rw [hrun]
    rintro l rest heq hvalue
    obtain ⟨rfl, -⟩ := List.cons.inj heq
    cases hvalue
  · rw [hrun]
    exact hb.marked.add (allMarked_ofSymbol _ _) fun _ _ _ _ hvalue => by cases hvalue

theorem marks_group {inner : List Token}
    (hb : Awaits op P last b ([Token.opening] ++ inner ++ [Token.closing] ++ ts))
    (hselfInner : Rewrites (.writing op) .other inner inner)
    (hself : Rewrites (.writing op) .value ts ts)
    (hinner : ∀ b' : Builder, Awaits op P .nothing b' inner → b'.Marks P text inner)
    (hrest : ∀ b' : Builder, Awaits op P .value b' ts → b'.Marks P text ts) :
    b.Marks P text ([Token.opening] ++ inner ++ [Token.closing] ++ ts) := by
  have hopened : b.run text [.opening] = _ := step_opening hb.ready
  have hawaits : Awaits op P .nothing (b.run text [.opening]) inner := by
    refine awaits_nil (by rw [hopened]) ?_
    intro n hcut
    have hgroup := hb.cuts _ (hcut.group hself)
    rwa [← Nat.add_assoc] at hgroup
  obtain ⟨n, items, hints, hrun, hmarked⟩ := hinner _ hawaits
  have hclosed := run_group hb.ready hrun
  exact hb.add_value hclosed (.group hselfInner hself) rfl (ready_group _ _ _) (hmarked.group _)
    (fun ts' h => .group hselfInner h) hrest

/-- The slots of a call are completed, and the call is closed. -/
theorem marks_slots {first : List Token} {more : List (List Token)}
    (hself : ∀ slot ∈ first :: more, Rewrites (.writing op) .other slot slot)
    (hslots : ∀ slot ∈ first :: more, ∀ b' : Builder, Awaits op P .nothing b' slot →
      b'.Marks P text slot)
    {f : Operation} {name : Excerpt} {slots : List Slot} {slotStart opened : Nat}
    {before : List Part} {outer : List Frame} (hitems : b.items = [])
    (hframes : b.frames = ⟨.call f name slots slotStart, opened, before⟩ :: outer)
    (hdone : ∀ s ∈ slots, AllMarked P s.items)
    (hcuts : ∀ n, CutsSlots op first more n → P (b.position + n)) :
    ∃ n closed hints, b.run text (commaJoin first more ++ [Token.closing]) = { b with
        position := n
        items := .call f name closed :: before
        frames := outer
        hints := hints } ∧
      closed ≠ [] ∧ ∀ s ∈ closed, AllMarked P s.items := by
  induction more generalizing first b slots slotStart with
  | nil =>
    obtain ⟨n, items, hints, hrun, hmarked⟩ := hslots first List.mem_cons_self b
      (awaits_nil hitems fun n hcut => hcuts n (hcut.first (by simp)))
    refine ⟨n + 1, (.mk ⟨slotStart, text.slice slotStart n⟩ items.reverse :: slots).reverse, hints,
      ?_, by simp, ?_⟩
    · simpa only [commaJoin, List.flatMap_nil, List.append_nil] using run_slot_closing hframes hrun
    · simp only [List.mem_reverse, List.forall_mem_cons]
      exact ⟨hmarked, hdone⟩
  | cons next more ih =>
    obtain ⟨hselfFirst, hselfMore⟩ := List.forall_mem_cons.1 hself
    obtain ⟨-, hmore⟩ := List.forall_mem_cons.1 hslots
    obtain ⟨n, items, hints, hrun, hmarked⟩ := hslots first List.mem_cons_self b
      (awaits_nil hitems fun n hcut => hcuts n (hcut.first hselfMore))
    have hcomma := run_slot_comma hframes hrun
    have hempty : (b.run text (first ++ [Token.comma])).items = [] := by rw [hcomma]
    have hdone' : ∀ s ∈ .mk ⟨slotStart, text.slice slotStart n⟩ items.reverse :: slots,
        AllMarked P s.items := List.forall_mem_cons.2 ⟨hmarked, hdone⟩
    have hcuts' : ∀ n, CutsSlots op next more n →
        P ((b.run text (first ++ [Token.comma])).position + n) := by
      intro n hcut
      have hlater := hcuts _ (hcut.later hselfFirst)
      simpa [position_run, Token.text, Nat.add_assoc] using hlater
    obtain ⟨m, closed, hints', hlast, hne, hclosed⟩ :=
      ih hselfMore hmore hempty (by rw [hcomma]) hdone' hcuts'
    have hsplit : commaJoin first (next :: more) ++ [Token.closing] =
        first ++ [Token.comma] ++ (commaJoin next more ++ [Token.closing]) := by simp [commaJoin]
    exact ⟨m, closed, hints', by rw [hsplit, run_append, hlast, hcomma], hne, hclosed⟩

theorem marks_call {f : Operation} {w : Text} {gap first : List Token}
    {more : List (List Token)}
    (hb : Awaits op P last b ([Token.symbol (.function f) w] ++ gap ++ [Token.opening] ++
      commaJoin first more ++ [Token.closing] ++ ts))
    (hgap : isSilent gap = true)
    (hselfSlots : ∀ slot ∈ first :: more, Rewrites (.writing op) .other slot slot)
    (hself : Rewrites (.writing op) .value ts ts)
    (hslots : ∀ slot ∈ first :: more, ∀ b' : Builder, Awaits op P .nothing b' slot →
      b'.Marks P text slot)
    (hrest : ∀ b' : Builder, Awaits op P .value b' ts → b'.Marks P text ts) :
    b.Marks P text ([Token.symbol (.function f) w] ++ gap ++ [Token.opening] ++
      commaJoin first more ++ [Token.closing] ++ ts) := by
  obtain ⟨q, hints, hopened⟩ := run_opening text b f w hgap
  have hempty :
      (b.run text ([Token.symbol (.function f) w] ++ gap ++ [Token.opening])).items = [] := by
    rw [hopened]
  have hcuts : ∀ n, CutsSlots op first more n →
      P ((b.run text ([Token.symbol (.function f) w] ++ gap ++ [Token.opening])).position + n) := by
    intro n hcut
    rw [position_run, Nat.add_assoc]
    exact hb.cuts _ (hcut.call hgap hself)
  obtain ⟨n, closed, hints', hrun, hne, hmarked⟩ :=
    marks_slots hselfSlots hslots hempty (by rw [hopened]) (by simp) hcuts
  have hclosed : b.run text ([Token.symbol (.function f) w] ++ gap ++ [Token.opening] ++
      commaJoin first more ++ [Token.closing]) = { b with
      position := n
      items := .call f ⟨b.position, w⟩ closed :: b.items
      hints := hints' } := by
    rw [List.append_assoc _ _ [Token.closing], run_append, hrun, hopened]
  exact hb.add_value hclosed (rewrites_call_self hgap hselfSlots hself) rfl
    (ready_call _ _ hne _) (allMarked_call hmarked _ _)
    (fun ts' h => rewrites_call_self hgap hselfSlots h) hrest

/-- **The statement holds of every value after a value** in the lists that the tokens of a scope
lead to. -/
theorem marks_of_scope {g : Grammar} (h : Scope g last ts) :
    ∀ b : Builder, Awaits op P last b ts → b.Marks P text ts := by
  induction h with
  | nil => exact fun b hb => ⟨b.position, b.items, b.hints, rfl, hb.marked⟩
  | silent htok rest ih => exact fun b hb => marks_silent hb htok ih
  | number rest ih => exact fun b hb => marks_number hb (rest.rewrites_self (by decide)) ih
  | constant rest ih =>
    exact fun b hb => marks_symbol hb rfl (.constant (rest.rewrites_self (by decide)))
      (fun ts' h => .constant h) ih
  | free rest ih =>
    exact fun b hb => marks_symbol hb rfl (.free rfl (rest.rewrites_self (by decide)))
      (fun ts' h => .free rfl h) ih
  | operator hleft rest ih => exact fun b hb => marks_operator hb ih
  | group hinner rest ihinner ih =>
    exact fun b hb => marks_group hb (hinner.rewrites_self (by decide))
      (rest.rewrites_self (by decide)) ihinner ih
  | call hgap hslots hallows rest ihslots ih =>
    exact fun b hb => marks_call hb hgap
      (fun slot hslot => (hslots slot hslot).rewrites_self (by decide))
      (rest.rewrites_self (by decide)) ihslots ih

end Builder

/-! ## Whole formulas -/

/-- **The tokens can be cut between neighbouring values**, at the position of the right one. -/
theorem cuts_of_neighbours {t : Text} (hclean : (parse .standard t).isClean = true)
    {before after : List Part} {l q : Part}
    (hl : SiblingList (parse .standard t).items (before ++ l :: q :: after))
    (hleft : l.isOperator = false) (hright : q.isOperator = false) :
    Cuts op .other (tokens .standard t) q.start := by
  have hscope := (isClean_parse_iff_scope minusStandsAlone_standard t).1 hclean
  have hawaits : Builder.Awaits op (Cuts op .other (tokens .standard t)) .nothing .empty
      (tokens .standard t) := by
    refine Builder.awaits_nil rfl ?_
    intro n hcut
    have hzero : Builder.empty.position + n = n := Nat.zero_add n
    rwa [hzero]
  have hmarks : Builder.empty.Marks _ t (tokens .standard t) :=
    Builder.marks_of_scope hscope .empty hawaits
  obtain ⟨n, items, hints, hrun, hmarked⟩ := hmarks
  rw [items_parse_of_frames (by rw [hrun]; rfl), hrun] at hl
  exact hmarked _ hl before l q after rfl hleft hright

end Formula

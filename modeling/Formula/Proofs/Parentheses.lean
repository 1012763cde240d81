import Formula.Proofs.WellFormed

/-!
# Parentheses that are reported and parentheses that delimit

The parentheses that are reported are those that the matching of the text leaves over, and each pair
that it finds delimits one group or the slots of one call.

That a part ends where its parenthesis is closed is known, since trees are well formed.  It is left
to count the parts that begin at a parenthesis: an opening parenthesis begins exactly one
(`openings_parse`).
-/

namespace Formula

variable {text read : Text} {r : Registry}

/-- The position of the parenthesis that opens a part: of a call, the one before its first slot. -/
def Part.opening? : Part → Option Nat
  | .group e _ => some e.start
  | .call _ _ slots => slots.head?.map (·.excerpt.start - 1)
  | _ => none

/-- The opening parentheses of the parts of a sibling list. -/
def openings (items : List Part) : List Nat :=
  (walkAll items).filterMap Part.opening?

/-- The opening parentheses of the parts in slots. -/
def slotOpenings (slots : List Slot) : List Nat :=
  (walkSlots slots).filterMap Part.opening?

@[simp] theorem openings_nil : openings [] = [] := rfl

@[simp] theorem openings_append (xs ys : List Part) :
    openings (xs ++ ys) = openings xs ++ openings ys := by
  simp [openings]

@[simp] theorem openings_number (e : Excerpt) : openings [.number e] = [] := by
  simp [openings, walkAll, Part.walk, Part.opening?]

@[simp] theorem openings_ofSymbol (s : Symbol) (e : Excerpt) : openings [.ofSymbol s e] = [] := by
  cases s <;> simp [Part.ofSymbol, openings, walkAll, walkSlots, Part.walk, Part.opening?]

@[simp] theorem openings_group (e : Excerpt) (items : List Part) :
    openings [.group e items] = e.start :: openings items := by
  simp [openings, walkAll, Part.walk, Part.opening?]

theorem openings_call (f : Operation) (e : Excerpt) {first : Slot} {slots : List Slot}
    {o : Nat} (hfirst : first.excerpt.start = o + 1) :
    openings [.call f e (first :: slots)] = o :: slotOpenings (first :: slots) := by
  simp [openings, slotOpenings, walkAll, Part.walk, Part.opening?, hfirst]

@[simp] theorem slotOpenings_nil : slotOpenings [] = [] := rfl

@[simp] theorem slotOpenings_concat (slots : List Slot) (e : Excerpt) (items : List Part) :
    slotOpenings (slots ++ [Slot.mk e items]) = slotOpenings slots ++ openings items := by
  simp [slotOpenings, openings, walkSlots, Slot.walk]

/-- The opening parentheses in the complete slots of an open parenthesis. -/
def Bracket.openings : Bracket → List Nat
  | group => []
  | call _ _ slots _ => slotOpenings slots.reverse

/-- The opening parentheses before, at and after open parentheses. -/
def frameOpenings : List Frame → List Nat
  | [] => []
  | f :: outer =>
    frameOpenings outer ++ openings f.before.reverse ++ f.position :: f.bracket.openings

/-- The slots of a call begin right after its parenthesis. -/
theorem SlotsUpTo.exists_first {start next : Nat} {slots : List Slot} {last : Slot}
    (h : SlotsUpTo text start slots next) (hlast : last.excerpt.start = next) :
    ∃ first more, slots ++ [last] = first :: more ∧ first.excerpt.start = start := by
  cases slots with
  | nil => exact ⟨last, [], rfl, hlast.trans h.symm⟩
  | cons first slots => exact ⟨first, slots ++ [last], rfl, h.1⟩

namespace Builder

variable {b : Builder} {tok : Token} {more : Text}

/-- The opening parentheses of what has been built so far. -/
def openings (b : Builder) : List Nat :=
  frameOpenings b.frames ++ Formula.openings b.items.reverse

/-- Closing a parenthesis keeps the opening ones. -/
theorem openings_close {f : Frame} (hf : f.Laid text) (items : List Part) (inner outer : Nat) :
    Formula.openings (close text f items inner outer).reverse =
      Formula.openings f.before.reverse ++ f.position :: f.bracket.openings ++
        Formula.openings items.reverse := by
  obtain ⟨bracket, position, before⟩ := f
  cases bracket with
  | group => simp [close, Bracket.openings]
  | call g name slots slotStart =>
    obtain ⟨-, hslots, -⟩ := hf
    obtain ⟨first, more, heq, hfirst⟩ : ∃ first more,
        slots.reverse ++ [Slot.mk ⟨slotStart, text.slice slotStart inner⟩ items.reverse] =
          first :: more ∧ first.excerpt.start = position + 1 := hslots.exists_first rfl
    rw [close, List.reverse_cons, openings_append]
    dsimp only
    rw [List.reverse_cons, heq, openings_call g name hfirst, ← heq, slotOpenings_concat,
      Bracket.openings]
    simp

/-- Closing the parentheses that are open at the end keeps the opening ones. -/
theorem openings_finish (hframes : ∀ f ∈ b.frames, f.Laid text) :
    Formula.openings (b.finish text) = b.openings := by
  obtain ⟨position, items, frames, errors, hints⟩ := b
  simp only [finish, openings]
  induction frames generalizing items with
  | nil => rfl
  | cons f outer ih =>
    obtain ⟨hf, houter⟩ := List.forall_mem_cons.1 hframes
    rw [closeAll, ih _ houter, openings_close hf, frameOpenings]
    simp

/-- An opening parenthesis that no function name waits for. -/
theorem openings_opening (hready : Ready b.items) :
    (b.step text .opening).openings = b.openings ++ [b.position] := by
  rw [step_opening hready]
  simp [openings, frameOpenings, Bracket.openings]

theorem openings_closing (hframes : ∀ f ∈ b.frames, f.Laid text) :
    (b.step text .closing).openings = b.openings := by
  simp only [openings, step, take, closeBracket]
  split
  · rfl
  · rename_i f outer heq
    have hf := hframes f (heq ▸ List.mem_cons_self)
    rw [openings_close hf, heq, frameOpenings]
    simp

theorem openings_comma (b : Builder) : (b.step text .comma).openings = b.openings := by
  simp only [openings, step, take, separate]
  split
  · rename_i f name slots slotStart opened before outer heq
    simp [heq, frameOpenings, Bracket.openings]
  · rfl

theorem openings_push {p : Part} (hp : Formula.openings [p] = []) (items : List Part) :
    Formula.openings (push p items).reverse = Formula.openings items.reverse := by
  rcases push_eq_or p items with h | ⟨e, op, sign, -, hitems, -, -, h⟩
  · rw [h, List.reverse_cons, openings_append, hp, List.append_nil]
  · rw [h, hitems]
    exact (openings_ofSymbol (.operator op) sign).symm

/-- **Only opening parentheses are new.** -/
theorem openings_step (hframes : ∀ f ∈ b.frames, f.Laid text) (htok : tok ≠ .opening) :
    (b.step text tok).openings = b.openings := by
  cases tok with
  | opening => exact absurd rfl htok
  | closing => exact openings_closing hframes
  | comma => exact openings_comma b
  | number t =>
    simp only [openings, step, take]
    rw [openings_push (openings_number _)]
  | symbol s t =>
    simp only [openings, step, take]
    rw [openings_push (openings_ofSymbol s _)]
  | blank | unknown | repeatedPoint | uncalled => rfl

/-- A function name and its parenthesis. -/
theorem openings_run_call {f : Operation} {w after : Text} {gap : List Token}
    (h : b.Laid text read) (hgap : isSilent gap = true)
    (hfits : InContext (Token.Fits r) after
      ([Token.symbol (.function f) w] ++ gap ++ [Token.opening])) :
    (b.run text ([Token.symbol (.function f) w] ++ gap ++ [Token.opening])).openings =
      b.openings ++ [(read ++ w ++ gap.flatMap Token.text).length] := by
  obtain ⟨n, hints, hrun⟩ := run_opening text b f w hgap
  have hfollows : (b.run text _).Follows _ := follows_run h.follows hfits
  have hposition := hfollows.position
  rw [hrun] at hposition ⊢
  have hn : n = (read ++ w ++ gap.flatMap Token.text).length := by
    simp only [List.flatMap_append, List.flatMap_singleton, Token.text, List.length_append,
      List.length_singleton] at hposition ⊢
    omega
  rw [← hn]
  simp [openings, frameOpenings, Bracket.openings]

end Builder

/-! ## Whole formulas -/

/-- The positions of the opening parentheses of a text. -/
def openingPositions (t : Text) : List Nat := t.findIdxs (· = '(')

theorem openingPositions_append_of_forall {t : Text} (h : ∀ c ∈ t, c ≠ '(') :
    openingPositions (read ++ t) = openingPositions read := by
  have hnil : t.findIdxs (· = '(') (0 + read.length) = [] :=
    List.findIdxs_eq_nil_iff.2 fun c hc => by simpa using h c hc
  rw [openingPositions, List.findIdxs_append, hnil, List.append_nil, openingPositions]

theorem openingPositions_concat (t : Text) :
    openingPositions (t ++ ['(']) = openingPositions t ++ [t.length] := by
  simp [openingPositions, List.findIdxs_append]

/-- **The parts begin at the opening parentheses of the text**, each at one, in the same order. -/
theorem openings_parse (r : Registry) (text : Text) :
    openings (parse r text).items = openingPositions text := by
  have htext : text = [] ++ (tokens r text).flatMap Token.text := by
    rw [text_tokens, List.nil_append]
  have hlaid := Builder.laid_tokens r text
  have hfinish : openings ((Builder.empty.run text (tokens r text)).finish text) =
      (Builder.empty.run text (tokens r text)).openings :=
    Builder.openings_finish fun f hf => (hlaid.frames f hf).1
  have hrun := Builder.run_induction (motive := fun read b => b.openings = openingPositions read)
    ?_ ?_ (tokens r text) (fits_tokens r text) .empty [] (Builder.laid_empty text) ready_nil htext
    rfl
  · exact hfinish.trans hrun.2
  · intro b read more following tok h hready htok hfits htext hmotive
    by_cases hopening : tok = .opening
    · subst hopening
      rw [Builder.openings_opening hready, hmotive, Token.text, openingPositions_concat,
        h.follows.position]
    · have hnone : ∀ c ∈ tok.text, c ≠ '(' := by
        by_cases hclosing : tok = .closing
        · subst hclosing
          simp [Token.text]
        · exact fun c hc => (Matching.ne_parentheses_of_fits hfits hopening hclosing c hc).1
      rw [Builder.openings_step (fun f hf => (h.frames f hf).1) hopening, hmotive,
        openingPositions_append_of_forall hnone]
  · intro b read after f w gap h hgap hfits hmotive
    obtain ⟨hname, hgapfits⟩ := inContext_append.1 (inContext_append.1 hfits).1
    have hnone : ∀ c ∈ w ++ gap.flatMap Token.text, c ≠ '(' := by
      refine List.forall_mem_append.2 ⟨?_, ?_⟩
      · exact fun c hc => (Matching.ne_parentheses_of_fits hname.1 (by simp) (by simp) c hc).1
      · intro c hc
        have hblank := isBlank_of_isSilent hgap hgapfits c hc
        rintro rfl
        cases hblank
    rw [Builder.openings_run_call h hgap hfits, hmotive]
    simp only [List.flatMap_append, List.flatMap_singleton, Token.text]
    rw [← List.append_assoc, openingPositions_concat, openingPositions_append_of_forall hnone,
      List.append_assoc]

/-! ## What pairs delimit -/

/-- Whether a part is a group from the parenthesis at `o` to the one at `c`, or a call whose slots
fill what is between them. -/
def Part.delimitedBy (o c : Nat) : Part → Bool
  | .group e _ => e.start = o && e.stop = c + 1
  | .call _ _ slots =>
    slots.head?.any (·.excerpt.start = o + 1) && slots.getLast?.any (·.excerpt.stop = c)
  | _ => false

theorem SlotsFill.head_getLast {start stop : Nat} {slots : List Slot}
    (h : SlotsFill text start stop slots) :
    (∃ s, slots.head? = some s ∧ s.excerpt.start = start) ∧
      ∃ s, slots.getLast? = some s ∧ s.excerpt.stop = stop := by
  obtain ⟨init, last, rfl, hslots, hstop⟩ := h
  obtain ⟨first, more, heq, hfirst⟩ := hslots.exists_first rfl
  exact ⟨⟨first, by rw [heq, List.head?_cons], hfirst⟩, last, List.getLast?_concat .., hstop⟩

/-- A parenthesis is closed in one place. -/
theorem EndsAt.eq_of_mem_pairs {o c n : Nat} (h : EndsAt text o c)
    (hpair : (o, n) ∈ (Matching.of text).pairs) : c = n := by
  obtain ⟨-, h | ⟨h, -⟩⟩ := h
  · exact Matching.eq_of_mem_pairs h hpair
  · exact absurd h (Matching.not_mem_opened hpair)

/-- A part is what is between two parentheses that match if it begins at the opening one. -/
theorem delimitedBy_iff {p : Part} (h : p ∈ walkAll (parse r text).items) {o c : Nat}
    (hpair : (o, c) ∈ (Matching.of text).pairs) :
    p.delimitedBy o c = true ↔ p.opening? = some o := by
  have hlaid := laid_parse h
  obtain ⟨hlt, -, hc⟩ := (Matching.placed_of text).pairs o c hpair
  have hlength := (List.getElem?_eq_some_iff.1 hc).1
  cases p with
  | number | operator | constant | free => simp [Part.delimitedBy, Part.opening?]
  | group e items =>
    obtain ⟨n, hends, htext⟩ := hlaid
    have hstop := (standsIn_group hends htext).1
    simp only [Part.delimitedBy, Part.opening?, Bool.and_eq_true, decide_eq_true_eq,
      Option.some.injEq]
    constructor
    · exact fun h => h.1
    · rintro rfl
      obtain rfl := hends.eq_of_mem_pairs hpair
      exact ⟨rfl, by omega⟩
  | call f name slots =>
    obtain ⟨⟨a, n, -, hends, hslots⟩, -⟩ := hlaid
    obtain ⟨⟨first, hfirst, hstart⟩, last, hlast, hstop⟩ := hslots.head_getLast
    simp only [Part.delimitedBy, Part.opening?, hfirst, hlast, Option.any_some, Option.map_some,
      hstart, hstop, Bool.and_eq_true, decide_eq_true_eq, Option.some.injEq, Nat.add_sub_cancel]
    constructor
    · rintro ⟨h, -⟩
      omega
    · rintro rfl
      exact ⟨rfl, hends.eq_of_mem_pairs hpair⟩

/-- **A pair delimits one part.** -/
theorem countP_delimitedBy {o c : Nat} (hpair : (o, c) ∈ (Matching.of text).pairs) :
    (walkAll (parse r text).items).countP (·.delimitedBy o c) = 1 := by
  have hopening := ((Matching.placed_of text).pairs o c hpair).2.1
  have hmem : o ∈ openingPositions text := by
    obtain ⟨hlt, hget⟩ := List.getElem?_eq_some_iff.1 hopening
    exact List.mem_findIdxs_iff_exists_getElem_pos.2 ⟨hlt, by simp [hget]⟩
  have hone : (openings (parse r text).items).count o = 1 := by
    rw [openings_parse]
    exact List.count_eq_one_of_mem List.nodup_findIdxs hmem
  rw [← hone, openings, List.count, List.countP_filterMap]
  refine List.countP_congr fun p hp => ?_
  rw [delimitedBy_iff hp hpair]
  cases p.opening? <;> simp

/-- **What is reported about parentheses is what matching them leaves over.**  The closing
parentheses that are reported are the stray ones, from left to right, and the opening ones are those
that are never closed, from right to left.  Every pair delimits one group or the slots of one call.
So nothing is reported just if the parentheses are balanced. -/
theorem parentheses_parse (r : Registry) (text : Text) :
    (parse r text).errors.filter (·.cause = .unmatchedClosing) =
      (Matching.of text).stray.map (⟨.unmatchedClosing, ·, 1⟩) ∧
    (Matching.of text).stray.Pairwise (· < ·) ∧
    (parse r text).errors.filter (·.cause = .unmatchedOpening) =
      (Matching.of text).opened.map (⟨.unmatchedOpening, ·, 1⟩) ∧
    (Matching.of text).opened.Pairwise (· > ·) ∧
    (∀ o c, (o, c) ∈ (Matching.of text).pairs →
      (walkAll (parse r text).items).countP (·.delimitedBy o c) = 1) ∧
    ((∀ e ∈ (parse r text).errors, e.cause ≠ .unmatchedClosing ∧ e.cause ≠ .unmatchedOpening) ↔
      BalancedParentheses text) := by
  have hclosing := filter_errors_unmatchedClosing r text
  have hopening := filter_errors_unmatchedOpening r text
  refine ⟨hclosing, Matching.pairwise_stray text, hopening, (Matching.placed_of text).ordered,
    fun o c hpair => countP_delimitedBy hpair, ?_⟩
  have hnone : ∀ cause, (∀ e ∈ (parse r text).errors, e.cause ≠ cause) ↔
      (parse r text).errors.filter (·.cause = cause) = [] := by
    intro cause
    rw [List.filter_eq_nil_iff]
    simp
  rw [Matching.balanced_iff, ← List.map_eq_nil_iff (l := (Matching.of text).stray), ← hclosing,
    ← List.map_eq_nil_iff (l := (Matching.of text).opened), ← hopening, ← hnone, ← hnone]
  exact ⟨fun h => ⟨fun e he => (h e he).1, fun e he => (h e he).2⟩,
    fun h e he => ⟨h.1 e he, h.2 e he⟩⟩

end Formula

import Formula.Part.Outline
import Formula.Proofs.Part.Leaves
import Formula.Proofs.Part.SiblingLists

/-!
# Relabelled trees

A *relabelling* moves the positions of a text and changes its characters.  It carries over to all
that speaks of the text: parts and slots, rows of the outline, tokens, errors and hints.  Symbols
stay what they are, and so do the shape of a tree and the number of arguments.

A word changes character by character.  What is written in a group or a slot may hold blanks, of
which there may be more or fewer afterwards, so a relabelling says what is written there.
-/

namespace Formula

/-- What becomes of the positions and the characters of a text. -/
structure Relabelling where
  /-- Where a position goes. -/
  position : Nat → Nat
  /-- What becomes of a character in a word. -/
  letter : Char → Char
  /-- What is written afterwards in a group or a slot. -/
  content : Excerpt → Text

namespace Relabelling

/-- A word afterwards. -/
def word (R : Relabelling) (e : Excerpt) : Excerpt := ⟨R.position e.start, e.text.map R.letter⟩

/-- A group or a slot afterwards. -/
def area (R : Relabelling) (e : Excerpt) : Excerpt := ⟨R.position e.start, R.content e⟩

/-- One relabelling after another. -/
def comp (S R : Relabelling) : Relabelling where
  position := S.position ∘ R.position
  letter := S.letter ∘ R.letter
  content e := S.content (R.area e)

end Relabelling

mutual

/-- A part afterwards. -/
def Part.relabel (R : Relabelling) : Part → Part
  | .number e => .number (R.word e)
  | .operator op e => .operator op (R.word e)
  | .constant literal expression e => .constant literal expression (R.word e)
  | .free literal e => .free literal (R.word e)
  | .group e items => .group (R.area e) (relabelAll R items)
  | .call f e slots => .call f (R.word e) (relabelSlots R slots)

/-- A slot afterwards. -/
def Slot.relabel (R : Relabelling) : Slot → Slot
  | .mk e items => .mk (R.area e) (relabelAll R items)

/-- The parts of a list afterwards. -/
def relabelAll (R : Relabelling) : List Part → List Part
  | [] => []
  | p :: ps => p.relabel R :: relabelAll R ps

/-- The slots of a call afterwards. -/
def relabelSlots (R : Relabelling) : List Slot → List Slot
  | [] => []
  | s :: ss => s.relabel R :: relabelSlots R ss

end

variable {R S : Relabelling}

theorem relabelAll_eq_map (R : Relabelling) (items : List Part) :
    relabelAll R items = items.map (Part.relabel R) := by
  induction items with
  | nil => rw [relabelAll, List.map_nil]
  | cons p items ih => rw [relabelAll, ih, List.map_cons]

theorem relabelSlots_eq_map (R : Relabelling) (slots : List Slot) :
    relabelSlots R slots = slots.map (Slot.relabel R) := by
  induction slots with
  | nil => rw [relabelSlots, List.map_nil]
  | cons s slots ih => rw [relabelSlots, ih, List.map_cons]

@[simp] theorem relabelAll_reverse (items : List Part) :
    relabelAll R items.reverse = (relabelAll R items).reverse := by
  rw [relabelAll_eq_map, relabelAll_eq_map, List.map_reverse]

@[simp] theorem relabelSlots_reverse (slots : List Slot) :
    relabelSlots R slots.reverse = (relabelSlots R slots).reverse := by
  rw [relabelSlots_eq_map, relabelSlots_eq_map, List.map_reverse]

@[simp] theorem isEmpty_relabelAll (items : List Part) :
    (relabelAll R items).isEmpty = items.isEmpty := by
  simp [relabelAll_eq_map]

@[simp] theorem isOperator_relabel (p : Part) : (p.relabel R).isOperator = p.isOperator := by
  cases p <;> simp [Part.relabel, Part.isOperator]

@[simp] theorem operation?_relabel (p : Part) : (p.relabel R).operation? = p.operation? := by
  cases p <;> simp [Part.relabel, Part.operation?]

@[simp] theorem freeName?_relabel (p : Part) : (p.relabel R).freeName? = p.freeName? := by
  cases p <;> simp [Part.relabel, Part.freeName?]

@[simp] theorem start_relabel (p : Part) : (p.relabel R).start = R.position p.start := by
  cases p <;> rw [Part.relabel] <;> rfl

theorem excerpt_relabel_slot (s : Slot) : (s.relabel R).excerpt = R.area s.excerpt := by
  cases s
  rw [Slot.relabel]
  rfl

@[simp] theorem isEmpty_relabel (s : Slot) : (s.relabel R).isEmpty = s.isEmpty := by
  obtain ⟨e, items⟩ := s
  simp [Slot.relabel, Slot.isEmpty, Slot.items]

theorem relabel_ofSymbol (s : Symbol) (e : Excerpt) :
    (Part.ofSymbol s e).relabel R = .ofSymbol s (R.word e) := by
  cases s <;> simp [Part.ofSymbol, Part.relabel, relabelSlots]

@[simp] theorem suppliedArguments_relabelSlots (slots : List Slot) :
    suppliedArguments (relabelSlots R slots) = suppliedArguments slots := by
  rw [relabelSlots_eq_map]
  match slots with
  | [] => rfl
  | [s] => simp [suppliedArguments]
  | _ :: _ :: _ => simp [suppliedArguments]

theorem walkAll_map_relabel {items : List Part}
    (h : ∀ p ∈ items, (p.relabel R).walk = p.walk.map (Part.relabel R)) :
    walkAll (relabelAll R items) = (walkAll items).map (Part.relabel R) := by
  induction items with
  | nil => simp [relabelAll, walkAll]
  | cons p items ih =>
    obtain ⟨hp, hitems⟩ := List.forall_mem_cons.1 h
    rw [relabelAll, walkAll_cons, walkAll_cons, List.map_append, hp, ih hitems]

theorem walk_relabel (p : Part) : (p.relabel R).walk = p.walk.map (Part.relabel R) := by
  induction p using Part.induction with
  | group e items ih =>
    rw [Part.relabel, Part.walk, Part.walk, List.map_cons, walkAll_map_relabel ih, Part.relabel]
  | call f e slots ih =>
    have hslots : walkSlots (relabelSlots R slots) = (walkSlots slots).map (Part.relabel R) := by
      induction slots with
      | nil => simp [relabelSlots, walkSlots]
      | cons s slots ihslots =>
        obtain ⟨hs, hslots⟩ := List.forall_mem_cons.1 ih
        have hitems : (s.relabel R).items = relabelAll R s.items := by
          cases s
          rw [Slot.relabel]
          rfl
        rw [relabelSlots, walkSlots_cons, walkSlots_cons, List.map_append, hitems,
          walkAll_map_relabel hs, ihslots hslots]
    rw [Part.relabel, Part.walk, Part.walk, List.map_cons, hslots, Part.relabel]
  | number | operator | constant | free => simp [Part.relabel, Part.walk]

/-- **The parts of a relabelled tree** are the relabelled parts. -/
theorem walkAll_relabelAll (R : Relabelling) (items : List Part) :
    walkAll (relabelAll R items) = (walkAll items).map (Part.relabel R) :=
  walkAll_map_relabel fun p _ => walk_relabel p

theorem relabel_relabel (p : Part) : (p.relabel R).relabel S = p.relabel (S.comp R) := by
  have hword : ∀ e, S.word (R.word e) = (S.comp R).word e := by
    intro e
    simp [Relabelling.word, Relabelling.comp]
  induction p using Part.induction with
  | group e items ih =>
    have hitems : relabelAll S (relabelAll R items) = relabelAll (S.comp R) items := by
      simpa [relabelAll_eq_map] using ih
    rw [Part.relabel, Part.relabel, Part.relabel, hitems]
    rfl
  | call f e slots ih =>
    have hslots : relabelSlots S (relabelSlots R slots) = relabelSlots (S.comp R) slots := by
      rw [relabelSlots_eq_map, relabelSlots_eq_map, relabelSlots_eq_map, List.map_map]
      refine List.map_congr_left fun s hs => ?_
      obtain ⟨a, items⟩ := s
      have hitems : relabelAll S (relabelAll R items) = relabelAll (S.comp R) items := by
        simpa [relabelAll_eq_map, Slot.items] using ih _ hs
      rw [Function.comp_apply, Slot.relabel, Slot.relabel, Slot.relabel, hitems]
      rfl
    rw [Part.relabel, Part.relabel, Part.relabel, hword, hslots]
  | number e | operator op e | constant literal expression e | free literal e =>
    rw [Part.relabel, Part.relabel, Part.relabel, hword]

/-- **One relabelling after another** is a relabelling. -/
theorem relabelAll_relabelAll (items : List Part) :
    relabelAll S (relabelAll R items) = relabelAll (S.comp R) items := by
  rw [relabelAll_eq_map, relabelAll_eq_map, relabelAll_eq_map, List.map_map]
  exact List.map_congr_left fun p _ => relabel_relabel p

/-- A row of the outline afterwards. -/
def Row.relabel (R : Relabelling) (row : Row) : Row :=
  { row with
    written := match row.kind with
      | .group | .argument => R.area row.written
      | _ => R.word row.written }

/-- A relabelling that moves the end of a slot as it moves other positions, so that it knows where
the comma after the slot is. -/
structure Relabelling.KeepsCommas (R : Relabelling) : Prop where
  /-- Slots end where they should. -/
  stop : ∀ e, (R.area e).stop = R.position e.stop
  /-- A comma is a comma. -/
  comma : R.letter ',' = ','

theorem rowsOf_map_relabel {items : List Part}
    (h : ∀ p ∈ items, ∀ depth operands,
      (p.relabel R).rows depth operands = (p.rows depth operands).map (Row.relabel R))
    (depth : Nat) (hasLeft : Bool) :
    rowsOf depth hasLeft (relabelAll R items) =
      (rowsOf depth hasLeft items).map (Row.relabel R) := by
  induction items generalizing hasLeft with
  | nil => simp [relabelAll, rowsOf]
  | cons p items ih =>
    obtain ⟨hp, hitems⟩ := List.forall_mem_cons.1 h
    rw [relabelAll, rowsOf, rowsOf, List.map_append, hp, ih hitems, isOperator_relabel,
      isEmpty_relabelAll]

theorem slotRows_map_relabel (hR : R.KeepsCommas) {slots : List Slot}
    (h : ∀ s ∈ slots, ∀ p ∈ s.items, ∀ depth operands,
      (p.relabel R).rows depth operands = (p.rows depth operands).map (Row.relabel R))
    (depth : Nat) :
    slotRows depth (relabelSlots R slots) = (slotRows depth slots).map (Row.relabel R) := by
  induction slots with
  | nil => simp [relabelSlots, slotRows]
  | cons s slots ih =>
    obtain ⟨e, items⟩ := s
    obtain ⟨hs, hslots⟩ := List.forall_mem_cons.1 h
    have hrows : rowsOf (depth + 1) false (relabelAll R items) =
        (rowsOf (depth + 1) false items).map (Row.relabel R) :=
      rowsOf_map_relabel hs (depth + 1) false
    have hempty : (relabelSlots R slots).isEmpty = slots.isEmpty := by simp [relabelSlots_eq_map]
    rw [relabelSlots, slotRows, slotRows, List.map_append, List.map_append, ih hslots, hempty,
      excerpt_relabel_slot, hR.stop, Slot.relabel, Slot.rows, Slot.rows, List.map_cons, ← hrows]
    cases slots <;> simp [Row.relabel, Relabelling.word, hR.comma]

theorem rows_relabel (hR : R.KeepsCommas) (p : Part) (depth operands : Nat) :
    (p.relabel R).rows depth operands = (p.rows depth operands).map (Row.relabel R) := by
  induction p using Part.induction generalizing depth operands with
  | group e items ih =>
    rw [Part.relabel, Part.rows, Part.rows, List.map_cons, rowsOf_map_relabel ih]
    rfl
  | call f e slots ih =>
    rw [Part.relabel, Part.rows, Part.rows, List.map_cons, slotRows_map_relabel hR ih,
      suppliedArguments_relabelSlots]
    simp [Row.relabel, relabelSlots_eq_map]
  | number | operator | constant | free => simp [Part.relabel, Part.rows, Row.relabel]

/-- **The outline of a relabelled tree** has the relabelled rows. -/
theorem rowsOf_relabelAll (hR : R.KeepsCommas) (depth : Nat) (hasLeft : Bool) (items : List Part) :
    rowsOf depth hasLeft (relabelAll R items) =
      (rowsOf depth hasLeft items).map (Row.relabel R) :=
  rowsOf_map_relabel (fun p _ => rows_relabel hR p) depth hasLeft

/-! ## Lists that are built -/

/-- What an open parenthesis begins, afterwards. -/
def Bracket.relabel (R : Relabelling) : Bracket → Bracket
  | group => group
  | call f name slots slotStart =>
    call f (R.word name) (relabelSlots R slots) (R.position slotStart)

/-- An open parenthesis afterwards. -/
def Frame.relabel (R : Relabelling) (f : Frame) : Frame :=
  ⟨f.bracket.relabel R, R.position f.position, relabelAll R f.before⟩

namespace Builder

theorem ready_relabelAll {items : List Part} (h : Ready items) : Ready (relabelAll R items) := by
  intro f name before hitems
  cases items with
  | nil => simp [relabelAll] at hitems
  | cons p items =>
    cases p with
    | call g e slots =>
      cases slots with
      | nil => exact h g e items rfl
      | cons s slots => simp [relabelAll, Part.relabel, relabelSlots] at hitems
    | _ => simp [relabelAll, Part.relabel] at hitems

/-- A number joins a minus sign afterwards just if it does so before. -/
theorem relabel_push_number {e : Excerpt} {items : List Part}
    (htouch : ∀ op sign, items = [.operator op sign] →
      ((R.word sign).stop = (R.word e).start ↔ sign.stop = e.start)) :
    relabelAll R (push (.number e) items) = push (.number (R.word e)) (relabelAll R items) := by
  match items with
  | [.operator op sign] =>
    have hjoins : (op.literal = ['-'] && (R.word sign).stop = (R.word e).start : Bool) =
        (op.literal = ['-'] && sign.stop = e.start) := by simp only [htouch op sign rfl]
    simp only [relabelAll, Part.relabel, push, hjoins]
    split <;> simp [relabelAll, Part.relabel, Relabelling.word]
  | [] | [.number _] | [.constant _ _ _] | [.free _ _] | [.group _ _] | [.call _ _ _] =>
    simp [Part.relabel, relabelAll, push]
  | p :: _ :: _ => cases p <;> simp [Part.relabel, relabelAll, push]

section Content

variable {text text' : Text} (hcontent : ∀ a b,
  R.content ⟨a, text.slice a b⟩ = text'.slice (R.position a) (R.position b))

include hcontent

/-- A parenthesis is closed afterwards as it is before. -/
theorem relabel_close (f : Frame) (items : List Part) (inner outer : Nat) :
    relabelAll R (close text f items inner outer) =
      close text' (f.relabel R) (relabelAll R items) (R.position inner) (R.position outer) := by
  obtain ⟨bracket, position, before⟩ := f
  cases bracket with
  | group =>
    simp only [close, Frame.relabel, Bracket.relabel, relabelAll, Part.relabel, Relabelling.area,
      hcontent, relabelAll_reverse]
  | call g name slots slotStart =>
    simp only [close, Frame.relabel, Bracket.relabel, relabelAll, Part.relabel, Relabelling.area,
      hcontent, relabelAll_reverse, relabelSlots_reverse, relabelSlots, Slot.relabel]

/-- **The parentheses that are open at the end are closed alike.** -/
theorem relabel_closeAll (stop : Nat) (items : List Part) (frames : List Frame) :
    relabelAll R (closeAll text stop items frames) =
      closeAll text' (R.position stop) (relabelAll R items) (frames.map (Frame.relabel R)) := by
  induction frames generalizing items with
  | nil => rfl
  | cons f outer ih => rw [List.map_cons, closeAll, closeAll, ih, relabel_close hcontent]

end Content

end Builder

/-! ## Tokens, errors and hints -/

/-- A token afterwards. -/
def Token.relabel (R : Relabelling) : Token → Token
  | blank c => blank (R.letter c)
  | opening => opening
  | closing => closing
  | comma => comma
  | number t => number (t.map R.letter)
  | symbol s t => symbol s (t.map R.letter)
  | unknown c => unknown (R.letter c)
  | repeatedPoint => repeatedPoint
  | uncalled name => uncalled (name.map R.letter)

/-- The cause of an error afterwards. -/
def ParseError.Cause.relabel (R : Relabelling) : Cause → Cause
  | unknownIdentifier t => unknownIdentifier (t.map R.letter)
  | cause => cause

/-- An error afterwards, from where it starts up to where it ends. -/
def ParseError.relabel (R : Relabelling) (e : ParseError) : ParseError :=
  ⟨e.cause.relabel R, R.position e.start, R.position e.stop - R.position e.start⟩

/-- A hint afterwards. -/
def Hint.relabel (R : Relabelling) (h : Hint) : Hint :=
  ⟨h.identifier.map R.letter, R.position h.start⟩

end Formula

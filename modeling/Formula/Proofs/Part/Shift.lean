import Formula.Proofs.Relabelling.Basic

/-!
# The builder inside a parenthesis

What is built inside an open parenthesis, or inside a slot of a call, is what a builder of its own
would build there, moved by the position where the sibling list starts.  The two builders go side by
side until the list is closed: the one outside keeps the open parentheses around the list below
those that both have opened (`Within`).

A closing parenthesis ends this if the inner builder has none to close, and so does a comma in a
call.  In a group a comma is misplaced for both.
-/

namespace Formula

/-- An excerpt `d` characters further to the right. -/
def Excerpt.shift (d : Nat) (e : Excerpt) : Excerpt := ⟨d + e.start, e.text⟩

mutual

/-- A part `d` characters further to the right. -/
def Part.shift (d : Nat) : Part → Part
  | .number e => .number (e.shift d)
  | .operator op e => .operator op (e.shift d)
  | .constant literal expression e => .constant literal expression (e.shift d)
  | .free literal e => .free literal (e.shift d)
  | .group e items => .group (e.shift d) (shiftAll d items)
  | .call f e slots => .call f (e.shift d) (shiftSlots d slots)

/-- A slot `d` characters further to the right. -/
def Slot.shift (d : Nat) : Slot → Slot
  | .mk e items => .mk (e.shift d) (shiftAll d items)

/-- The parts of a list, `d` characters further to the right. -/
def shiftAll (d : Nat) : List Part → List Part
  | [] => []
  | p :: ps => p.shift d :: shiftAll d ps

/-- The slots of a call, `d` characters further to the right. -/
def shiftSlots (d : Nat) : List Slot → List Slot
  | [] => []
  | s :: ss => s.shift d :: shiftSlots d ss

end

/-- A row of the outline `d` characters further to the right. -/
def Row.shift (d : Nat) (row : Row) : Row :=
  { row with written := row.written.shift d }

/-- Moving to the right is a relabelling. -/
def Relabelling.rightward (d : Nat) : Relabelling where
  position n := d + n
  letter := id
  content e := e.text

section Shift

variable {d : Nat}

theorem word_rightward (e : Excerpt) : (Relabelling.rightward d).word e = e.shift d := by
  rw [Relabelling.word, Relabelling.rightward, List.map_id]
  rfl

mutual

theorem relabel_rightward (p : Part) : p.relabel (.rightward d) = p.shift d := by
  cases p with
  | group e items => rw [Part.relabel, Part.shift, relabelAll_rightward]; rfl
  | call f e slots => rw [Part.relabel, Part.shift, relabelSlots_rightward, word_rightward]
  | number | operator | constant | free => rw [Part.relabel, Part.shift, word_rightward]

theorem relabelAll_rightward (items : List Part) :
    relabelAll (.rightward d) items = shiftAll d items := by
  cases items with
  | nil => rw [relabelAll, shiftAll]
  | cons p items => rw [relabelAll, shiftAll, relabel_rightward, relabelAll_rightward]

theorem relabelSlots_rightward (slots : List Slot) :
    relabelSlots (.rightward d) slots = shiftSlots d slots := by
  cases slots with
  | nil => rw [relabelSlots, shiftSlots]
  | cons s slots =>
    obtain ⟨e, items⟩ := s
    rw [relabelSlots, shiftSlots, Slot.relabel, Slot.shift, relabelAll_rightward,
      relabelSlots_rightward]
    rfl

end

/-- **The outline of a part further to the right** has the same rows, further to the right. -/
theorem rowsOf_shiftAll (depth : Nat) (hasLeft : Bool) (items : List Part) :
    rowsOf depth hasLeft (shiftAll d items) = (rowsOf depth hasLeft items).map (Row.shift d) := by
  have hcommas : (Relabelling.rightward d).KeepsCommas := ⟨fun e => Nat.add_assoc .., rfl⟩
  have hrow : Row.relabel (.rightward d) = Row.shift d := by
    funext row
    rw [Row.relabel, Row.shift]
    cases row.kind <;> simp only [word_rightward] <;> rfl
  rw [← relabelAll_rightward, rowsOf_relabelAll hcommas, hrow]

@[simp] theorem shiftAll_reverse (items : List Part) :
    shiftAll d items.reverse = (shiftAll d items).reverse := by
  rw [← relabelAll_rightward, relabelAll_reverse, relabelAll_rightward]

end Shift

/-- What an open parenthesis begins, `d` characters further to the right. -/
def Bracket.shift (d : Nat) : Bracket → Bracket
  | group => group
  | call f name slots slotStart => call f (name.shift d) (shiftSlots d slots) (d + slotStart)

/-- An open parenthesis `d` characters further to the right. -/
def Frame.shift (d : Nat) (f : Frame) : Frame :=
  ⟨f.bracket.shift d, d + f.position, shiftAll d f.before⟩

theorem slice_drop (t : Text) (d a b : Nat) :
    Text.slice (t.drop d) a b = t.slice (d + a) (d + b) := by
  have hlength : d + b - (d + a) = b - a := by omega
  rw [Text.slice, Text.slice, List.drop_drop, hlength]

theorem slice_take {t : Text} {a b n : Nat} (h : b ≤ n) :
    Text.slice (t.take n) a b = t.slice a b := by
  have hmin : min (b - a) (n - a) = b - a := by omega
  rw [Text.slice, Text.slice, List.drop_take, List.take_take, hmin]

namespace Builder

variable {text : Text} {d : Nat}

theorem frame_rightward (f : Frame) : f.relabel (.rightward d) = f.shift d := by
  obtain ⟨bracket, position, before⟩ := f
  cases bracket with
  | group =>
    rw [Frame.relabel, Frame.shift, relabelAll_rightward]
    rfl
  | call g name slots slotStart =>
    rw [Frame.relabel, Frame.shift, Bracket.relabel, Bracket.shift, relabelAll_rightward,
      relabelSlots_rightward, word_rightward]
    rfl

theorem content_rightward (a b : Nat) :
    (Relabelling.rightward d).content ⟨a, Text.slice (text.drop d) a b⟩ =
      text.slice (d + a) (d + b) :=
  slice_drop text d a b

/-- A number is put at the end of a list wherever the list stands. -/
theorem push_number_shift (e : Excerpt) (items : List Part) :
    push (.number (e.shift d)) (shiftAll d items) = shiftAll d (push (.number e) items) := by
  have htouch : ∀ op sign, items = [.operator op sign] →
      (((Relabelling.rightward d).word sign).stop = ((Relabelling.rightward d).word e).start ↔
        sign.stop = e.start) := by
    intro op sign _
    simp only [word_rightward, Excerpt.shift, Excerpt.stop]
    omega
  rw [← relabelAll_rightward, ← relabelAll_rightward, relabel_push_number htouch, word_rightward]

/-- A parenthesis is closed wherever it stands. -/
theorem close_shift (f : Frame) (items : List Part) (inner outer : Nat) :
    close text (f.shift d) (shiftAll d items) (d + inner) (d + outer) =
      shiftAll d (close (text.drop d) f items inner outer) := by
  rw [← relabelAll_rightward, ← relabelAll_rightward, ← frame_rightward,
    relabel_close content_rightward]
  rfl

/-- **The parentheses that are open at the end are closed wherever they stand.** -/
theorem closeAll_shift (stop : Nat) (items : List Part) (frames : List Frame) :
    closeAll text (d + stop) (shiftAll d items) (frames.map (Frame.shift d)) =
      shiftAll d (closeAll (text.drop d) stop items frames) := by
  have hframes : Frame.shift d = Frame.relabel (.rightward d) :=
    funext fun f => (frame_rightward f).symm
  rw [← relabelAll_rightward, ← relabelAll_rightward, hframes, relabel_closeAll content_rightward]
  rfl

/-- A comma outside of a call changes only the position and the errors. -/
theorem step_comma_misplaced {b : Builder} (h : ∀ f ∈ b.frames.head?, f.bracket = .group) :
    b.step text .comma =
      { b with
        position := b.position + 1
        errors := b.errors ++ [⟨.misplacedComma, b.position, 1⟩] } := by
  rw [step, take, separate]
  split
  · rename_i hframes
    simp [hframes] at h
  · rfl

/-! ## Two builders side by side -/

/-- A builder that reads on inside the parentheses of `base`, and one that reads only what is inside
them, which starts at `d`. -/
structure Within (d : Nat) (base : List Frame) (b sub : Builder) : Prop where
  /-- Both have read to the same place. -/
  position : b.position = d + sub.position
  /-- The innermost lists are the same. -/
  items : b.items = shiftAll d sub.items
  /-- Below the parentheses that both have opened there are those of `base`. -/
  frames : b.frames = sub.frames.map (Frame.shift d) ++ base

theorem ready_shiftAll {items : List Part} (h : Ready items) : Ready (shiftAll d items) := by
  rw [← relabelAll_rightward]
  exact ready_relabelAll h

namespace Within

variable {base : List Frame} {b sub : Builder}

theorem opening (h : Within d base b sub) :
    Within d base (b.step text .opening) (sub.step (text.drop d) .opening) := by
  by_cases hready : Ready sub.items
  · have hready' : Ready b.items := h.items ▸ ready_shiftAll hready
    rw [step_opening hready, step_opening hready']
    constructor
    · rw [h.position, Nat.add_assoc]
    · rfl
    · simp [h.frames, h.position, h.items, Frame.shift, Bracket.shift]
  · simp only [Ready, ne_eq, not_forall, not_not] at hready
    obtain ⟨f, name, before, hitems⟩ := hready
    have hitems' : b.items = .call f (name.shift d) [] :: shiftAll d before := by
      simp [h.items, hitems, shiftAll, Part.shift, shiftSlots]
    rw [step_opening_call hitems, step_opening_call hitems']
    constructor
    · rw [h.position, Nat.add_assoc]
    · rfl
    · simp [h.frames, h.position, Frame.shift, Bracket.shift, shiftSlots, Nat.add_assoc]

theorem closing (h : Within d base b sub) (hne : sub.frames ≠ []) :
    Within d base (b.step text .closing) (sub.step (text.drop d) .closing) := by
  obtain ⟨f, outer, hsub⟩ := List.exists_cons_of_ne_nil hne
  have hframes : b.frames = f.shift d :: (outer.map (Frame.shift d) ++ base) := by
    rw [h.frames, hsub, List.map_cons, List.cons_append]
  constructor
  · simp [h.position, Nat.add_assoc]
  · simp only [step, take, closeBracket, hframes, hsub]
    rw [h.items, h.position, Nat.add_assoc, close_shift]
  · simp only [step, take, closeBracket, hframes, hsub]

theorem comma (h : Within d base b sub)
    (hbase : sub.frames = [] → ∀ f ∈ base.head?, f.bracket = .group) :
    Within d base (b.step text .comma) (sub.step (text.drop d) .comma) := by
  have hposition : b.position + 1 = d + (sub.position + 1) := by rw [h.position, Nat.add_assoc]
  have hmisplaced : (∀ f ∈ b.frames.head?, f.bracket = .group) →
      (∀ f ∈ sub.frames.head?, f.bracket = .group) →
      Within d base (b.step text .comma) (sub.step (text.drop d) .comma) := by
    intro hgroup hgroup'
    rw [step_comma_misplaced hgroup, step_comma_misplaced hgroup']
    exact ⟨hposition, h.items, h.frames⟩
  cases hsub : sub.frames with
  | nil =>
    refine hmisplaced ?_ (by simp [hsub])
    rw [h.frames, hsub, List.map_nil, List.nil_append]
    exact hbase hsub
  | cons f outer =>
    obtain ⟨bracket, opened, before⟩ := f
    cases bracket with
    | group =>
      refine hmisplaced ?_ (by simp [hsub])
      simp [h.frames, hsub, Frame.shift, Bracket.shift]
    | call g name slots slotStart =>
      have hframes : b.frames = ⟨.call g (name.shift d) (shiftSlots d slots) (d + slotStart),
          d + opened, shiftAll d before⟩ :: (outer.map (Frame.shift d) ++ base) := by
        simp [h.frames, hsub, Frame.shift, Bracket.shift]
      rw [Builder.step_comma hframes, Builder.step_comma hsub]
      refine ⟨hposition, by simp [shiftAll], ?_⟩
      simp [Frame.shift, Bracket.shift, shiftSlots, Slot.shift, Excerpt.shift, slice_drop,
        h.position, h.items, Nat.add_assoc]

/-- **The two builders stay side by side** until the list is closed or, in a call, its slot ends. -/
theorem step (h : Within d base b sub) (tok : Token)
    (hclosing : tok = .closing → sub.frames ≠ [])
    (hcomma : tok = .comma → sub.frames = [] → ∀ f ∈ base.head?, f.bracket = .group) :
    Within d base (b.step text tok) (sub.step (text.drop d) tok) := by
  cases tok with
  | blank | unknown | repeatedPoint | uncalled =>
    exact ⟨by simp [h.position, Nat.add_assoc], h.items, h.frames⟩
  | opening => exact h.opening
  | closing => exact h.closing (hclosing rfl)
  | comma => exact h.comma (hcomma rfl)
  | number t =>
    refine ⟨by simp [h.position, Nat.add_assoc], ?_, h.frames⟩
    simp only [Builder.step, take, h.items, h.position, ← push_number_shift]
    rfl
  | symbol s t =>
    refine ⟨by simp [h.position, Nat.add_assoc], ?_, h.frames⟩
    rw [step_symbol, step_symbol, shiftAll, ← relabel_rightward, relabel_ofSymbol, word_rightward,
      h.items, h.position]
    rfl

end Within

/-! ## The text that is looked at -/

theorem close_take {f : Frame} {items : List Part} {inner outer n : Nat} (hinner : inner ≤ n)
    (houter : outer ≤ n) :
    close (text.take n) f items inner outer = close text f items inner outer := by
  simp only [close, slice_take hinner, slice_take houter]

theorem step_take {b : Builder} {tok : Token} {n : Nat}
    (h : b.position + tok.text.length ≤ n) : b.step (text.take n) tok = b.step text tok := by
  cases tok with
  | closing =>
    have hlt : b.position + 1 ≤ n := h
    simp only [step, take, closeBracket, close_take (Nat.le_of_lt hlt) hlt]
  | comma =>
    have hlt : b.position + 1 ≤ n := h
    simp only [step, take, separate, slice_take (Nat.le_of_lt hlt)]
  | _ => rfl

/-- **A builder looks only at text that it has taken in.** -/
theorem run_take {b : Builder} {ts : List Token} {n : Nat}
    (h : b.position + (ts.flatMap Token.text).length ≤ n) :
    b.run (text.take n) ts = b.run text ts := by
  induction ts generalizing b with
  | nil => rfl
  | cons tok ts ih =>
    rw [List.flatMap_cons, List.length_append] at h
    rw [run_cons, run_cons, step_take (by omega), ih (by rw [position_step]; omega)]

theorem finish_take {b : Builder} {n : Nat} (h : b.position ≤ n) :
    b.finish (text.take n) = b.finish text := by
  have hclose : ∀ (frames : List Frame) (items : List Part),
      closeAll (text.take n) b.position items frames = closeAll text b.position items frames := by
    intro frames
    induction frames with
    | nil => exact fun _ => rfl
    | cons f outer ih =>
      intro items
      rw [closeAll, closeAll, close_take h h, ih]
  rw [finish, finish, hclose]

end Builder

end Formula

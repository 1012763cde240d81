import Formula.Proofs.Parentheses

/-!
# The slots that the builder makes

The builder ends a slot at a comma if the innermost open parenthesis begins the slots of a call.  So
the commas after the slots of a call are those that stand in its parentheses, and in no parentheses
inside these (`separators`).

A slot holds no part if all of its characters have been passed over: they are blank, or it has been
reported that they could not be read (`Unread`).  No character is passed over and read, so a slot in
which all characters are passed over holds no part either.
-/

namespace Formula

variable {text read : Text} {r : Registry}

/-- The commas whose innermost open parenthesis is the one at `o`. -/
def separators (t : Text) (o : Nat) : List Nat :=
  (List.range t.length).filter fun n =>
    t[n]? = some ',' ∧ (Matching.of (t.take n)).opened.head? = some o

theorem separators_concat (t : Text) (c : Char) (o : Nat) :
    separators (t ++ [c]) o =
      separators t o ++
        if c = ',' ∧ (Matching.of t).opened.head? = some o then [t.length] else [] := by
  have hlength : (t ++ [c]).length = t.length + 1 := List.length_append
  rw [separators, hlength, List.range_succ, List.filter_append]
  congr 1
  · refine List.filter_congr fun n hn => ?_
    have hlt : n < t.length := List.mem_range.1 hn
    rw [List.getElem?_append_left hlt, List.take_append_of_le_length (Nat.le_of_lt hlt)]
  · simp [List.filter_cons]

theorem separators_comma {o : Nat} (t : Text) (h : (Matching.of t).opened.head? = some o) :
    separators (t ++ [',']) o = separators t o ++ [t.length] := by
  rw [separators_concat, if_pos ⟨rfl, h⟩]

/-- A comma separates nothing of a call if another parenthesis is the innermost one. -/
theorem separators_comma_of_ne {o : Nat} (t : Text) (h : (Matching.of t).opened.head? ≠ some o) :
    separators (t ++ [',']) o = separators t o := by
  rw [separators_concat, if_neg fun hc => h hc.2, List.append_nil]

theorem separators_append_of_not_mem {w : Text} (hw : ',' ∉ w) (t : Text) (o : Nat) :
    separators (t ++ w) o = separators t o := by
  induction w generalizing t with
  | nil => rw [List.append_nil]
  | cons c w ih =>
    rw [List.mem_cons, not_or] at hw
    rw [List.append_cons, ih hw.2, separators_concat, if_neg fun hc => hw.1 hc.1.symm,
      List.append_nil]

/-- Once a parenthesis is closed, it separates nothing any more. -/
theorem separators_append_of_mem_pairs {t : Text} {o c : Nat} (h : (o, c) ∈ (Matching.of t).pairs)
    (w : Text) : separators (t ++ w) o = separators t o := by
  induction w generalizing t with
  | nil => rw [List.append_nil]
  | cons d w ih =>
    have hhead : (Matching.of t).opened.head? ≠ some o := fun hhead =>
      Matching.not_mem_opened h (List.mem_of_head? hhead)
    rw [List.append_cons, ih (Matching.pairs_subset t [d] h), separators_concat,
      if_neg fun hc => hhead hc.2, List.append_nil]

/-- Nothing is separated before the parenthesis is opened. -/
theorem separators_eq_nil {t : Text} {o : Nat} (h : t.length ≤ o + 1) : separators t o = [] := by
  rw [separators, List.filter_eq_nil_iff]
  intro n hn
  have hlt : n < t.length := List.mem_range.1 hn
  simp only [decide_eq_true_eq, not_and]
  intro _ hhead
  have ho := (Matching.placed_of (t.take n)).opened o (List.mem_of_head? hhead)
  have hlt' := (List.getElem?_eq_some_iff.1 ho).1
  rw [List.length_take] at hlt'
  omega

/-- The character at a position is blank, or it has been reported that it could not be read. -/
def UnreadAt (text : Text) (errors : List ParseError) (n : Nat) : Prop :=
  (text[n]?).any isBlank = true ∨ ∃ e ∈ errors, e.isLexical = true ∧ e.covers n = true

/-- All characters from `a` up to `b` are passed over. -/
def Unread (text : Text) (errors : List ParseError) (a b : Nat) : Prop :=
  ∀ n, n < b → a ≤ n → UnreadAt text errors n

theorem UnreadAt.mono {es es' : List ParseError} {n : Nat} (h : UnreadAt text es n)
    (hes : es ⊆ es') : UnreadAt text es' n := by
  rcases h with h | ⟨e, he, hlexical, hcovers⟩
  · exact .inl h
  · exact .inr ⟨e, hes he, hlexical, hcovers⟩

theorem Unread.mono {es es' : List ParseError} {a b : Nat} (h : Unread text es a b)
    (hes : es ⊆ es') : Unread text es' a b :=
  fun n hlt hle => (h n hlt hle).mono hes

theorem unread_self (errors : List ParseError) (a : Nat) : Unread text errors a a :=
  fun _ hlt hle => absurd hlt (Nat.not_lt.2 hle)

/-- A single character. -/
theorem unread_succ {errors : List ParseError} {a : Nat} (h : UnreadAt text errors a) :
    Unread text errors a (a + 1) := by
  intro n hlt hle
  obtain rfl : n = a := by omega
  exact h

theorem Unread.append {errors : List ParseError} {a b c : Nat} (h : Unread text errors a b)
    (h' : Unread text errors b c) : Unread text errors a c := by
  intro n hlt hle
  by_cases hn : n < b
  · exact h n hn hle
  · exact h' n hlt (Nat.not_lt.1 hn)

/-! ## Slots -/

/-- If a slot holds no part, its characters have been passed over. -/
def Slot.PassesOver (text : Text) (errors : List ParseError) (s : Slot) : Prop :=
  s.isEmpty = true → Unread text errors s.excerpt.start s.excerpt.stop

/-- The slots of a call end at the commas in its parentheses, and those without parts have been passed
over. -/
def Part.Slotted (text : Text) (errors : List ParseError) : Part → Prop
  | .call _ _ slots =>
    (∀ o, slots.head?.map (·.excerpt.start) = some (o + 1) →
      slots.dropLast.map (·.excerpt.stop) = separators text o) ∧
    ∀ s ∈ slots, s.PassesOver text errors
  | _ => True

/-- The complete slots of an open parenthesis end at the commas in it; `read` has been taken in. -/
def Frame.Slotted (text read : Text) (errors : List ParseError) (f : Frame) : Prop :=
  match f.bracket with
  | .group => True
  | .call _ _ slots _ => slots.reverse.map (·.excerpt.stop) = separators read f.position ∧
      ∀ s ∈ slots, s.PassesOver text errors

/-- The position where the current slot of an open parenthesis starts. -/
def Bracket.slotStart? : Bracket → Option Nat
  | group => none
  | call _ _ _ slotStart => some slotStart

theorem slotted_ofSymbol {s : Symbol} (hs : s.isCallable = false) (e : Excerpt)
    (errors : List ParseError) : (Part.ofSymbol s e).Slotted text errors := by
  cases s with
  | function => cases hs
  | operator | constant | free => trivial

theorem Part.Slotted.mono {p : Part} {es es' : List ParseError} (h : p.Slotted text es)
    (hes : es ⊆ es') : p.Slotted text es' := by
  cases p with
  | call f name slots => exact ⟨h.1, fun s hs hempty => (h.2 s hs hempty).mono hes⟩
  | number | operator | constant | free | group => trivial

/-- More text separates nothing of an open call if it has no comma in its parentheses. -/
theorem Frame.Slotted.extend {f : Frame} {es es' : List ParseError} {read' : Text}
    (h : f.Slotted text read es) (hes : es ⊆ es')
    (hseparators : separators read' f.position = separators read f.position) :
    f.Slotted text read' es' := by
  obtain ⟨bracket, position, before⟩ := f
  cases bracket with
  | group => trivial
  | call g name slots slotStart =>
    exact ⟨h.1.trans hseparators.symm, fun s hs hempty => (h.2 s hs hempty).mono hes⟩

/-- What a parenthesis opens is slotted when it is closed. -/
theorem slotted_of_close {f : Frame} {items : List Part} {errors : List ParseError} {c outer : Nat}
    {p : Part} (hf : f.Slotted text read errors) (hlaid : f.Laid text) (hinner : f.inner ≤ c)
    (hc : c ≤ text.length) (hseparators : separators text f.position = separators read f.position)
    (hlast : items = [] → ∀ n ∈ f.bracket.slotStart?, Unread text errors n c)
    (hclose : Builder.close text f items c outer = p :: f.before) : p.Slotted text errors := by
  obtain ⟨bracket, position, before⟩ := f
  cases bracket with
  | group =>
    obtain rfl := (List.cons.inj hclose).1
    trivial
  | call g name slots slotStart =>
    obtain rfl := (List.cons.inj hclose).1
    obtain ⟨hstops, hslots⟩ := hf
    obtain ⟨-, hupto, -⟩ := hlaid
    rw [List.reverse_cons]
    refine ⟨?_, ?_⟩
    · intro o ho
      obtain ⟨first, more, heq, hfirst⟩ : ∃ first more,
          slots.reverse ++ [Slot.mk ⟨slotStart, text.slice slotStart c⟩ items.reverse] =
            first :: more ∧ first.excerpt.start = position + 1 := hupto.exists_first rfl
      rw [heq, List.head?_cons, Option.map_some, Option.some.injEq, hfirst] at ho
      obtain rfl : position = o := Nat.succ.inj ho
      rw [List.dropLast_concat]
      exact hstops.trans hseparators.symm
    · intro s hs
      rcases List.mem_append.1 hs with hs | hs
      · exact hslots s (List.mem_reverse.1 hs)
      · obtain rfl := List.mem_singleton.1 hs
        intro hempty
        have hitems : items = [] := by simpa [Slot.isEmpty, Slot.items] using hempty
        have hstop : (Excerpt.mk slotStart (text.slice slotStart c)).stop = c :=
          stop_slice hinner hc
        rw [Slot.excerpt, hstop]
        exact hlast hitems slotStart rfl

/-! ## The builder -/

namespace Builder

variable {b : Builder} {tok : Token} {more following : Text}

theorem errors_subset_step (b : Builder) (tok : Token) : b.errors ⊆ (b.step text tok).errors := by
  have hstep : ErrorStep b.position tok b.errors (b.step text tok).errors := errorStep_step b tok
  generalize (b.step text tok).errors = errors at hstep
  cases hstep with
  | other => exact List.Subset.refl _
  | unknown | repeatedPoint | unmatchedClosing | misplacedComma =>
    exact List.subset_append_left _ _

/-- A parenthesis that is not the innermost one. -/
theorem head?_opened_ne {g : Frame} {outer : List Frame} (h : b.Follows read)
    (hframes : b.frames = g :: outer) :
    ∀ f ∈ outer, (Matching.of read).opened.head? ≠ some f.position := by
  intro f hf
  have hopened : (Matching.of read).opened = g.position :: outer.map Frame.position := by
    rw [← h.opened, Builder.opened, hframes, List.map_cons]
  have hordered := (Matching.placed_of read).ordered
  rw [hopened] at hordered
  have hlt : f.position < g.position := (List.pairwise_cons.1 hordered).1 _ (List.mem_map_of_mem hf)
  rw [hopened, List.head?_cons, ne_eq, Option.some.injEq]
  omega

/-- What is known of the slots that have been made; `read` has been taken in. -/
structure Slotted (text read : Text) (b : Builder) : Prop where
  /-- Calls that are closed. -/
  parts : ∀ p ∈ b.parts, p.Slotted text b.errors
  /-- Calls that are open. -/
  frames : ∀ f ∈ b.frames, f.Slotted text read b.errors
  /-- The current slot of the innermost call. -/
  current : b.items = [] → ∀ f ∈ b.frames.head?, ∀ n ∈ f.bracket.slotStart?,
    Unread text b.errors n b.position

theorem slotted_empty (text : Text) : Slotted text [] .empty where
  parts p hp := by simp [Builder.empty, mem_parts, walkAll] at hp
  frames f hf := by cases hf
  current _ f hf := by cases hf

namespace Slotted

/-- Parts that a token adds, other than a function name or a closing parenthesis, have no slots. -/
theorem parts_step (h : b.Slotted text read) (htok : ∀ f w, tok ≠ .symbol (.function f) w)
    (hclosing : tok ≠ .closing) :
    ∀ p ∈ (b.step text tok).parts, p.Slotted text (b.step text tok).errors := by
  intro p hp
  rcases mem_parts_step hp with hp | ⟨e, rfl⟩ | ⟨s, w, e, heq, rfl⟩ | ⟨heq, -⟩
  · exact (h.parts p hp).mono (errors_subset_step b tok)
  · trivial
  · cases s with
    | function f => exact absurd heq (htok f w)
    | operator | constant | free => exact slotted_ofSymbol rfl e _
  · exact absurd heq hclosing

/-- Parentheses that stay open while no comma is read. -/
theorem frames_step (h : b.Slotted text read) (hcomma : ',' ∉ tok.text) :
    ∀ f ∈ b.frames, f.Slotted text (read ++ tok.text) (b.step text tok).errors :=
  fun f hf => (h.frames f hf).extend (errors_subset_step b tok)
    (separators_append_of_not_mem hcomma read f.position)

/-- A token that is passed over. -/
theorem pass (h : b.Slotted text read) (htok : ∀ f w, tok ≠ .symbol (.function f) w)
    (hclosing : tok ≠ .closing) (hcomma : ',' ∉ tok.text)
    (hitems : (b.step text tok).items = b.items) (hframes : (b.step text tok).frames = b.frames)
    (hunread : Unread text (b.step text tok).errors b.position (b.step text tok).position) :
    (b.step text tok).Slotted text (read ++ tok.text) where
  parts := h.parts_step htok hclosing
  frames := by
    rw [hframes]
    exact h.frames_step hcomma
  current := by
    rw [hitems, hframes]
    intro hnil f hf n hn
    exact ((h.current hnil f hf n hn).mono (errors_subset_step b tok)).append hunread

/-- A token that is read as a part. -/
theorem add (h : b.Slotted text read) (htok : ∀ f w, tok ≠ .symbol (.function f) w)
    (hclosing : tok ≠ .closing) (hcomma : ',' ∉ tok.text)
    (hitems : (b.step text tok).items ≠ []) (hframes : (b.step text tok).frames = b.frames) :
    (b.step text tok).Slotted text (read ++ tok.text) where
  parts := h.parts_step htok hclosing
  frames := by
    rw [hframes]
    exact h.frames_step hcomma
  current hnil := absurd hnil hitems

/-- A parenthesis that no function name waits for. -/
theorem opening (h : b.Slotted text read) (hready : Ready b.items) :
    (b.step text .opening).Slotted text (read ++ ['(']) := by
  refine ⟨h.parts_step (by simp) (by simp), ?_, ?_⟩
  · have hcomma : ',' ∉ Token.opening.text := by decide
    have hframes := h.frames_step hcomma
    rw [step_opening hready] at hframes ⊢
    exact List.forall_mem_cons.2 ⟨trivial, hframes⟩
  · rw [step_opening hready]
    intro _ f hf n hn
    obtain rfl := Option.some.inj hf
    cases hn

theorem closing (h : b.Slotted text read) (hlaid : b.Laid text read)
    (htext : text = read ++ Token.closing.text ++ more) :
    (b.step text .closing).Slotted text (read ++ [')']) := by
  have hcomma : ',' ∉ Token.closing.text := by decide
  have hframes := frames_closing text b
  refine ⟨?_, ?_, ?_⟩
  · intro p hp
    rcases mem_parts_step hp with hp | ⟨e, rfl⟩ | ⟨s, w, e, heq, -⟩ | ⟨-, f, outer, hcons, hclose⟩
    · exact (h.parts p hp).mono (errors_subset_step b .closing)
    · trivial
    · cases heq
    · have hf : f ∈ b.frames := hcons ▸ List.mem_cons_self
      obtain ⟨hflaid, hinner⟩ := hlaid.frames f hf
      have hopened : (Matching.of read).opened = f.position :: outer.map Frame.position := by
        rw [← hlaid.follows.opened, Builder.opened, hcons, List.map_cons]
      have hpair : (f.position, b.position) ∈ (Matching.of (read ++ [')'])).pairs := by
        rw [Matching.of_concat, Matching.read_pair hopened, hlaid.follows.position]
        exact List.mem_append_right _ List.mem_cons_self
      have hlength : b.position ≤ text.length := by
        rw [htext, hlaid.follows.position, List.append_assoc, List.length_append]
        exact Nat.le_add_right ..
      have hslotted := h.frames_step hcomma f hf
      -- the call is closed here, so the commas in it are those that have been read
      have hseparators : separators text f.position = separators (read ++ [')']) f.position := by
        rw [htext]
        exact separators_append_of_mem_pairs hpair more
      refine slotted_of_close hslotted hflaid hinner hlength hseparators ?_ hclose
      intro hnil n hn
      exact (h.current hnil f (by rw [hcons]; rfl) n hn).mono (errors_subset_step b .closing)
  · rw [hframes]
    exact fun f hf => h.frames_step hcomma f (List.mem_of_mem_tail hf)
  · intro hnil f hf n hn
    cases hcons : b.frames with
    | nil =>
      rw [hframes, hcons] at hf
      cases hf
    | cons g outer =>
      rw [step, take, closeBracket, hcons] at hnil
      obtain ⟨bracket, position, before⟩ := g
      cases bracket <;> cases hnil

/-- A comma that ends a slot. -/
theorem comma_of_call {g : Operation} {name : Excerpt} {slots : List Slot} {slotStart opened : Nat}
    {before : List Part} {outer : List Frame} (h : b.Slotted text read) (hlaid : b.Laid text read)
    (hframes : b.frames = ⟨.call g name slots slotStart, opened, before⟩ :: outer)
    (htext : text = read ++ Token.comma.text ++ more) :
    (b.step text .comma).Slotted text (read ++ [',']) := by
  have hposition := hlaid.follows.position
  have hstack : (Matching.of read).opened = opened :: outer.map Frame.position := by
    rw [← hlaid.follows.opened, Builder.opened, hframes, List.map_cons]
  have hmem : ⟨.call g name slots slotStart, opened, before⟩ ∈ b.frames :=
    hframes ▸ List.mem_cons_self
  obtain ⟨hstops, hslots⟩ := h.frames _ hmem
  have hinner : slotStart ≤ b.position := (hlaid.frames _ hmem).2
  have hlength : b.position ≤ text.length := by
    rw [htext, hposition, List.append_assoc, List.length_append]
    exact Nat.le_add_right ..
  have hstop : (Excerpt.mk slotStart (text.slice slotStart b.position)).stop = b.position :=
    stop_slice hinner hlength
  refine ⟨h.parts_step (by simp) (by simp), ?_, ?_⟩
  · rw [step_comma hframes]
    refine List.forall_mem_cons.2 ⟨⟨?_, List.forall_mem_cons.2 ⟨?_, hslots⟩⟩, ?_⟩
    · have hhead : (Matching.of read).opened.head? = some opened := by rw [hstack]; rfl
      rw [separators_comma read hhead, List.reverse_cons, List.map_append, hstops, ← hposition]
      exact congrArg (separators read opened ++ [·]) hstop
    · intro hempty
      have hitems : b.items = [] := by simpa [Slot.isEmpty, Slot.items] using hempty
      rw [Slot.excerpt, hstop]
      exact h.current hitems _ (by rw [hframes]; rfl) slotStart rfl
    · intro f hf
      exact (h.frames f (hframes ▸ List.mem_cons_of_mem _ hf)).extend (List.Subset.refl _)
        (separators_comma_of_ne read (head?_opened_ne hlaid.follows hframes f hf))
  · rw [step_comma hframes]
    intro _ f hf n hn
    obtain rfl := Option.some.inj hf
    obtain rfl := Option.some.inj hn
    exact unread_self _ _

/-- A comma that is out of place. -/
theorem comma_misplaced (h : b.Slotted text read) (hlaid : b.Laid text read)
    (hgroup : ∀ f ∈ b.frames.head?, f.bracket = .group) :
    (b.step text .comma).Slotted text (read ++ [',']) := by
  refine ⟨h.parts_step (by simp) (by simp), ?_, ?_⟩
  · rw [step_comma_misplaced hgroup]
    have hold := h.frames
    match hframes : b.frames with
    | [] => simp
    | ⟨bracket, position, before⟩ :: outer =>
      obtain rfl : bracket = .group := hgroup _ (by rw [hframes]; rfl)
      rw [hframes] at hold
      refine List.forall_mem_cons.2 ⟨trivial, fun f hf => ?_⟩
      exact (hold f (List.mem_cons_of_mem _ hf)).extend (List.subset_append_left _ _)
        (separators_comma_of_ne read (head?_opened_ne hlaid.follows hframes f hf))
  · rw [step_comma_misplaced hgroup]
    intro hnil f hf n hn
    rw [hgroup f hf] at hn
    cases hn

/-- **A token other than a function name keeps the invariant.** -/
theorem step (h : b.Slotted text read) (hlaid : b.Laid text read) (hready : Ready b.items)
    (htok : ∀ f w, tok ≠ .symbol (.function f) w) (hfits : tok.Fits r following)
    (htext : text = read ++ tok.text ++ more) :
    (b.step text tok).Slotted text (read ++ tok.text) := by
  have hcomma : tok ≠ .comma → ',' ∉ tok.text := fun hne hmem =>
    hne (hfits.eq_ofDelimiter hmem (by decide) (by decide))
  have hposition := hlaid.follows.position
  cases tok with
  | opening => exact h.opening hready
  | closing => exact h.closing hlaid htext
  | comma =>
    match hframes : b.frames with
    | [] | ⟨.group, _, _⟩ :: _ => exact h.comma_misplaced hlaid (by simp [hframes])
    | ⟨.call _ _ _ _, _, _⟩ :: _ => exact h.comma_of_call hlaid hframes htext
  | blank c =>
    have hblank : isBlank c = true := hfits
    refine h.pass htok (by simp) (hcomma (by simp)) rfl rfl (unread_succ (.inl ?_))
    simp [htext, hposition, Token.text, hblank]
  | unknown c =>
    have hcovers : (ParseError.unknown [c] b.position).covers b.position = true := by
      simp [ParseError.covers_eq_true_iff, ParseError.unknown]
    exact h.pass htok (by simp) (hcomma (by simp)) rfl rfl (unread_succ (.inr
      ⟨_, List.mem_append_right _ List.mem_cons_self, rfl, hcovers⟩))
  | repeatedPoint =>
    have hcovers : (ParseError.mk .repeatedPoint b.position 1).covers b.position = true := by
      simp [ParseError.covers_eq_true_iff]
    exact h.pass htok (by simp) (hcomma (by simp)) rfl rfl (unread_succ (.inr
      ⟨_, List.mem_append_right _ List.mem_cons_self, rfl, hcovers⟩))
  | uncalled name =>
    exact h.pass htok (by simp) (hcomma (by simp)) rfl rfl (unread_self _ _)
  | number n =>
    refine h.add htok (by simp) (hcomma (by simp)) ?_ rfl
    rcases push_eq_or (.number ⟨b.position, n⟩) b.items with hpush | ⟨e, op, sign, -, -, -, -, hpush⟩
    · exact fun hnil => List.cons_ne_nil _ _ (hpush.symm.trans hnil)
    · exact fun hnil => List.cons_ne_nil _ _ (hpush.symm.trans hnil)
  | symbol s w =>
    refine h.add htok (by simp) (hcomma (by simp)) ?_ rfl
    rw [step_symbol]
    exact List.cons_ne_nil _ _

/-- **A function name and its parenthesis keep the invariant.** -/
theorem call {f : Operation} {w after : Text} {gap : List Token} (h : b.Slotted text read)
    (hlaid : b.Laid text read) (hgap : isSilent gap = true)
    (hfits : InContext (Token.Fits r) after
      ([Token.symbol (.function f) w] ++ gap ++ [Token.opening])) :
    (b.run text ([Token.symbol (.function f) w] ++ gap ++ [Token.opening])).Slotted text
      (read ++ ([Token.symbol (.function f) w] ++ gap ++ [Token.opening]).flatMap Token.text) := by
  obtain ⟨n, hints, hrun⟩ := run_opening text b f w hgap
  have hfollows : (b.run text _).Follows _ := follows_run hlaid.follows hfits
  have hposition := hfollows.position
  have hcomma : ',' ∉
      ([Token.symbol (.function f) w] ++ gap ++ [Token.opening]).flatMap Token.text := by
    obtain ⟨hname, hgapfits⟩ := inContext_append.1 (inContext_append.1 hfits).1
    simp only [List.flatMap_append, List.flatMap_singleton, Token.text, List.mem_append, not_or]
    refine ⟨⟨?_, ?_⟩, by decide⟩
    · exact fun hmem => nomatch hname.1.eq_ofDelimiter hmem (by decide) (by decide)
    · intro hmem
      cases isBlank_of_isSilent hgap hgapfits _ hmem
  rw [hrun] at hposition ⊢
  refine ⟨?_, ?_, ?_⟩
  · intro p hp
    refine h.parts p ?_
    simpa [Builder.parts, Frame.parts, Bracket.parts, walkSlots, walkAll, or_comm] using hp
  · refine List.forall_mem_cons.2 ⟨⟨?_, by simp⟩, fun g hg => ?_⟩
    · exact (separators_eq_nil (Nat.le_of_eq hposition.symm)).symm
    · exact (h.frames g hg).extend (List.Subset.refl _)
        (separators_append_of_not_mem hcomma read g.position)
  · intro _ g hg m hm
    obtain rfl := Option.some.inj hg
    obtain rfl := Option.some.inj hm
    exact unread_self _ _

end Slotted

/-- **What is known of the slots of a formula** when all of it has been taken in. -/
theorem slotted_tokens (r : Registry) (text : Text) :
    (empty.run text (tokens r text)).Slotted text text := by
  have htext : text = [] ++ (tokens r text).flatMap Token.text := by
    rw [text_tokens, List.nil_append]
  exact (run_induction (motive := Slotted text)
    (fun hlaid hready htok hfits htext h => h.step hlaid hready htok hfits htext)
    (fun hlaid hgap hfits h => h.call hlaid hgap hfits) (tokens r text) (fits_tokens r text) empty []
    (laid_empty text) ready_nil htext (slotted_empty text)).2

end Builder

end Formula

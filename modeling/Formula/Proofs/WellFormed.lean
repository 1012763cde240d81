import Formula.Proofs.Grammar.Completion
import Formula.Proofs.Parentheses.Building
import Formula.Proofs.Part.Outline
import Formula.Proofs.Part.Words

/-!
# Every tree is well formed

Whatever is wrong with a formula, its tree is an account of the text: each part and each slot is
written where it says, each function name is followed by the parenthesis that opens its slots, and
the slots stand one after another, with one comma between neighbours, up to the parenthesis that
closes them.  What is in a group or a slot lies within it.

The builder keeps the part of this that does not look inside lists (`Builder.Laid`).  A function name
waits for its parenthesis, so the induction takes the two together (`call_induction`).  That the parts
of a list lie within it follows as reading is compositional: they are the parts of the text inside.
-/

namespace Formula

variable {text read : Text} {r : Registry}

/-- What the parenthesis at `o` opens ends at `c`: where the parenthesis stands that closes it or, if
there is none, where the text ends. -/
def EndsAt (text : Text) (o c : Nat) : Prop :=
  text[o]? = some '(' ∧
    ((o, c) ∈ (Matching.of text).pairs ∨ o ∈ (Matching.of text).opened ∧ c = text.length)

/-- The name of a function goes on with the parenthesis at `o`, after blanks at most. -/
def Excerpt.LeadsTo (text : Text) (name : Excerpt) (o : Nat) : Prop :=
  name.stop ≤ o ∧ ∀ c ∈ text.slice name.stop o, isBlank c = true

/-- Slots that stand one after another from `start` on, with one comma after each, and `next` is the
position after the last comma. -/
def SlotsUpTo (text : Text) (start : Nat) : List Slot → Nat → Prop
  | [], next => start = next
  | s :: ss, next => s.excerpt.start = start ∧ text[s.excerpt.stop]? = some ',' ∧
      SlotsUpTo text (s.excerpt.stop + 1) ss next

/-- Slots that stand one after another from `start` up to `stop`, with one comma between
neighbours. -/
def SlotsFill (text : Text) (start stop : Nat) (slots : List Slot) : Prop :=
  ∃ init last, slots = init ++ [last] ∧ SlotsUpTo text start init last.excerpt.start ∧
    last.excerpt.stop = stop

/-- Everything in a list lies from `a` up to `b`: the parts, the slots and the commas. -/
def LieWithin (a b : Nat) (items : List Part) : Prop :=
  ∀ row ∈ rowsOf 0 false items, a ≤ row.written.start ∧ row.written.stop ≤ b

/-- A part that is well formed.  A group goes from its parenthesis up to the end of what that opens,
and its parts lie inside the parentheses.  The name of a call is followed by a parenthesis, whose
inside the slots fill, and what is in a slot lies within it. -/
def Part.Formed (text : Text) : Part → Prop
  | .group e items => ∃ c, EndsAt text e.start c ∧ e.stop = min (c + 1) text.length ∧
      LieWithin (e.start + 1) c items
  | .call _ name slots => ∃ o c, name.LeadsTo text o ∧ EndsAt text o c ∧
      SlotsFill text (o + 1) c slots ∧
      ∀ s ∈ slots, LieWithin s.excerpt.start s.excerpt.stop s.items
  | _ => True

theorem EndsAt.lt {o c : Nat} (h : EndsAt text o c) : o < c ∧ c ≤ text.length := by
  obtain ⟨ho, hpair | ⟨-, rfl⟩⟩ := h
  · obtain ⟨hlt, -, hc⟩ := (Matching.placed_of text).pairs o c hpair
    exact ⟨hlt, Nat.le_of_lt (List.getElem?_eq_some_iff.1 hc).1⟩
  · exact ⟨(List.getElem?_eq_some_iff.1 ho).1, Nat.le_refl _⟩

theorem SlotsUpTo.concat {start next : Nat} {ss : List Slot} {s : Slot}
    (h : SlotsUpTo text start ss next) (hstart : s.excerpt.start = next)
    (hcomma : text[s.excerpt.stop]? = some ',') :
    SlotsUpTo text start (ss ++ [s]) (s.excerpt.stop + 1) := by
  induction ss generalizing start with
  | nil => exact ⟨hstart.trans h.symm, hcomma, rfl⟩
  | cons t ss ih => exact ⟨h.1, h.2.1, ih h.2.2⟩

theorem SlotsUpTo.comma {start next : Nat} {ss : List Slot} (h : SlotsUpTo text start ss next) :
    ∀ s ∈ ss, text[s.excerpt.stop]? = some ',' := by
  induction ss generalizing start with
  | nil =>
    intro s hs
    cases hs
  | cons t ss ih => exact List.forall_mem_cons.2 ⟨h.2.1, ih h.2.2⟩

/-- A part stands in its place, whatever is in its lists. -/
def Part.Laid (text : Text) : Part → Prop
  | .group e _ => ∃ c, EndsAt text e.start c ∧ e.text = text.slice e.start (c + 1)
  | .call _ name slots => (∃ o c, name.LeadsTo text o ∧ EndsAt text o c ∧
      SlotsFill text (o + 1) c slots) ∧ ∀ s ∈ slots, s.excerpt.StandsIn text
  | _ => True

/-- The name and the complete slots of a call that is open stand in their places. -/
def Frame.Laid (text : Text) (f : Frame) : Prop :=
  match f.bracket with
  | .group => True
  | .call _ name slots slotStart => name.LeadsTo text f.position ∧
      SlotsUpTo text (f.position + 1) slots.reverse slotStart ∧
      ∀ s ∈ slots, s.excerpt.StandsIn text

/-- A symbol other than a function name stands for itself. -/
theorem laid_ofSymbol {s : Symbol} (hs : s.isCallable = false) (e : Excerpt) :
    (Part.ofSymbol s e).Laid text := by
  cases s with
  | function => cases hs
  | operator | constant | free => trivial

/-- What a parenthesis opens is laid if it ends where the parenthesis says. -/
theorem laid_of_close {f : Frame} {items : List Part} {c outer : Nat} {p : Part}
    (hf : f.Laid text) (hinner : f.inner ≤ c) (hends : EndsAt text f.position c)
    (houter : text.slice f.position outer = text.slice f.position (c + 1))
    (hclose : Builder.close text f items c outer = p :: f.before) : p.Laid text := by
  obtain ⟨bracket, position, before⟩ := f
  cases bracket with
  | group =>
    obtain rfl := (List.cons.inj hclose).1
    exact ⟨c, hends, houter⟩
  | call g name slots slotStart =>
    obtain rfl := (List.cons.inj hclose).1
    obtain ⟨hname, hslots, hstand⟩ := hf
    have hlast : slotStart ≤ c := hinner
    refine ⟨⟨position, c, hname, hends, slots.reverse, _, List.reverse_cons, hslots, ?_⟩, ?_⟩
    · exact stop_slice hlast hends.lt.2
    · intro s hs
      rcases List.mem_cons.1 (List.mem_reverse.1 hs) with rfl | hs
      · exact standsIn_slice hlast hends.lt.2
      · exact hstand s hs

namespace Builder

variable {b : Builder} {tok : Token} {more : Text}

/-- What has been built so far stands in its place; `read` has been taken in. -/
structure Laid (text read : Text) (b : Builder) : Prop where
  /-- The parentheses are those of the text. -/
  follows : b.Follows read
  /-- Complete parts. -/
  parts : ∀ p ∈ b.parts, p.Laid text
  /-- Open parentheses. -/
  frames : ∀ f ∈ b.frames, f.Laid text ∧ f.inner ≤ b.position

theorem laid_empty (text : Text) : Laid text [] .empty where
  follows := follows_empty
  parts p hp := by simp [Builder.empty, mem_parts, walkAll] at hp
  frames f hf := by cases hf

namespace Laid

/-- Parts that are added by a token other than a function name or a closing parenthesis stand for
themselves. -/
theorem parts_step (h : b.Laid text read) (htok : ∀ f w, tok ≠ .symbol (.function f) w)
    (hclosing : tok ≠ .closing) : ∀ p ∈ (b.step text tok).parts, p.Laid text := by
  intro p hp
  rcases mem_parts_step hp with hp | ⟨e, rfl⟩ | ⟨s, w, e, heq, rfl⟩ | ⟨heq, -⟩
  · exact h.parts p hp
  · trivial
  · cases s with
    | function f => exact absurd heq (htok f w)
    | operator | constant | free => exact laid_ofSymbol rfl e
  · exact absurd heq hclosing

/-- Parentheses that stay open. -/
theorem frames_step (h : b.Laid text read) (tok : Token) :
    ∀ f ∈ b.frames, f.Laid text ∧ f.inner ≤ (b.step text tok).position := by
  intro f hf
  obtain ⟨hlaid, hinner⟩ := h.frames f hf
  exact ⟨hlaid, Nat.le_trans hinner (Nat.le_add_right ..)⟩

/-- A parenthesis that no function name waits for. -/
theorem opening (h : b.Laid text read) (hready : Ready b.items) :
    (b.step text .opening).Laid text (read ++ ['(']) := by
  refine ⟨h.follows.opening, h.parts_step (by simp) (by simp), ?_⟩
  have hframes := h.frames_step .opening
  rw [step_opening hready] at hframes ⊢
  refine List.forall_mem_cons.2 ⟨⟨trivial, ?_⟩, hframes⟩
  exact Nat.le_refl _

theorem closing (h : b.Laid text read) (htext : text = read ++ Token.closing.text ++ more) :
    (b.step text .closing).Laid text (read ++ [')']) := by
  refine ⟨h.follows.closing, ?_, ?_⟩
  · intro p hp
    rcases mem_parts_step hp with hp | ⟨e, rfl⟩ | ⟨s, w, e, heq, -⟩ | ⟨-, f, outer, hframes, hclose⟩
    · exact h.parts p hp
    · trivial
    · cases heq
    · -- the innermost parenthesis that is open is the one that the matching closes here
      obtain ⟨hlaid, hinner⟩ := h.frames f (hframes ▸ List.mem_cons_self)
      have hopened : (Matching.of read).opened = f.position :: outer.map Frame.position := by
        rw [← h.follows.opened, Builder.opened, hframes, List.map_cons]
      have hpair : (f.position, b.position) ∈ (Matching.of text).pairs := by
        rw [htext]
        refine Matching.pairs_subset _ _ ?_
        rw [Token.text, Matching.of_concat, Matching.read_pair hopened, h.follows.position]
        exact List.mem_append_right _ List.mem_cons_self
      obtain ⟨-, hopening, -⟩ := (Matching.placed_of text).pairs _ _ hpair
      exact laid_of_close hlaid hinner ⟨hopening, .inl hpair⟩ rfl hclose
  · intro f hf
    rw [frames_closing] at hf
    exact h.frames_step .closing f (List.mem_of_mem_tail hf)

theorem comma {following : Text} (h : b.Laid text read) (hfits : Token.comma.Fits r following)
    (htext : text = read ++ Token.comma.text ++ more) :
    (b.step text .comma).Laid text (read ++ [',']) := by
  refine ⟨h.follows.step hfits, h.parts_step (by simp) (by simp), ?_⟩
  have hposition := h.follows.position
  have hold := h.frames_step .comma
  match hframes : b.frames with
  | [] | ⟨.group, _, _⟩ :: _ =>
    rw [step_comma_misplaced (by simp [hframes])]
    exact hold
  | ⟨.call g name slots slotStart, opened, before⟩ :: outer =>
    rw [hframes] at hold
    obtain ⟨⟨⟨hname, hslots, hstand⟩, -⟩, houter⟩ := List.forall_mem_cons.1 hold
    have hmem : ⟨.call g name slots slotStart, opened, before⟩ ∈ b.frames :=
      hframes ▸ List.mem_cons_self
    have hinner : slotStart ≤ b.position := (h.frames _ hmem).2
    have hlength : b.position ≤ text.length := by
      rw [htext, hposition, List.append_assoc, List.length_append]
      exact Nat.le_add_right ..
    have hstop : (Slot.mk ⟨slotStart, text.slice slotStart b.position⟩
        b.items.reverse).excerpt.stop = b.position := stop_slice hinner hlength
    rw [step_comma hframes] at houter ⊢
    refine List.forall_mem_cons.2 ⟨⟨⟨hname, ?_, ?_⟩, Nat.le_refl _⟩, houter⟩
    · rw [List.reverse_cons]
      have hcomma : text[b.position]? = some ',' := by
        rw [htext, hposition, Token.text]
        simp
      have hconcat := hslots.concat (s := .mk ⟨slotStart, text.slice slotStart b.position⟩
        b.items.reverse) rfl (by rw [hstop]; exact hcomma)
      rwa [hstop] at hconcat
    · exact List.forall_mem_cons.2 ⟨standsIn_slice hinner hlength, hstand⟩

/-- **A token other than a function name keeps the invariant.** -/
theorem step {following : Text} (h : b.Laid text read) (hready : Ready b.items)
    (htok : ∀ f w, tok ≠ .symbol (.function f) w) (hfits : tok.Fits r following)
    (htext : text = read ++ tok.text ++ more) : (b.step text tok).Laid text (read ++ tok.text) := by
  cases tok with
  | opening => exact h.opening hready
  | closing => exact h.closing htext
  | comma => exact h.comma hfits htext
  | blank | number | symbol | unknown | repeatedPoint | uncalled =>
    exact ⟨h.follows.step hfits, h.parts_step htok (by simp), h.frames_step _⟩

end Laid

/-- **A function name and its parenthesis keep the invariant.** -/
theorem Laid.call {f : Operation} {w after : Text} {gap : List Token} (h : b.Laid text read)
    (hgap : isSilent gap = true)
    (hfits : InContext (Token.Fits r) after
      ([Token.symbol (.function f) w] ++ gap ++ [Token.opening]))
    (htext : text = read ++ ([Token.symbol (.function f) w] ++ gap ++
      [Token.opening]).flatMap Token.text ++ more) :
    (b.run text ([Token.symbol (.function f) w] ++ gap ++ [Token.opening])).Laid text
      (read ++ ([Token.symbol (.function f) w] ++ gap ++ [Token.opening]).flatMap Token.text) := by
  obtain ⟨n, hints, hrun⟩ := run_opening text b f w hgap
  have hfollows : (b.run text _).Follows _ := follows_run h.follows hfits
  have hposition := hfollows.position
  have hblanks := isBlank_of_isSilent hgap (inContext_append.1 (inContext_append.1 hfits).1).2
  simp only [List.flatMap_append, List.flatMap_singleton, Token.text] at hfollows hposition htext ⊢
  rw [hrun] at hfollows hposition ⊢
  have hn : n = b.position + w.length + (gap.flatMap Token.text).length := by
    simp only [List.length_append, List.length_singleton, ← h.follows.position] at hposition
    omega
  have hdrop : text.drop (b.position + w.length) = gap.flatMap Token.text ++ ('(' :: more) := by
    have hsplit : text = (read ++ w) ++ (gap.flatMap Token.text ++ ('(' :: more)) := by
      rw [htext]
      simp
    rw [hsplit, h.follows.position, ← List.length_append, List.drop_left]
  have hname : (Excerpt.mk b.position w).LeadsTo text n := by
    refine ⟨?_, ?_⟩
    · rw [hn]
      exact Nat.le_add_right ..
    · rw [Text.slice, Excerpt.stop]
      dsimp only
      rw [hdrop, hn, Nat.add_sub_cancel_left, List.take_left]
      exact hblanks
  refine ⟨hfollows, ?_, ?_⟩
  · intro p hp
    refine h.parts p ?_
    simpa [Builder.parts, Frame.parts, Bracket.parts, walkSlots, walkAll, or_comm] using hp
  · refine List.forall_mem_cons.2 ⟨⟨⟨hname, rfl, by simp⟩, Nat.le_refl _⟩, ?_⟩
    intro g hg
    obtain ⟨hlaid, hinner⟩ := h.frames g hg
    refine ⟨hlaid, ?_⟩
    dsimp only
    omega

end Builder

/-- **Induction on the tokens of a formula**, a function name together with the parenthesis that opens
its slots. -/
@[elab_as_elim]
theorem call_induction {motive : List Token → Prop} (nil : motive [])
    (cons : ∀ tok ts, tok.Fits r (ts.flatMap Token.text ++ []) →
      (∀ f w, tok ≠ .symbol (.function f) w) → motive ts → motive (tok :: ts))
    (call : ∀ f w gap ts,
      InContext (Token.Fits r) (ts.flatMap Token.text ++ [])
        ([Token.symbol (.function f) w] ++ gap ++ [Token.opening]) →
      isSilent gap = true → motive ts →
      motive ([Token.symbol (.function f) w] ++ gap ++ [Token.opening] ++ ts))
    (ts : List Token) (hfits : InContext (Token.Fits r) [] ts) : motive ts := by
  induction hlength : ts.length using Nat.strong_induction_on generalizing ts with
  | _ n ih =>
    cases ts with
    | nil => exact nil
    | cons tok ts =>
      by_cases hcall : ∃ f w, tok = .symbol (.function f) w
      · obtain ⟨f, w, rfl⟩ := hcall
        have hstarts : startsCall (ts.flatMap Token.text ++ []) = true := hfits.1.2.2.2 rfl
        rw [List.append_nil] at hstarts
        obtain ⟨gap, rest, rfl, hgap⟩ := Builder.exists_opening hfits.2 hstarts
        have hrest : InContext (Token.Fits r) [] rest := (inContext_append.1 hfits.2).2
        have hshorter : rest.length < n := by
          rw [← hlength]
          simp only [List.length_cons, List.length_append]
          omega
        have hsplit : Token.symbol (.function f) w :: (gap ++ [Token.opening] ++ rest) =
            [Token.symbol (.function f) w] ++ gap ++ [Token.opening] ++ rest := by simp
        rw [hsplit] at hfits ⊢
        exact call f w gap rest (inContext_append.1 hfits).1 hgap
          (ih rest.length hshorter rest hrest rfl)
      · have hshorter : ts.length < n := by
          rw [← hlength]
          exact Nat.lt_succ_self _
        exact cons tok ts hfits.1 (fun f w heq => hcall ⟨f, w, heq⟩)
          (ih ts.length hshorter ts hfits.2 rfl)

namespace Builder

/-- **Induction on a run.**  What a token keeps, and a function name together with the parenthesis that
opens its slots, is so at the end as well.  All that has been built stands in its place meanwhile. -/
theorem run_induction {motive : Text → Builder → Prop}
    (step : ∀ {b : Builder} {read more following : Text} {tok : Token}, b.Laid text read →
      Ready b.items → (∀ f w, tok ≠ .symbol (.function f) w) → tok.Fits r following →
      text = read ++ tok.text ++ more → motive read b →
      motive (read ++ tok.text) (b.step text tok))
    (call : ∀ {b : Builder} {read after : Text} {f : Operation} {w : Text} {gap : List Token},
      b.Laid text read → isSilent gap = true →
      InContext (Token.Fits r) after ([Token.symbol (.function f) w] ++ gap ++ [Token.opening]) →
      motive read b →
      motive (read ++ ([Token.symbol (.function f) w] ++ gap ++ [Token.opening]).flatMap Token.text)
        (b.run text ([Token.symbol (.function f) w] ++ gap ++ [Token.opening])))
    (ts : List Token) (hfits : InContext (Token.Fits r) [] ts) :
    ∀ (b : Builder) (read : Text), b.Laid text read → Ready b.items →
      text = read ++ ts.flatMap Token.text → motive read b →
      (b.run text ts).Laid text text ∧ motive text (b.run text ts) := by
  refine call_induction ?_ ?_ ?_ ts hfits
  · intro b read h _ htext hmotive
    rw [List.flatMap_nil, List.append_nil] at htext
    subst htext
    exact ⟨h, hmotive⟩
  · intro tok ts htokfits htok ih b read h hready htext hmotive
    rw [List.flatMap_cons, ← List.append_assoc] at htext
    rw [run_cons]
    exact ih _ _ (h.step hready htok htokfits htext) (ready_step hready htok) htext
      (step h hready htok htokfits htext hmotive)
  · intro f w gap ts hcall hgap ih b read h hready htext hmotive
    rw [List.flatMap_append, ← List.append_assoc] at htext
    have hitems : Ready (b.run text ([Token.symbol (.function f) w] ++ gap ++
        [Token.opening])).items := by
      obtain ⟨n, hints, hrun⟩ := run_opening text b f w hgap
      rw [hrun]
      exact ready_nil
    rw [run_append]
    exact ih _ _ (h.call hgap hcall htext) hitems htext (call h hgap hcall hmotive)

/-- **What is built of a formula stands in its place.** -/
theorem laid_tokens (r : Registry) (text : Text) :
    (empty.run text (tokens r text)).Laid text text := by
  have htext : text = [] ++ (tokens r text).flatMap Token.text := by
    rw [text_tokens, List.nil_append]
  have hrun := run_induction (motive := fun _ _ => True) (fun _ _ _ _ _ h => h) (fun _ _ _ h => h)
    (tokens r text) (fits_tokens r text) empty [] (laid_empty text) ready_nil htext trivial
  exact hrun.1

end Builder

/-- Every part of a formula stands in its place. -/
theorem laid_parse {p : Part} (h : p ∈ walkAll (parse r text).items) : p.Laid text := by
  have hlaid := Builder.laid_tokens r text
  have hposition : (Builder.empty.run text (tokens r text)).position = text.length :=
    hlaid.follows.position
  rcases Builder.mem_walkAll_finish h with hpart | ⟨inner, f, outer, hframes, hclose⟩
  · exact hlaid.parts p hpart
  · have hmem : f ∈ (Builder.empty.run text (tokens r text)).frames :=
      hframes ▸ List.mem_append_right _ List.mem_cons_self
    obtain ⟨hf, hinner⟩ := hlaid.frames f hmem
    have hopened : f.position ∈ (Matching.of text).opened := by
      rw [← hlaid.follows.opened]
      exact List.mem_map_of_mem hmem
    have hopening := (Matching.placed_of text).opened _ hopened
    refine laid_of_close hf hinner ⟨hopening, .inr ⟨hopened, hposition⟩⟩ ?_ hclose
    rw [hposition, Text.slice, Text.slice, List.take_of_length_le, List.take_of_length_le]
    · simp only [List.length_drop]
      omega
    · simp

theorem standsIn_group {e : Excerpt} {c : Nat} (hends : EndsAt text e.start c)
    (htext : e.text = text.slice e.start (c + 1)) :
    e.stop = min (c + 1) text.length ∧ e.StandsIn text := by
  have hlt := hends.lt
  have hmin : e = ⟨e.start, text.slice e.start (min (c + 1) text.length)⟩ := by
    rw [← slice_min, ← htext]
  have hstart : e.start ≤ min (c + 1) text.length := by omega
  have hle : min (c + 1) text.length ≤ text.length := Nat.min_le_right ..
  rw [hmin]
  exact ⟨stop_slice hstart hle, standsIn_slice hstart hle⟩

theorem standsIn_part {p : Part} (h : p ∈ walkAll (parse r text).items) :
    p.excerpt.StandsIn text := by
  have hleaf : ∀ l, p.leaf? = some l → l.excerpt.StandsIn text := fun l hl =>
    (isWord_leaves r text l (List.mem_filterMap.2 ⟨p, h, hl⟩)).stands
  cases p with
  | group e items =>
    obtain ⟨c, hends, htext⟩ := laid_parse h
    exact (standsIn_group hends htext).2
  | number e | operator op e | constant literal expression e | free literal e | call f e slots =>
    exact hleaf _ rfl

/-! ## The outline -/

/-- Every row of the outline stands in its place if all parts do. -/
theorem standsIn_rows (p : Part) :
    (∀ q ∈ p.walk, q.Laid text ∧ q.excerpt.StandsIn text) →
      ∀ depth operands, ∀ row ∈ p.rows depth operands, row.written.StandsIn text := by
  induction p using Part.induction with
  | number e | operator op e | constant literal expression e | free literal e =>
    intro h depth operands
    simpa [Part.rows, Part.excerpt] using (h _ (mem_walk_self _)).2
  | group e items ih =>
    intro h depth operands
    simp only [Part.walk, List.forall_mem_cons] at h
    rw [Part.rows]
    refine List.forall_mem_cons.2 ⟨h.1.2, forall_mem_rowsOf (fun p hp => ih p hp ?_) _ _⟩
    exact fun q hq => h.2 q (mem_walkAll.2 ⟨p, hp, hq⟩)
  | call f e slots ih =>
    intro h depth operands
    simp only [Part.walk, List.forall_mem_cons] at h
    obtain ⟨⟨⟨⟨o, c, -, -, init, last, rfl, hslots, -⟩, hstand⟩, hname⟩, hinside⟩ := h
    rw [Part.rows]
    refine List.forall_mem_cons.2 ⟨hname, forall_mem_slotRows hstand ?_ ?_⟩
    · exact fun s hs => standsIn_singleton (hslots.comma s hs)
    · intro s hs
      refine forall_mem_rowsOf (fun p hp => ih s hs p hp ?_) _ _
      exact fun q hq => hinside q (mem_walkSlots.2 ⟨s, hs, mem_walkAll.2 ⟨p, hp, hq⟩⟩)

theorem standsIn_parse (r : Registry) (text : Text) :
    ∀ row ∈ rowsOf 0 false (parse r text).items, row.written.StandsIn text := by
  refine forall_mem_rowsOf (fun p hp => standsIn_rows p ?_) _ _
  intro q hq
  have hmem : q ∈ walkAll (parse r text).items := mem_walkAll.2 ⟨p, hp, hq⟩
  exact ⟨laid_parse hmem, standsIn_part hmem⟩

/-! ## Lists in groups and slots -/

/-- A list lies within the text that it is read from. -/
theorem ReadsAs.lieWithin {t : Text} {start : Nat} {items : List Part}
    (h : ReadsAs r t start items) : LieWithin start (start + t.length) items := by
  intro row hrow
  rw [h.rows, List.mem_map] at hrow
  obtain ⟨row, hmem, rfl⟩ := hrow
  have hstop := (standsIn_parse r t row hmem).1
  simp only [Row.shift, Excerpt.shift, Excerpt.stop] at hstop ⊢
  omega

/-- Whether a group is cut off is known from its parenthesis. -/
theorem length_inside {e : Excerpt} {items : List Part} {c : Nat}
    (h : .group e items ∈ walkAll (parse r text).items) (hends : EndsAt text e.start c)
    (hstop : e.stop = min (c + 1) text.length) :
    e.start + 1 + ((parse r text).inside e).length = c := by
  obtain ⟨hwritten, -⟩ := readsAs_of_group h
  have hopened : (Builder.empty.run text (tokens r text)).opened = (Matching.of text).opened :=
    (Builder.follows_tokens r text).opened
  have hlength := congrArg List.length hwritten
  rw [Excerpt.stop, hlength] at hstop
  have hlt := hends.lt
  obtain ⟨-, hpair | ⟨hmem, rfl⟩⟩ := hends
  · have hcut : (parse r text).cutsOff e = false := by
      rw [Parse.cutsOff, decide_eq_false_iff_not, mem_errors_unmatchedOpening, hopened]
      exact Matching.not_mem_opened hpair
    have hc := ((Matching.placed_of text).pairs _ _ hpair).2.2
    have hclength := (List.getElem?_eq_some_iff.1 hc).1
    rw [hcut] at hstop
    simp only [List.length_append, List.length_cons, List.length_nil, Bool.false_eq_true,
      if_false] at hstop
    omega
  · have hcut : (parse r text).cutsOff e = true := by
      rw [Parse.cutsOff, decide_eq_true_iff, mem_errors_unmatchedOpening, hopened]
      exact hmem
    rw [hcut] at hstop
    simp only [List.length_append, List.length_cons, List.length_nil, if_true] at hstop
    omega

/-- Each group and each call is well formed. -/
theorem formed_of_mem_walkAll {p : Part} (hp : p ∈ walkAll (parse r text).items) :
    p.Formed text := by
  have hlaid := laid_parse hp
  cases p with
  | number | operator | constant | free => trivial
  | group e items =>
    obtain ⟨c, hends, htext⟩ := hlaid
    have hstop := (standsIn_group hends htext).1
    have hinside := (readsAs_of_group hp).2.lieWithin
    rw [length_inside hp hends hstop] at hinside
    exact ⟨c, hends, hstop, hinside⟩
  | call f name slots =>
    obtain ⟨⟨o, c, hname, hends, hslots⟩, -⟩ := hlaid
    exact ⟨o, c, hname, hends, hslots, fun s hs => (readsAs_of_slot hp s hs).lieWithin⟩

/-- **Every tree is well formed.**  Each row of its outline, for a part, a slot or a comma, stands
where it says in the formula, and right inside a row that may hold it.  Each group and each call is
well formed.  All of this is so whatever errors there are. -/
theorem formed_parse (r : Registry) (text : Text) :
    (∀ row ∈ rowsOf 0 false (parse r text).items, row.written.StandsIn text) ∧
    Nested 0 .group (rowsOf 0 false (parse r text).items) ∧
    ∀ p ∈ walkAll (parse r text).items, p.Formed text :=
  ⟨standsIn_parse r text, nested_rowsOf _ _ _, fun _ hp => formed_of_mem_walkAll hp⟩

end Formula

import Formula.Proofs.Part.Words
import Formula.Proofs.Relabelling.Basic

/-!
# Building a relabelled tree

If the tokens of two texts are the same but for a relabelling, so is what is built from them.  A
blank may stand for any number of blanks, since it only moves the builder on (`Relabels`).

The builder looks at positions in one place, where a number joins a minus sign that it touches, and
it copies text where a list ends.  What a relabelling must keep for the builder, and for what is
found wrong with a tree afterwards, is put together in `Suits`: words keep their length, words that
touch go on doing so, and no others do.
-/

namespace Formula

/-- A relabelling turns `text` into `text'`. -/
structure Relabelling.Suits (R : Relabelling) (text text' : Text) : Prop where
  /-- Nothing comes before the beginning. -/
  position_zero : R.position 0 = 0
  /-- The end is the end. -/
  position_length : R.position text.length = text'.length
  /-- No position passes another one. -/
  position_le : ∀ a b, a ≤ b → R.position a ≤ R.position b
  /-- What is written without blanks keeps its length. -/
  position_stop : ∀ e : Excerpt, e.StandsIn text → (∀ c ∈ e.text, isBlank c = false) →
    R.position e.stop = R.position e.start + e.text.length
  /-- What stands between two positions, afterwards. -/
  content_slice : ∀ a b, R.content ⟨a, text.slice a b⟩ = text'.slice (R.position a) (R.position b)
  /-- Words touch afterwards just if they do before. -/
  touch_iff : ∀ e f : Excerpt, e.IsWord text → f.IsWord text →
    (R.position e.stop = R.position f.start ↔ e.stop = f.start)
  /-- Nothing gets in front of a word. -/
  le_iff : ∀ e : Excerpt, e.IsWord text → ∀ a, R.position a ≤ R.position e.start ↔ a ≤ e.start
  /-- The characters of numbers stay. -/
  letter_numeral : ∀ c, c.isDigit = true ∨ c = '.' ∨ c = '-' → R.letter c = c

variable {R : Relabelling} {text text' read : Text} {r : Registry}

namespace Relabelling.Suits

variable (h : R.Suits text text')

include h

theorem stop_word {e : Excerpt} (he : e.IsWord text) : (R.word e).stop = R.position e.stop := by
  have hsolid : ∀ c ∈ e.text, isBlank c = false := fun c hc =>
    isBlank_of_isDelimiter_eq_false (he.solid c hc)
  rw [h.position_stop e he.stands hsolid]
  simp [word, Excerpt.stop]

/-- A group or a slot ends where its end goes. -/
theorem stop_area {e : Excerpt} (he : e.StandsIn text) : (R.area e).stop = R.position e.stop := by
  have hslice : e = ⟨e.start, text.slice e.start e.stop⟩ := by rw [he.2]
  have hle : R.position e.start ≤ R.position e.stop := h.position_le _ _ (Nat.le_add_right ..)
  have hlength : R.position e.stop ≤ text'.length := by
    rw [← h.position_length]
    exact h.position_le _ _ he.1
  have hcontent : R.content e = text'.slice (R.position e.start) (R.position e.stop) := by
    conv_lhs => rw [hslice]
    exact h.content_slice _ _
  rw [area, hcontent]
  exact stop_slice hle hlength

/-- A single character that is no blank. -/
theorem position_succ {n : Nat} {c : Char} (hc : text[n]? = some c) (hblank : isBlank c = false) :
    R.position (n + 1) = R.position n + 1 := by
  have hstep := h.position_stop ⟨n, [c]⟩ (standsIn_singleton hc) (by simpa using hblank)
  exact hstep

end Relabelling.Suits

/-- Tokens, of which the first is read at a position, and the tokens afterwards. -/
inductive Relabels (R : Relabelling) : Nat → List Token → List Token → Prop
  /-- Nothing. -/
  | nil {n : Nat} : Relabels R n [] []
  /-- A blank becomes any number of blanks. -/
  | blank {n : Nat} {c : Char} {gap : Text} {ts ts' : List Token}
    (hgap : R.position (n + 1) = R.position n + gap.length) (h : Relabels R (n + 1) ts ts') :
    Relabels R n (.blank c :: ts) (gap.map .blank ++ ts')
  /-- Any other token is one token. -/
  | other {n : Nat} {tok : Token} {ts ts' : List Token} (htok : ∀ c, tok ≠ .blank c)
    (h : Relabels R (n + tok.text.length) ts ts') :
    Relabels R n (tok :: ts) (tok.relabel R :: ts')

namespace Builder

/-- A builder afterwards. -/
def relabel (R : Relabelling) (b : Builder) : Builder :=
  ⟨R.position b.position, relabelAll R b.items, b.frames.map (Frame.relabel R),
    b.errors.map (ParseError.relabel R), b.hints.map (Hint.relabel R)⟩

variable {b : Builder} {tok : Token} {more following : Text}

/-- The tree that is built is relabelled. -/
theorem relabel_finish (h : R.Suits text text') (b : Builder) :
    relabelAll R (b.finish text) = (b.relabel R).finish text' := by
  rw [finish, finish, relabelAll_reverse, relabel_closeAll h.content_slice]
  rfl

theorem relabel_opening (hnext : R.position (b.position + 1) = R.position b.position + 1) :
    (b.step text .opening).relabel R = (b.relabel R).step text' .opening := by
  by_cases hready : Ready b.items
  · have hready' : Ready (b.relabel R).items := ready_relabelAll hready
    rw [step_opening hready, step_opening hready', relabel, hnext]
    rfl
  · simp only [Ready, ne_eq, not_forall, not_not] at hready
    obtain ⟨f, name, before, hitems⟩ := hready
    have hitems' : (b.relabel R).items = .call f (R.word name) [] :: relabelAll R before := by
      simp [relabel, hitems, relabelAll, Part.relabel, relabelSlots]
    rw [step_opening_call hitems, step_opening_call hitems', relabel]
    simp [relabel, Frame.relabel, Bracket.relabel, relabelSlots, relabelAll, hnext]

theorem relabel_closing (h : R.Suits text text')
    (hnext : R.position (b.position + 1) = R.position b.position + 1) :
    (b.step text .closing).relabel R = (b.relabel R).step text' .closing := by
  simp only [step, take, closeBracket]
  cases hframes : b.frames with
  | nil =>
    simp [relabel, hframes, report, ParseError.relabel, ParseError.stop, ParseError.Cause.relabel,
      Token.text, hnext]
  | cons f outer =>
    simp [relabel, hframes, Token.text, hnext, relabel_close h.content_slice]

theorem relabel_comma (h : R.Suits text text')
    (hnext : R.position (b.position + 1) = R.position b.position + 1) :
    (b.step text .comma).relabel R = (b.relabel R).step text' .comma := by
  simp only [step, take, separate]
  cases hframes : b.frames with
  | nil =>
    simp [relabel, hframes, report, ParseError.relabel, ParseError.stop, ParseError.Cause.relabel,
      Token.text, hnext]
  | cons f outer =>
    obtain ⟨bracket, opened, before⟩ := f
    cases bracket with
    | group =>
      simp [relabel, hframes, report, ParseError.relabel, ParseError.stop, ParseError.Cause.relabel,
        Token.text, hnext, Frame.relabel, Bracket.relabel]
    | call g name slots slotStart =>
      simp [relabel, hframes, Token.text, hnext, Frame.relabel, Bracket.relabel, relabelSlots,
        Slot.relabel, Relabelling.area, h.content_slice, relabelAll]

/-- **A token that is no blank** does afterwards what it does before. -/
theorem relabel_step (h : R.Suits text text') (hb : b.Worded text read)
    (hfits : tok.Fits r following) (htext : text = read ++ tok.text ++ more)
    (htok : ∀ c, tok ≠ .blank c) :
    (b.step text tok).relabel R = (b.relabel R).step text' (tok.relabel R) := by
  have hstands : (Excerpt.mk b.position tok.text).StandsIn text :=
    standsIn_iff.2 ⟨read, more, htext, hb.position⟩
  have hnext (hblank : ∀ c ∈ tok.text, isBlank c = false) :
      R.position (b.position + tok.text.length) = R.position b.position + tok.text.length :=
    h.position_stop _ hstands hblank
  cases tok with
  | blank c => exact absurd rfl (htok c)
  | opening => exact relabel_opening (hnext (List.forall_mem_singleton.2 (by decide)))
  | closing => exact relabel_closing h (hnext (List.forall_mem_singleton.2 (by decide)))
  | comma => exact relabel_comma h (hnext (List.forall_mem_singleton.2 (by decide)))
  | number t =>
    have hsolid := Numeral.solid_of_isPlain hfits
    have hword : (Excerpt.mk b.position t).IsWord text :=
      ⟨hstands, hsolid, Numeral.ne_nil_of_isPlain hfits⟩
    have htouch : ∀ op sign, b.items = [.operator op sign] →
        ((R.word sign).stop = R.position b.position ↔ sign.stop = b.position) := by
      intro op sign hitems
      have hsign : sign.IsWord text :=
        hb.leaves (.symbol (.operator op) sign) (by simp [leaves, hitems])
      rw [h.stop_word hsign]
      exact h.touch_iff sign _ hsign hword
    have hposition := hnext fun c hc => isBlank_of_isDelimiter_eq_false (hsolid c hc)
    have hpush : relabelAll R (push (.number ⟨b.position, t⟩) b.items) =
        push (.number (R.word ⟨b.position, t⟩)) (relabelAll R b.items) := relabel_push_number htouch
    simp only [step, take, relabel, hpush, hposition]
    simp [Token.relabel, Token.text, Relabelling.word]
  | symbol s t =>
    have hposition := hnext fun c hc => isBlank_of_isDelimiter_eq_false (hfits.2.2.1 c hc)
    rw [step_symbol, Token.relabel, step_symbol]
    simp only [Token.text] at hposition
    simp [relabel, relabelAll, relabel_ofSymbol, Relabelling.word, hposition]
  | unknown c =>
    have hposition := hnext (by simpa [Token.text] using isBlank_of_isDelimiter_eq_false hfits)
    simp only [Token.text, List.length_singleton] at hposition
    simp [step, take, relabel, Token.relabel, Token.text, report, ParseError.unknown,
      ParseError.relabel, ParseError.stop, ParseError.Cause.relabel, hposition]
  | repeatedPoint =>
    have hposition := hnext (List.forall_mem_singleton.2 (by decide))
    simp only [Token.text, List.length_singleton] at hposition
    simp [step, take, relabel, Token.relabel, Token.text, report, ParseError.relabel,
      ParseError.stop, ParseError.Cause.relabel, hposition]
  | uncalled name =>
    simp [step, take, relabel, Token.relabel, Token.text, Hint.relabel]

/-- Blanks only move the builder on. -/
theorem run_map_blank (b : Builder) (gap : Text) :
    b.run text (gap.map .blank) = { b with position := b.position + gap.length } := by
  induction gap generalizing b with
  | nil => rfl
  | cons c gap ih =>
    rw [List.map_cons, run_cons, ih, List.length_cons, Nat.add_comm gap.length, ← Nat.add_assoc]
    rfl

/-- **What is built of the tokens afterwards** is what is built of them before, relabelled. -/
theorem relabel_run (h : R.Suits text text') {n : Nat} {ts ts' : List Token}
    (hts : Relabels R n ts ts') (hn : b.position = n) (hb : b.Worded text read) {after : Text}
    (hfits : InContext (Token.Fits r) after ts)
    (htext : text = read ++ ts.flatMap Token.text ++ more) :
    (b.run text ts).relabel R = (b.relabel R).run text' ts' := by
  induction hts generalizing b read with
  | nil => rfl
  | @blank n c gap ts ts' hgap hts ih =>
    rw [List.flatMap_cons, ← List.append_assoc] at htext
    have hprefix := htext
    rw [List.append_assoc] at hprefix
    have hrun : (b.relabel R).run text' (gap.map .blank) =
        (b.step text (.blank c)).relabel R := by
      have hposition : R.position (b.position + 1) = R.position b.position + gap.length := by
        rw [hn, hgap]
      rw [run_map_blank]
      simp [relabel, step, take, Token.text, hposition]
    rw [run_cons, run_append, hrun]
    exact ih (by rw [← hn]; rfl) (hb.step hfits.1 hprefix) hfits.2 htext
  | other htok hts ih =>
    rw [List.flatMap_cons, ← List.append_assoc] at htext
    have hprefix := htext
    rw [List.append_assoc] at hprefix
    rw [run_cons, run_cons, ← relabel_step h hb hfits.1 hprefix htok]
    exact ih (by rw [position_step, hn]) (hb.step hfits.1 hprefix) hfits.2 htext

end Builder

end Formula

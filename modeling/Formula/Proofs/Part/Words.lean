import Formula.Proofs.Tiling

/-!
# Words of a text

An excerpt stands in a text if it is what is written at its place; it is a *word* of the text if it
has characters and none of them is a delimiter.  Whatever tokens are taken in, the leaves of what
has been built are words, and so are the unknown identifiers that have been reported.
-/

namespace Formula

variable {text read : Text} {r : Registry}

/-- An excerpt is what is written in a text at its place. -/
def Excerpt.StandsIn (text : Text) (e : Excerpt) : Prop :=
  e.stop ≤ text.length ∧ text.slice e.start e.stop = e.text

theorem standsIn_iff {e : Excerpt} : e.StandsIn text ↔ ∃ read more,
    text = read ++ e.text ++ more ∧ e.start = read.length := by
  constructor
  · rintro ⟨hstop, hslice⟩
    refine ⟨text.take e.start, text.drop e.stop, ?_, ?_⟩
    · have hstart : e.start ≤ e.stop := Nat.le_add_right ..
      rw [← hslice, Text.slice, List.append_assoc]
      conv_lhs => rw [← List.take_append_drop e.start text]
      conv_lhs => rw [← List.take_append_drop (e.stop - e.start) (text.drop e.start)]
      rw [List.drop_drop, Nat.add_sub_cancel' hstart]
    · rw [Excerpt.stop] at hstop
      rw [List.length_take]
      omega
  · rintro ⟨read, more, rfl, hstart⟩
    refine ⟨?_, ?_⟩
    · simp only [Excerpt.stop, hstart, List.length_append]
      omega
    · rw [Text.slice, Excerpt.stop, Nat.add_sub_cancel_left, hstart, List.append_assoc,
        List.drop_left, List.take_left]

theorem stop_slice {a b : Nat} (hab : a ≤ b) (hb : b ≤ text.length) :
    (Excerpt.mk a (text.slice a b)).stop = b := by
  rw [Excerpt.stop, Text.length_slice hb]
  exact Nat.add_sub_cancel' hab

theorem standsIn_slice {a b : Nat} (hab : a ≤ b) (hb : b ≤ text.length) :
    (Excerpt.mk a (text.slice a b)).StandsIn text := by
  rw [Excerpt.StandsIn, stop_slice hab hb]
  exact ⟨hb, rfl⟩

/-- A single character. -/
theorem standsIn_singleton {n : Nat} {c : Char} (h : text[n]? = some c) :
    (Excerpt.mk n [c]).StandsIn text := by
  obtain ⟨hlt, hget⟩ := List.getElem?_eq_some_iff.1 h
  refine ⟨hlt, ?_⟩
  change (text.drop n).take (n + 1 - n) = [c]
  rw [Nat.add_sub_cancel_left, List.drop_eq_getElem_cons hlt, hget]
  rfl

/-- Two excerpts, one right after the other. -/
theorem Excerpt.StandsIn.join {e f : Excerpt} (he : e.StandsIn text) (hf : f.StandsIn text)
    (htouch : e.stop = f.start) : (Excerpt.mk e.start (e.text ++ f.text)).StandsIn text := by
  obtain ⟨read, more, htext, hstart⟩ := standsIn_iff.1 he
  obtain ⟨read', more', htext', hstart'⟩ := standsIn_iff.1 hf
  have hread : read' = read ++ e.text := by
    have hlength : read'.length = (read ++ e.text).length := by
      rw [← hstart', ← htouch, Excerpt.stop, hstart, List.length_append]
    rw [htext, List.append_assoc read'] at htext'
    exact (List.append_inj htext' hlength.symm).1.symm
  refine standsIn_iff.2 ⟨read, more', ?_, hstart⟩
  rw [htext', hread]
  simp

/-- A slice ends where the text ends at the latest. -/
theorem slice_min (t : Text) (a b : Nat) : t.slice a b = t.slice a (min b t.length) := by
  rcases Nat.le_total b t.length with h | h
  · rw [Nat.min_eq_left h]
  · have hlength : (t.drop a).length ≤ b - a := by
      rw [List.length_drop]
      omega
    rw [Nat.min_eq_right h, Text.slice, Text.slice, List.take_of_length_le hlength,
      ← List.length_drop, List.take_length]

/-- Nothing stands between two positions in the wrong order. -/
theorem slice_of_le {a b : Nat} (h : b ≤ a) : text.slice a b = [] := by
  rw [Text.slice, Nat.sub_eq_zero_of_le h, List.take_zero]

/-- Nothing stands after the end. -/
theorem slice_of_length_le {a : Nat} (h : text.length ≤ a) (b : Nat) : text.slice a b = [] := by
  rw [Text.slice, List.drop_of_length_le h, List.take_nil]

/-- An excerpt is a word of a text, in its place. -/
structure Excerpt.IsWord (text : Text) (e : Excerpt) : Prop where
  /-- It is what is written there. -/
  stands : e.StandsIn text
  /-- No character is a delimiter. -/
  solid : Solid e.text
  /-- There is a character. -/
  ne_nil : e.text ≠ []

/-- Two words that touch. -/
theorem Excerpt.IsWord.join {e f : Excerpt} (he : e.IsWord text) (hf : f.IsWord text)
    (htouch : e.stop = f.start) : (Excerpt.mk e.start (e.text ++ f.text)).IsWord text where
  stands := he.stands.join hf.stands htouch
  solid := he.solid.append hf.solid
  ne_nil := List.append_ne_nil_of_left_ne_nil he.ne_nil _

/-- What an error says about an unknown identifier: it is a word, and that long. -/
def ParseError.IsPlaced (text : Text) (e : ParseError) : Prop :=
  ∀ t, e.identifier? = some t → e.length = t.length ∧ (Excerpt.mk e.start t).IsWord text

/-- The word that an error about an unknown identifier is about. -/
theorem ParseError.IsPlaced.stop_eq {e : ParseError} (h : e.IsPlaced text) {t : Text}
    (ht : e.identifier? = some t) :
    (Excerpt.mk e.start t).IsWord text ∧ (Excerpt.mk e.start t).stop = e.stop := by
  obtain ⟨hlength, hword⟩ := h t ht
  refine ⟨hword, ?_⟩
  rw [Excerpt.stop, ParseError.stop, hlength]

theorem isPlaced_join? {a b c : ParseError} (ha : a.IsPlaced text) (hb : b.IsPlaced text)
    (hjoin : a.join? b = some c) : c.IsPlaced text := by
  obtain ⟨acause, astart, alength⟩ := a
  obtain ⟨bcause, bstart, blength⟩ := b
  simp only [ParseError.join?] at hjoin
  split at hjoin
  · rename_i s t
    split at hjoin
    · rename_i htouch
      obtain rfl := Option.some.inj hjoin
      intro u hu
      obtain rfl := Option.some.inj hu
      obtain ⟨hs, hsstop⟩ := ha.stop_eq rfl
      obtain ⟨ht, -⟩ := hb.stop_eq rfl
      have hword := hs.join ht (hsstop.trans htouch.symm)
      have hslength : alength = s.length := (ha s rfl).1
      have htlength : blength = t.length := (hb t rfl).1
      refine ⟨?_, hword⟩
      simp only [List.length_append]
      omega
    · cases hjoin
  · cases hjoin

theorem isPlaced_collapse {errors : List ParseError} (h : ∀ e ∈ errors, e.IsPlaced text) :
    ∀ e ∈ collapse errors, e.IsPlaced text :=
  forall_mem_collapse (fun _ _ _ => isPlaced_join?) h

namespace Builder

variable {b : Builder} {tok : Token} {more following : Text}

/-- Leaves and unknown identifiers of what has been built are words; `read` has been taken in. -/
structure Worded (text read : Text) (b : Builder) : Prop where
  /-- The builder stands behind what it has taken in. -/
  position : b.position = read.length
  /-- Leaves. -/
  leaves : ∀ l ∈ b.leaves, l.excerpt.IsWord text
  /-- Unknown identifiers. -/
  errors : ∀ e ∈ b.errors, e.IsPlaced text

theorem worded_empty (text : Text) : Worded text [] .empty where
  position := rfl
  leaves l hl := by cases hl
  errors e he := by cases he

/-- A token without delimiters is a word. -/
theorem isWord_token (htext : text = read ++ tok.text ++ more) (hsolid : Solid tok.text)
    (hne : tok.text ≠ []) : (Excerpt.mk read.length tok.text).IsWord text :=
  ⟨standsIn_iff.2 ⟨read, more, htext, rfl⟩, hsolid, hne⟩

theorem isWord_leafStep {ls ls' : List Leaf} (h : LeafStep read.length tok ls ls')
    (hfits : tok.Fits r following) (htext : text = read ++ tok.text ++ more)
    (hls : ∀ l ∈ ls, l.excerpt.IsWord text) : ∀ l ∈ ls', l.excerpt.IsWord text := by
  cases h with
  | number t =>
    have hword := isWord_token htext (Numeral.solid_of_isPlain hfits)
      (Numeral.ne_nil_of_isPlain hfits)
    exact List.forall_mem_append.2 ⟨hls, List.forall_mem_singleton.2 hword⟩
  | symbol s t =>
    obtain ⟨hmem, hkey, hsolid, -⟩ := hfits
    have hword := isWord_token htext hsolid (Registry.ne_nil_of_lower hmem hkey)
    exact List.forall_mem_append.2 ⟨hls, List.forall_mem_singleton.2 hword⟩
  | signed t ls op sign hop htouch =>
    have hword := isWord_token htext (Numeral.solid_of_isPlain hfits)
      (Numeral.ne_nil_of_isPlain hfits)
    obtain ⟨hls, hsign⟩ := List.forall_mem_append.1 hls
    have hjoin := (List.forall_mem_singleton.1 hsign).join hword htouch
    exact List.forall_mem_append.2 ⟨hls, List.forall_mem_singleton.2 hjoin⟩
  | other => exact hls

theorem isPlaced_errorStep {es es' : List ParseError} (h : ErrorStep read.length tok es es')
    (hfits : tok.Fits r following) (htext : text = read ++ tok.text ++ more)
    (hes : ∀ e ∈ es, e.IsPlaced text) : ∀ e ∈ es', e.IsPlaced text := by
  cases h with
  | unknown c =>
    have hsolid : Solid [c] := by simpa [Solid, Token.Fits] using hfits
    have hword := isWord_token htext hsolid (List.cons_ne_nil _ _)
    refine List.forall_mem_append.2 ⟨hes, List.forall_mem_singleton.2 ?_⟩
    intro t ht
    obtain rfl := Option.some.inj ht
    exact ⟨rfl, hword⟩
  | repeatedPoint | unmatchedClosing | misplacedComma =>
    refine List.forall_mem_append.2 ⟨hes, List.forall_mem_singleton.2 ?_⟩
    intro t ht
    cases ht
  | other => exact hes

/-- **The builder keeps the invariant.** -/
theorem Worded.step (h : b.Worded text read) (hfits : tok.Fits r following)
    (htext : text = read ++ tok.text ++ more) :
    (b.step text tok).Worded text (read ++ tok.text) where
  position := by rw [position_step, h.position, List.length_append]
  leaves := isWord_leafStep (h.position ▸ leafStep_step b tok) hfits htext h.leaves
  errors := isPlaced_errorStep (h.position ▸ errorStep_step b tok) hfits htext h.errors

theorem worded_run {ts : List Token} {after : Text} (h : b.Worded text read)
    (hfits : InContext (Token.Fits r) after ts)
    (htext : text = read ++ ts.flatMap Token.text ++ more) :
    (b.run text ts).Worded text (read ++ ts.flatMap Token.text) := by
  induction ts generalizing b read with
  | nil =>
    rw [List.flatMap_nil, List.append_nil]
    exact h
  | cons tok ts ih =>
    rw [List.flatMap_cons, ← List.append_assoc] at htext ⊢
    have hstep := h.step hfits.1 (by rw [htext, List.append_assoc])
    exact ih hstep hfits.2 htext

theorem worded_tokens (r : Registry) (text : Text) :
    (empty.run text (tokens r text)).Worded text text := by
  have htext : text = [] ++ (tokens r text).flatMap Token.text ++ [] := by
    rw [text_tokens, List.nil_append, List.append_nil]
  have hrun := worded_run (worded_empty text) (fits_tokens r text) htext
  rwa [List.nil_append, text_tokens] at hrun

end Builder

/-- **The leaves of a formula are words.** -/
theorem isWord_leaves (r : Registry) (text : Text) :
    ∀ l ∈ leaves (parse r text).items, l.excerpt.IsWord text := by
  rw [leaves_parse]
  exact (Builder.worded_tokens r text).leaves

/-- Every error that is found, before any are joined, is placed. -/
theorem isPlaced_allErrors (r : Registry) (text : Text) :
    ∀ e ∈ (Builder.empty.run text (tokens r text)).allErrors, e.IsPlaced text := by
  refine List.forall_mem_append.2 ⟨(Builder.worded_tokens r text).errors, ?_⟩
  intro e he t ht
  obtain ⟨f, -, rfl⟩ := List.mem_map.1 he
  cases ht

/-- What lacks operands or arguments is no unknown identifier. -/
theorem isPlaced_argumentErrors {unknowns : List Nat} {stop : Nat} {items : List Part} :
    ∀ e ∈ argumentErrors unknowns stop items, e.IsPlaced text := by
  intro e he t ht
  have hnone := identifier?_of_mem_argumentErrors e he
  rw [ht] at hnone
  cases hnone

/-- **The unknown identifiers of a formula are words**, and so they are when those that touch have
been joined. -/
theorem isPlaced_parse (r : Registry) (text : Text) :
    ∀ e ∈ (parse r text).errors, e.IsPlaced text :=
  isPlaced_collapse
    (List.forall_mem_append.2 ⟨isPlaced_allErrors r text, isPlaced_argumentErrors⟩)

end Formula

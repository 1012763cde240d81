import Formula.Proofs.Relabelling.Building
import Formula.Proofs.WellFormed

/-!
# Reading a relabelled text

A relabelling of a text that suits its tokens relabels all that is read: the tree, what is wrong
with it, and the hints.  Of what is found wrong with a tree, a missing operand is left out if an
unknown identifier stands in the gap; that is so afterwards just if it is so before, as nothing gets
in front of a word.  Errors about unknown identifiers are joined if they touch, and words that touch
go on doing so.
-/

namespace Formula

variable {R : Relabelling} {text text' : Text} {r : Registry}

/-- The end of a part, and those of its slots, go where positions go. -/
def Part.EndsKept (R : Relabelling) : Part → Prop
  | .group e _ => (R.area e).stop = R.position e.stop
  | .call _ e slots => (R.word e).stop = R.position e.stop ∧
      ∀ s ∈ slots, (R.area s.excerpt).stop = R.position s.excerpt.stop
  | .number e | .operator _ e | .constant _ _ e | .free _ e => (R.word e).stop = R.position e.stop

theorem Part.EndsKept.stop_relabel {p : Part} (h : p.EndsKept R) :
    (p.relabel R).stop = R.position p.stop := by
  cases p with
  | call f e slots =>
    rw [Part.relabel]
    exact h.1
  | number | operator | constant | free | group =>
    rw [Part.relabel]
    exact h

/-- The parts of a formula keep their ends. -/
theorem endsKept_parse (h : R.Suits text text') (r : Registry) :
    ∀ p ∈ walkAll (parse r text).items, p.EndsKept R := by
  intro p hp
  have hleaf : ∀ l, p.leaf? = some l → (R.word l.excerpt).stop = R.position l.excerpt.stop :=
    fun l hl => h.stop_word (isWord_leaves r text l (List.mem_filterMap.2 ⟨p, hp, hl⟩))
  cases p with
  | group e items => exact h.stop_area (standsIn_part hp)
  | call f e slots =>
    exact ⟨hleaf _ rfl, fun s hs => h.stop_area ((laid_parse hp).2 s hs)⟩
  | number e | operator op e | constant literal expression e | free literal e => exact hleaf _ rfl

/-- An error about a word or a slot covers what the excerpt covers. -/
theorem relabel_error {cause : ParseError.Cause} (hcause : cause.relabel R = cause) {e e' : Excerpt}
    (hstart : e'.start = R.position e.start) (hstop : e'.stop = R.position e.stop) :
    (ParseError.mk cause e.start e.length).relabel R = ⟨cause, e'.start, e'.length⟩ := by
  have hlength : e'.length = R.position e.stop - R.position e.start := by
    rw [← hstop, ← hstart, Excerpt.stop, Nat.add_sub_cancel_left]
    rfl
  rw [ParseError.relabel, hcause, hstart, hlength]
  rfl

section Unknowns

variable {unknowns : List Nat}
  (hunknowns : ∀ u ∈ unknowns, ∀ a, R.position a ≤ R.position u ↔ a ≤ u)

include hunknowns

/-- An unknown identifier stands in a gap afterwards just if it does so before. -/
theorem anyWithin_map_position (a b : Nat) :
    anyWithin (unknowns.map R.position) (R.position a) (R.position b) = anyWithin unknowns a b := by
  rw [anyWithin, anyWithin, List.any_map, Bool.eq_iff_iff, List.any_eq_true, List.any_eq_true]
  refine exists_congr fun u => and_congr_right fun hu => ?_
  have ha := hunknowns u hu a
  have hb := hunknowns u hu b
  simp only [Function.comp_apply, Bool.and_eq_true, decide_eq_true_eq]
  omega

theorem lackingOperand_relabel (op : Operator) {e : Excerpt}
    (hstop : (R.word e).stop = R.position e.stop) (hasLeft hasRight : Bool) (gap stop : Nat) :
    lackingOperand (unknowns.map R.position) op (R.word e) hasLeft hasRight (R.position gap)
        (R.position stop) =
      (lackingOperand unknowns op e hasLeft hasRight gap stop).map (ParseError.relabel R) := by
  have hstart : (R.word e).start = R.position e.start := rfl
  simp only [lackingOperand, hstop, hstart, anyWithin_map_position hunknowns]
  split
  · rw [List.map_singleton, relabel_error rfl hstart hstop]
    rfl
  · rfl

omit hunknowns in
theorem callErrors_relabel (f : Operation) {e : Excerpt} {slots : List Slot}
    (h : (Part.call f e slots).EndsKept R) :
    callErrors f (R.word e) (relabelSlots R slots) =
      (callErrors f e slots).map (ParseError.relabel R) := by
  have hempty : emptySlotErrors (relabelSlots R slots) =
      (emptySlotErrors slots).map (ParseError.relabel R) := by
    simp only [emptySlotErrors, relabelSlots_eq_map, List.length_map]
    split
    · rfl
    · rw [List.filter_map, List.map_map, List.map_map]
      have hfilter : (Slot.isEmpty ∘ Slot.relabel R) = Slot.isEmpty := funext isEmpty_relabel
      rw [hfilter]
      refine List.map_congr_left fun s hs => ?_
      have hstop := h.2 s (List.mem_filter.1 hs).1
      simp only [Function.comp_apply, excerpt_relabel_slot]
      exact (relabel_error rfl rfl hstop).symm
  simp only [callErrors, suppliedArguments_relabelSlots, hempty, List.map_append]
  split
  · rfl
  · rw [List.map_singleton, relabel_error rfl rfl h.1]

theorem siblingErrors_relabelAll {items : List Part} (h : ∀ p ∈ items, p.EndsKept R)
    (stop : Nat) (hasLeft : Bool) (gap : Nat) :
    siblingErrors (unknowns.map R.position) (R.position stop) hasLeft (R.position gap)
        (relabelAll R items) =
      (siblingErrors unknowns stop hasLeft gap items).map (ParseError.relabel R) := by
  induction items generalizing hasLeft gap with
  | nil => simp [relabelAll, siblingErrors]
  | cons p items ih =>
    obtain ⟨hp, hitems⟩ := List.forall_mem_cons.1 h
    have hrest := ih hitems (!p.isOperator) p.stop
    rw [← hp.stop_relabel, ← isOperator_relabel] at hrest
    rw [relabelAll]
    cases p with
    | operator op e =>
      have hown := lackingOperand_relabel hunknowns op hp hasLeft (!items.isEmpty) gap stop
      rw [← isEmpty_relabelAll] at hown
      rw [Part.relabel] at hrest ⊢
      rw [siblingErrors, siblingErrors, List.map_append, hown, hrest, isEmpty_relabelAll]
      rfl
    | call f e slots =>
      rw [Part.relabel] at hrest ⊢
      rw [siblingErrors, siblingErrors, List.map_append, callErrors_relabel f hp, hrest]
      rfl
    | number | constant | free | group =>
      rw [Part.relabel] at hrest ⊢
      simp only [siblingErrors, List.nil_append]
      exact hrest

omit hunknowns in
theorem innerErrorsAll_relabelAll {items : List Part}
    (h : ∀ p ∈ items, (p.relabel R).innerErrors (unknowns.map R.position) =
      (p.innerErrors unknowns).map (ParseError.relabel R)) :
    innerErrorsAll (unknowns.map R.position) (relabelAll R items) =
      (innerErrorsAll unknowns items).map (ParseError.relabel R) := by
  induction items with
  | nil => simp [relabelAll, innerErrorsAll]
  | cons p items ih =>
    obtain ⟨hp, hitems⟩ := List.forall_mem_cons.1 h
    rw [relabelAll, innerErrorsAll, innerErrorsAll, List.map_append, hp, ih hitems]

/-- The errors of the list of a group or a slot. -/
theorem listErrors_relabelAll {e : Excerpt} {items : List Part}
    (he : (R.area e).stop = R.position e.stop) (hitems : ∀ p ∈ items, p.EndsKept R)
    (h : ∀ p ∈ items, (p.relabel R).innerErrors (unknowns.map R.position) =
      (p.innerErrors unknowns).map (ParseError.relabel R)) :
    innerErrorsAll (unknowns.map R.position) (relabelAll R items) ++
        siblingErrors (unknowns.map R.position) (R.area e).stop false (R.area e).start
          (relabelAll R items) =
      (innerErrorsAll unknowns items ++
        siblingErrors unknowns e.stop false e.start items).map (ParseError.relabel R) := by
  have hstart : (R.area e).start = R.position e.start := rfl
  rw [List.map_append, innerErrorsAll_relabelAll h, he, hstart,
    siblingErrors_relabelAll hunknowns hitems]

theorem innerErrors_relabel (p : Part) :
    (∀ q ∈ p.walk, q.EndsKept R) → (p.relabel R).innerErrors (unknowns.map R.position) =
      (p.innerErrors unknowns).map (ParseError.relabel R) := by
  induction p using Part.induction with
  | group e items ih =>
    intro h
    simp only [Part.walk, List.forall_mem_cons] at h
    have hwalk : ∀ p ∈ items, ∀ q ∈ p.walk, q.EndsKept R := fun p hp q hq =>
      h.2 q (mem_walkAll.2 ⟨p, hp, hq⟩)
    rw [Part.relabel, Part.innerErrors, Part.innerErrors]
    exact listErrors_relabelAll hunknowns h.1 (fun p hp => hwalk p hp p (mem_walk_self p))
      fun p hp => ih p hp (hwalk p hp)
  | call f e slots ih =>
    intro h
    simp only [Part.walk, List.forall_mem_cons] at h
    obtain ⟨⟨-, hends⟩, hinside⟩ := h
    rw [Part.relabel, Part.innerErrors, Part.innerErrors]
    induction slots with
    | nil => simp [relabelSlots, slotErrors]
    | cons s slots ihslots =>
      obtain ⟨hs, hslots⟩ := List.forall_mem_cons.1 ih
      obtain ⟨hend, hends⟩ := List.forall_mem_cons.1 hends
      rw [walkSlots_cons] at hinside
      obtain ⟨hitems, hinside⟩ := List.forall_mem_append.1 hinside
      have hwalk : ∀ p ∈ s.items, ∀ q ∈ p.walk, q.EndsKept R := fun p hp q hq =>
        hitems q (mem_walkAll.2 ⟨p, hp, hq⟩)
      rw [relabelSlots, slotErrors, slotErrors, List.map_append, ihslots hslots hinside hends]
      have hlist := listErrors_relabelAll hunknowns hend
        (fun p hp => hwalk p hp p (mem_walk_self p)) fun p hp => hs p hp (hwalk p hp)
      obtain ⟨a, items⟩ := s
      rw [Slot.relabel, Slot.errors, Slot.errors]
      exact congrArg (· ++ _) hlist
  | number | operator | constant | free =>
    intro _
    simp [Part.relabel, Part.innerErrors]

/-- **What a relabelled tree lacks** is what the tree lacks, relabelled. -/
theorem argumentErrors_relabelAll {items : List Part} (h : ∀ p ∈ walkAll items, p.EndsKept R)
    (hzero : R.position 0 = 0) (stop : Nat) :
    argumentErrors (unknowns.map R.position) (R.position stop) (relabelAll R items) =
      (argumentErrors unknowns stop items).map (ParseError.relabel R) := by
  have hwalk : ∀ p ∈ items, ∀ q ∈ p.walk, q.EndsKept R := fun p hp q hq =>
    h q (mem_walkAll.2 ⟨p, hp, hq⟩)
  have hsiblings := siblingErrors_relabelAll hunknowns
    (fun p hp => hwalk p hp p (mem_walk_self p)) stop false 0
  rw [hzero] at hsiblings
  rw [argumentErrors, argumentErrors, List.map_append, hsiblings,
    innerErrorsAll_relabelAll fun p hp => innerErrors_relabel hunknowns p (hwalk p hp)]

end Unknowns

/-! ## Joined errors -/

theorem ParseError.stop_relabel (h : R.Suits text text') (e : ParseError) :
    (e.relabel R).stop = R.position e.stop := by
  have hle : R.position e.start ≤ R.position e.stop := h.position_le _ _ (Nat.le_add_right ..)
  exact Nat.add_sub_cancel' hle

theorem join?_unknownIdentifier (s t : Text) (a b m n : Nat) :
    (ParseError.mk (.unknownIdentifier s) a m).join? ⟨.unknownIdentifier t, b, n⟩ =
      if b = a + m then some ⟨.unknownIdentifier (s ++ t), a, m + n⟩ else none := rfl

/-- Two unknown identifiers are joined afterwards just if they are joined before. -/
theorem join?_relabel (h : R.Suits text text') {a b : ParseError} (ha : a.IsPlaced text)
    (hb : b.IsPlaced text) :
    (a.relabel R).join? (b.relabel R) = (a.join? b).map (ParseError.relabel R) := by
  obtain ⟨acause, astart, alength⟩ := a
  obtain ⟨bcause, bstart, blength⟩ := b
  cases acause with
  | unknownIdentifier s =>
    cases bcause with
    | unknownIdentifier t =>
      obtain ⟨hs, hsstop⟩ := ha.stop_eq rfl
      obtain ⟨ht, htstop⟩ := hb.stop_eq rfl
      have htouch := h.touch_iff _ _ hs ht
      have hstop := ParseError.stop_relabel h ⟨.unknownIdentifier s, astart, alength⟩
      have hle := h.position_le bstart (bstart + blength) (Nat.le_add_right ..)
      have hle' := h.position_le astart (astart + alength) (Nat.le_add_right ..)
      rw [hsstop] at htouch
      simp only [ParseError.relabel, ParseError.Cause.relabel, ParseError.stop] at htouch hstop ⊢
      rw [join?_unknownIdentifier, join?_unknownIdentifier, hstop]
      by_cases hjoin : bstart = astart + alength
      · subst hjoin
        rw [if_pos rfl, if_pos rfl, Option.map_some]
        simp only [ParseError.relabel, ParseError.Cause.relabel, ParseError.stop, List.map_append,
          ← Nat.add_assoc]
        congr 2
        omega
      · have hnot : R.position bstart ≠ R.position (astart + alength) := fun heq =>
          hjoin (htouch.1 heq.symm).symm
        rw [if_neg hnot, if_neg hjoin, Option.map_none]
    | _ => rfl
  | _ => rfl

theorem collapseFrom_map_relabel (h : R.Suits text text') {rest : List ParseError}
    (hrest : ∀ e ∈ rest, e.IsPlaced text) {e : ParseError} (he : e.IsPlaced text) :
    (e.relabel R).collapseFrom (rest.map (ParseError.relabel R)) =
      (e.collapseFrom rest).map (ParseError.relabel R) := by
  induction rest generalizing e with
  | nil => rfl
  | cons f rest ih =>
    obtain ⟨hf, hrest⟩ := List.forall_mem_cons.1 hrest
    rw [List.map_cons, ParseError.collapseFrom, ParseError.collapseFrom, join?_relabel h he hf]
    cases hjoin : e.join? f with
    | none =>
      rw [Option.map_none, List.map_cons]
      exact congrArg _ (ih hrest hf)
    | some joined => exact ih hrest (isPlaced_join? he hf hjoin)

/-- **Unknown identifiers are joined alike.** -/
theorem collapse_map_relabel (h : R.Suits text text') {errors : List ParseError}
    (herrors : ∀ e ∈ errors, e.IsPlaced text) :
    collapse (errors.map (ParseError.relabel R)) =
      (collapse errors).map (ParseError.relabel R) := by
  cases errors with
  | nil => rfl
  | cons e rest =>
    obtain ⟨he, hrest⟩ := List.forall_mem_cons.1 herrors
    exact collapseFrom_map_relabel h hrest he

/-! ## Whole formulas -/

/-- Unknown identifiers are found where they are found before. -/
theorem unknownPositions_map_relabel (errors : List ParseError) :
    unknownPositions (errors.map (ParseError.relabel R)) =
      (unknownPositions errors).map R.position := by
  have hidentifier : ∀ e : ParseError, (e.relabel R).identifier?.isSome = e.identifier?.isSome := by
    rintro ⟨cause, start, length⟩
    cases cause <;> rfl
  rw [unknownPositions, unknownPositions, List.filter_map, List.map_map, List.map_map]
  congr 1
  exact List.filter_congr fun e _ => hidentifier e

/-- Nothing gets in front of an unknown identifier. -/
theorem unknownPositions_le_iff (h : R.Suits text text') (r : Registry) :
    ∀ u ∈ unknownPositions (Builder.empty.run text (tokens r text)).allErrors,
      ∀ a, R.position a ≤ R.position u ↔ a ≤ u := by
  intro u hu
  obtain ⟨e, he, rfl⟩ := List.mem_map.1 hu
  obtain ⟨he, hidentifier⟩ := List.mem_filter.1 he
  obtain ⟨t, ht⟩ := Option.isSome_iff_exists.1 hidentifier
  exact h.le_iff _ (isPlaced_allErrors r text e he t ht).2

theorem allErrors_relabel (h : R.Suits text text') :
    ((Builder.empty.run text (tokens r text)).relabel R).allErrors =
      (Builder.empty.run text (tokens r text)).allErrors.map (ParseError.relabel R) := by
  have hfollows := Builder.follows_tokens r text
  have hunclosed : Builder.unclosed ((Builder.empty.run text (tokens r text)).frames.map
      (Frame.relabel R)) = (Builder.unclosed
        (Builder.empty.run text (tokens r text)).frames).map (ParseError.relabel R) := by
    rw [Builder.unclosed, Builder.unclosed, List.map_map, List.map_map]
    refine List.map_congr_left fun f hf => ?_
    have hopened : f.position ∈ (Matching.of text).opened := by
      rw [← hfollows.opened]
      exact List.mem_map_of_mem hf
    have hsucc := h.position_succ ((Matching.placed_of text).opened _ hopened) (by decide)
    simp [Frame.relabel, ParseError.relabel, ParseError.Cause.relabel, ParseError.stop, hsucc]
  rw [Builder.allErrors, Builder.allErrors, List.map_append, ← hunclosed]
  rfl

/-- **What is read of a relabelled text** is what is read of the text, relabelled. -/
theorem parse_relabel (h : R.Suits text text')
    (htokens : Relabels R 0 (tokens r text) (tokens r text')) :
    (parse r text').items = relabelAll R (parse r text).items ∧
      (parse r text').errors = (parse r text).errors.map (ParseError.relabel R) ∧
      (parse r text').hints = (parse r text).hints.map (Hint.relabel R) := by
  have htext : text = [] ++ (tokens r text).flatMap Token.text ++ [] := by
    rw [text_tokens, List.nil_append, List.append_nil]
  have hempty : Builder.empty.relabel R = .empty := by
    simp [Builder.relabel, Builder.empty, h.position_zero, relabelAll]
  have hrun : (Builder.empty.run text (tokens r text)).relabel R =
      Builder.empty.run text' (tokens r text') := by
    rw [Builder.relabel_run h htokens rfl (Builder.worded_empty text) (fits_tokens r text) htext,
      hempty]
  have hitems : (parse r text').items = relabelAll R (parse r text).items := by
    have hfinish := Builder.relabel_finish h (Builder.empty.run text (tokens r text))
    rw [hrun] at hfinish
    exact hfinish.symm
  have hfound : (Builder.empty.run text' (tokens r text')).allErrors =
      (Builder.empty.run text (tokens r text)).allErrors.map (ParseError.relabel R) := by
    rw [← hrun, allErrors_relabel h]
  refine ⟨hitems, ?_, ?_⟩
  · have harguments := argumentErrors_relabelAll (unknownPositions_le_iff h r) (endsKept_parse h r)
      h.position_zero text.length
    have hplaced : ∀ e ∈ (Builder.empty.run text (tokens r text)).allErrors ++
        argumentErrors (unknownPositions (Builder.empty.run text (tokens r text)).allErrors)
          text.length (parse r text).items, e.IsPlaced text :=
      List.forall_mem_append.2 ⟨isPlaced_allErrors r text, isPlaced_argumentErrors⟩
    have hcollapse := collapse_map_relabel h hplaced
    rw [List.map_append, ← harguments, ← hfound, ← unknownPositions_map_relabel, ← hfound,
      h.position_length, ← hitems] at hcollapse
    exact hcollapse
  · have hhints := congrArg Builder.hints hrun
    exact hhints.symm

end Formula

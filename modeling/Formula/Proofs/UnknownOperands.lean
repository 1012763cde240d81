import Formula.Proofs.Grammar.Inversion
import Formula.Proofs.Part.Words
import Formula.Proofs.UnknownRuns

/-!
# Unknown operands are reported once

If a formula with the standard symbols and without calls has no errors once each run of characters of
unknown identifiers is replaced by a variable, then nothing else is wrong with the formula itself.  No
operator next to such a run lacks an operand.

The two formulas are read side by side.  Both are scopes of the same shape, but where a variable stands
last in the one, the builder of the other may have no value: then an unknown character stands between
the last part and the position of the builder, and that is what excuses an operator from having its
operand.
-/

namespace Formula

variable {U : List Nat} {gap stop : Nat} {items after : List Part}

/-- The position where the last part ends, which comes first here, or the given one if there is no
part. -/
def endOf (gap : Nat) : List Part → Nat
  | [] => gap
  | p :: _ => p.stop

/-- Whether a part has the left operand that it needs, or is excused from having it by an unknown
character after position `gap`.  Calls are left out. -/
def Part.LeftExcused (U : List Nat) (gap : Nat) (hasLeft : Bool) : Part → Prop
  | .operator op e =>
    hasLeft = true ∨ op.leftOptional = true ∨ anyWithin U gap e.start = true
  | .call _ _ _ => False
  | _ => True

/-- A sibling list, the last part first, in which every missing operand is excused but the right one
of the last part, and in whose parts there are no errors. -/
def Excused (U : List Nat) (gap : Nat) : List Part → Prop
  | [] => True
  | p :: before => p.LeftExcused U (endOf gap before) (Last.ofItems before).isValue ∧
      p.innerErrors U = [] ∧ Excused U gap before

/-- Whether the last part, which comes first here, needs no right operand or is excused from having
it. -/
def EndExcused (U : List Nat) (stop : Nat) : List Part → Prop
  | .operator op e :: _ => op.rightOptional = true ∨ anyWithin U e.stop stop = true
  | _ => True

theorem anyWithin_iff {a b : Nat} : anyWithin U a b = true ↔ ∃ n ∈ U, a ≤ n ∧ n < b := by
  simp [anyWithin]

theorem anyWithin_mono {a b c : Nat} (h : anyWithin U a b = true) (hbc : b ≤ c) :
    anyWithin U a c = true := by
  obtain ⟨n, hn, ha, hb⟩ := anyWithin_iff.1 h
  exact anyWithin_iff.2 ⟨n, hn, ha, by omega⟩

theorem lackingOperand_eq_nil {op : Operator} {e : Excerpt} {hasLeft hasRight : Bool}
    (hleft : hasLeft = true ∨ op.leftOptional = true ∨ anyWithin U gap e.start = true)
    (hright : hasRight = true ∨ op.rightOptional = true ∨ anyWithin U e.stop stop = true) :
    lackingOperand U op e hasLeft hasRight gap stop = [] := by
  have hlacksLeft : (!hasLeft && !op.leftOptional && !anyWithin U gap e.start) = false := by
    rcases hleft with h | h | h <;> simp [h]
  have hlacksRight : (!hasRight && !op.rightOptional && !anyWithin U e.stop stop) = false := by
    rcases hright with h | h | h <;> simp [h]
  simp [lackingOperand, hlacksLeft, hlacksRight]

/-- **A list whose missing operands are excused has no errors**, nor does the rest of it. -/
theorem siblingErrors_reverse_append (h : Excused U gap items)
    (hend : after = [] → EndExcused U stop items)
    (hafter : siblingErrors U stop (Last.ofItems items).isValue (endOf gap items) after = []) :
    siblingErrors U stop false gap (items.reverse ++ after) = [] := by
  induction items generalizing after with
  | nil => exact hafter
  | cons p before ih =>
    obtain ⟨hleft, -, hbefore⟩ := h
    rw [List.reverse_cons, List.append_assoc, List.singleton_append]
    refine ih hbefore (fun hnil => absurd hnil (List.cons_ne_nil _ _)) ?_
    rw [isValue_ofItems_cons] at hafter
    cases p with
    | operator op e =>
      refine List.append_eq_nil_iff.2 ⟨lackingOperand_eq_nil hleft ?_, hafter⟩
      cases after with
      | nil => exact .inr (hend rfl)
      | cons q after => exact .inl rfl
    | call => exact hleft.elim
    | number | constant | free | group => exact hafter

theorem innerErrorsAll_eq_nil (h : ∀ p ∈ items, p.innerErrors U = []) :
    innerErrorsAll U items = [] := by
  induction items with
  | nil => rfl
  | cons p items ih =>
    obtain ⟨hp, hitems⟩ := List.forall_mem_cons.1 h
    rw [innerErrorsAll, hp, ih hitems, List.append_nil]

theorem Excused.innerErrors (h : Excused U gap items) : ∀ p ∈ items, p.innerErrors U = [] := by
  induction items with
  | nil => simp
  | cons p before ih => exact List.forall_mem_cons.2 ⟨h.2.1, ih h.2.2⟩

/-- The errors in a list that is finished. -/
theorem Excused.errors (h : Excused U gap items) (hend : EndExcused U stop items) :
    innerErrorsAll U items.reverse ++ siblingErrors U stop false gap items.reverse = [] := by
  have hsiblings : siblingErrors U stop false gap (items.reverse ++ []) = [] :=
    siblingErrors_reverse_append h (fun _ => hend) rfl
  rw [List.append_nil] at hsiblings
  rw [hsiblings, innerErrorsAll_eq_nil fun p hp => h.innerErrors p (List.mem_reverse.1 hp),
    List.append_nil]

/-- No function name waits for its parenthesis. -/
theorem Excused.ready (h : Excused U gap items) : Ready items := by
  rintro f name before rfl
  exact h.1

theorem ofItems_cons (p : Part) (before : List Part) :
    Last.ofItems (p :: before) = Last.ofItems [p] := by
  cases p <;> rfl

/-! ## The builder -/

/-- Where the innermost sibling list begins. -/
def frameGap : List Frame → Nat
  | [] => 0
  | f :: _ => f.position

/-- The lists before open parentheses, which all begin groups. -/
def FramesExcused (U : List Nat) : List Frame → Prop
  | [] => True
  | f :: outer => f.bracket = .group ∧ frameGap outer ≤ f.position ∧
      Excused U (frameGap outer) f.before ∧ FramesExcused U outer

theorem FramesExcused.onlyGroups {frames : List Frame} (h : FramesExcused U frames) :
    OnlyGroups frames := by
  induction frames with
  | nil => simp [OnlyGroups]
  | cons f outer ih => exact List.forall_mem_cons.2 ⟨h.1, ih h.2.2.2⟩

namespace Builder

variable {text : Text} {b : Builder} {last : Last} {inRun : Bool} {tok : Token} {ts : List Token}

/-- Whether there is an unknown character after the last part. -/
def Seen (U : List Nat) (b : Builder) : Prop :=
  anyWithin U (endOf (frameGap b.frames) b.items) b.position = true

/-- What has been built, if `last` stands last in the scope of the other formula; `inRun` says whether
it is the variable in place of the unknown characters before the builder. -/
structure Tolerates (U : List Nat) (last : Last) (inRun : Bool) (b : Builder) : Prop where
  /-- The errors found are about unknown characters. -/
  errors : ∀ e ∈ b.errors, e.identifier?.isSome = true
  /-- The innermost list. -/
  items : Excused U (frameGap b.frames) b.items
  /-- The lists around it. -/
  frames : FramesExcused U b.frames
  /-- The innermost list begins before the builder. -/
  gap_le : frameGap b.frames ≤ b.position
  /-- Its last part ends before the builder. -/
  end_le : endOf (frameGap b.frames) b.items ≤ b.position
  /-- What stands last in the list, unless the other formula has a variable there. -/
  last_eq : last = Last.ofItems b.items ∨ last = .value ∧ b.Seen U
  /-- In a run, the variable stands last. -/
  run : inRun = true → last = .value ∧ b.Seen U

/-- What has been built can be continued by tokens, as far as the scopes of the other formula are
concerned. -/
def Continues (U : List Nat) (ts : List Token) (b : Builder) : Prop :=
  ∃ last inRun, b.Tolerates U last inRun ∧ Completes b.frames last (fillTokens inRun ts)

/-- A token that adds a part. -/
theorem Tolerates.part (h : b.Tolerates U last inRun) {p : Part} {before : List Part} {n : Nat}
    (hstep : b.step text tok = { b with position := n, items := p :: before })
    (hp : p.LeftExcused U (endOf (frameGap b.frames) before) (Last.ofItems before).isValue)
    (hinner : p.innerErrors U = []) (hbefore : Excused U (frameGap b.frames) before)
    (hstop : p.stop ≤ n) (hn : b.position ≤ n)
    (hts : Completes b.frames (Last.ofItems [p]) (fillTokens false ts)) :
    (b.step text tok).Continues U ts := by
  rw [hstep]
  refine ⟨_, false, ⟨h.errors, ⟨hp, hinner, hbefore⟩, h.frames, ?_, hstop, .inl ?_, ?_⟩, hts⟩
  · exact Nat.le_trans h.gap_le hn
  · exact (ofItems_cons p before).symm
  · exact fun hrun => absurd hrun Bool.false_ne_true

/-- A token that is passed over. -/
theorem Tolerates.pass (h : b.Tolerates U last inRun) {n : Nat} {hints : List Hint}
    (hn : b.position ≤ n) :
    Tolerates U last false { b with position := n, hints := hints } where
  errors := h.errors
  items := h.items
  frames := h.frames
  gap_le := Nat.le_trans h.gap_le hn
  end_le := Nat.le_trans h.end_le hn
  last_eq := h.last_eq.imp_right fun hseen => ⟨hseen.1, anyWithin_mono hseen.2 hn⟩
  run hrun := absurd hrun Bool.false_ne_true

theorem continues_number {n : Text} (h : b.Tolerates U last inRun)
    (hts : Completes b.frames last (fillTokens inRun (.number n :: ts))) :
    (b.step text (.number n)).Continues U ts := by
  obtain ⟨us, hus, hrest⟩ := hts.exists_scope h.frames.onlyGroups nofun
  have hnext := hrest _ hus.of_number
  have hinner : ∀ e, (Part.number e).innerErrors U = [] := by
    intro e
    rw [Part.innerErrors] <;> simp
  rcases push_eq_or (.number ⟨b.position, n⟩) b.items with
    hpush | ⟨e, op, sign, he, -, -, htouch, hpush⟩
  · have hstep : b.step text (.number n) = { b with
        position := b.position + n.length
        items := .number ⟨b.position, n⟩ :: b.items } := by
      rw [step, take, hpush]
      rfl
    exact h.part hstep trivial (hinner _) h.items (Nat.le_refl _) (Nat.le_add_right _ _) hnext
  · obtain rfl := Part.number.inj he
    have hstep : b.step text (.number n) = { b with
        position := b.position + n.length
        items := [.number ⟨sign.start, sign.text ++ n⟩] } := by
      rw [step, take, hpush]
      rfl
    refine h.part hstep trivial (hinner _) trivial ?_ (Nat.le_add_right _ _) hnext
    simp only [Excerpt.stop] at htouch
    simp only [Part.stop, Part.excerpt, Excerpt.stop, List.length_append]
    omega

theorem continues_symbol {s : Symbol} {w : Text} (hs : s.isCallable = false)
    (h : b.Tolerates U last inRun)
    (hts : Completes b.frames last (fillTokens inRun (.symbol s w :: ts))) :
    (b.step text (.symbol s w)).Continues U ts := by
  have hinner : (Part.ofSymbol s ⟨b.position, w⟩).innerErrors U = [] := by
    cases s <;> simp [Part.ofSymbol, Part.innerErrors, slotErrors]
  have hstop : (Part.ofSymbol s ⟨b.position, w⟩).stop ≤ b.position + w.length := by
    rw [Part.stop, Part.excerpt_ofSymbol]
    exact Nat.le_refl _
  obtain ⟨us, hus, hrest⟩ := hts.exists_scope h.frames.onlyGroups (by simp)
  refine h.part (step_symbol b s w) ?_ hinner h.items hstop (Nat.le_add_right _ _) ?_
  · cases s with
    | function => cases hs
    | constant | free => trivial
    | operator op =>
      by_cases hoptional : op.leftOptional = true
      · exact .inr (.inl hoptional)
      · have hvalue := hus.of_operator.2 (by simp [Grammar.declared, hoptional])
        rcases h.last_eq with rfl | ⟨-, hseen⟩
        · exact .inl hvalue
        · exact .inr (.inr hseen)
  · cases s with
    | function => cases hs
    | constant => exact hrest _ hus.of_constant
    | free => exact hrest _ hus.of_free
    | operator op => exact hrest _ hus.of_operator.1

/-- A parenthesis that opens a group. -/
theorem continues_opening (h : b.Tolerates U last inRun)
    (hts : Completes b.frames last (fillTokens inRun (.opening :: ts))) :
    (b.step text .opening).Continues U ts := by
  rw [step_opening h.items.ready]
  refine ⟨.nothing, false, ⟨h.errors, trivial, ⟨rfl, h.gap_le, h.items, h.frames⟩, ?_, ?_, .inl rfl,
    fun hrun => absurd hrun Bool.false_ne_true⟩, hts.opening h.frames.onlyGroups _ _⟩
  · exact Nat.le_succ _
  · exact Nat.le_succ _

/-- What ends a scope ends the list as well. -/
theorem Tolerates.endExcused (h : b.Tolerates U last inRun) (hlast : last.isComplete = true)
    {stop : Nat} (hstop : b.position ≤ stop) : EndExcused U stop b.items := by
  obtain ⟨position, items, frames, errors, hints⟩ := b
  match items, h with
  | .operator op e :: before, h =>
    rcases h.last_eq with rfl | ⟨-, hseen⟩
    · exact .inl (by simpa [Last.ofItems, Last.isComplete] using hlast)
    · exact .inr (anyWithin_mono hseen hstop)
  | [], _ | .number _ :: _, _ | .constant _ _ _ :: _, _ | .free _ _ :: _, _ | .group _ _ :: _, _
  | .call _ _ _ :: _, _ => trivial

/-- A parenthesis that closes a group. -/
theorem continues_closing (h : b.Tolerates U last inRun) (hlength : b.position + 1 ≤ text.length)
    (hts : Completes b.frames last (fillTokens inRun (.closing :: ts))) :
    (b.step text .closing).Continues U ts := by
  obtain ⟨opened, before, outer, hframes, hlast, hts⟩ := hts.closing h.frames.onlyGroups
  have hexcused := h.frames
  have hgap := h.gap_le
  have hitems := h.items
  rw [hframes] at hexcused hgap hitems
  obtain ⟨-, hle, hbefore, houter⟩ := hexcused
  have hopened : opened ≤ b.position := hgap
  have hle : frameGap outer ≤ opened := hle
  have hstop : (Excerpt.mk opened (text.slice opened (b.position + 1))).stop = b.position + 1 :=
    stop_slice (by omega) hlength
  have hinner : (Part.group ⟨opened, text.slice opened (b.position + 1)⟩
      b.items.reverse).innerErrors U = [] := by
    rw [Part.innerErrors, hstop]
    exact hitems.errors (h.endExcused hlast (Nat.le_succ _))
  rw [step_closing_group hframes]
  refine ⟨.value, false, ⟨h.errors, ⟨trivial, hinner, hbefore⟩, houter, ?_, ?_, .inl rfl,
    fun hrun => absurd hrun Bool.false_ne_true⟩, hts⟩
  · change frameGap outer ≤ b.position + 1
    omega
  · exact Nat.le_of_eq hstop

/-- An unknown character. -/
theorem continues_unknown {c : Char} (h : b.Tolerates U last inRun) (hknown : b.position ∈ U)
    (hts : Completes b.frames last (fillTokens inRun (.unknown c :: ts))) :
    (b.step text (.unknown c)).Continues U ts := by
  have hseen : (b.step text (.unknown c)).Seen U :=
    anyWithin_iff.2 ⟨b.position, hknown, h.end_le, Nat.lt_succ_self _⟩
  -- in a run the variable is there already, and otherwise it comes now
  have hvalue : Completes b.frames .value (fillTokens true ts) := by
    cases inRun with
    | true =>
      rw [← (h.run rfl).1]
      exact hts
    | false =>
      have hgroups := h.frames.onlyGroups
      obtain ⟨us, hus, hrest⟩ := hts.exists_scope hgroups nofun
      obtain ⟨us, hus, hrest⟩ := (hrest _ hus.of_blank).exists_scope hgroups nofun
      obtain ⟨us, hus, hrest⟩ := (hrest _ hus.of_free).exists_scope hgroups nofun
      exact hrest _ hus.of_blank
  refine ⟨.value, true, ⟨?_, h.items, h.frames, ?_, ?_, .inr ⟨rfl, hseen⟩, fun _ => ⟨rfl, hseen⟩⟩,
    hvalue⟩
  · exact List.forall_mem_append.2 ⟨h.errors, List.forall_mem_singleton.2 rfl⟩
  · exact Nat.le_trans h.gap_le (Nat.le_succ _)
  · exact Nat.le_trans h.end_le (Nat.le_succ _)

/-- **A token keeps the invariant.** -/
theorem Continues.step (h : b.Continues U (tok :: ts))
    (hcall : ∀ f w, tok ≠ .symbol (.function f) w)
    (hknown : tok.isUnknown = true → b.position ∈ U)
    (hlength : b.position + tok.text.length ≤ text.length) :
    (b.step text tok).Continues U ts := by
  obtain ⟨last, inRun, h, hts⟩ := h
  have hgroups := h.frames.onlyGroups
  cases tok with
  | blank c =>
    obtain ⟨us, hus, hrest⟩ := hts.exists_scope hgroups nofun
    exact ⟨last, false, h.pass (Nat.le_succ _), hrest _ hus.of_blank⟩
  | number n => exact continues_number h hts
  | symbol s w =>
    refine continues_symbol ?_ h hts
    cases s with
    | function f => exact absurd rfl (hcall f w)
    | operator | constant | free => rfl
  | opening => exact continues_opening h hts
  | closing => exact continues_closing h hlength hts
  | unknown c => exact continues_unknown h (hknown rfl) hts
  | uncalled name =>
    exact ⟨last, inRun, ⟨h.errors, h.items, h.frames, h.gap_le, h.end_le, h.last_eq, h.run⟩, hts⟩
  | comma => exact absurd hts (Completes.not_cons hgroups (.inl rfl))
  | repeatedPoint => exact absurd hts (Completes.not_cons hgroups (.inr rfl))

theorem continues_run (h : b.Continues U ts)
    (hcalls : ∀ f w, .symbol (.function f) w ∉ ts)
    (hknown : ∀ e ∈ unknownsFrom b.position ts, e.start ∈ U)
    (hlength : b.position + (ts.flatMap Token.text).length ≤ text.length) :
    (b.run text ts).Continues U [] := by
  induction ts generalizing b with
  | nil => exact h
  | cons tok ts ih =>
    rw [List.flatMap_cons, List.length_append] at hlength
    rw [run_cons]
    refine ih (h.step ?_ ?_ (by omega)) ?_ ?_ ?_
    · rintro f w rfl
      exact hcalls f w List.mem_cons_self
    · intro hunknown
      cases tok with
      | unknown c => exact hknown _ List.mem_cons_self
      | _ => cases hunknown
    · exact fun f w hmem => hcalls f w (List.mem_cons_of_mem _ hmem)
    · intro e he
      refine hknown e ?_
      cases hunknown : tok.isUnknown with
      | true =>
        cases tok with
        | unknown c => exact List.mem_cons_of_mem _ he
        | _ => cases hunknown
      | false =>
        rw [unknownsFrom_cons hunknown]
        exact he
    · rw [position_step]
      omega

end Builder

/-! ## Whole formulas -/

variable {text : Text}

/-- Whether a part is a call. -/
def Part.isCall : Part → Bool
  | call _ _ _ => true
  | _ => false

/-- A function name stays a leaf. -/
theorem mem_leaves_run {b : Builder} {ts : List Token} {f : Operation} {e : Excerpt}
    (h : .symbol (.function f) e ∈ b.leaves) :
    .symbol (.function f) e ∈ (b.run text ts).leaves := by
  induction ts generalizing b with
  | nil => exact h
  | cons tok ts ih =>
    have hstep : Builder.LeafStep b.position tok b.leaves (b.step text tok).leaves :=
      Builder.leafStep_step b tok
    rw [Builder.run_cons]
    refine ih ?_
    generalize b.leaves = ls at h hstep
    generalize (b.step text tok).leaves = ls' at hstep ⊢
    cases hstep with
    | number | symbol => exact List.mem_append_left _ h
    | signed =>
      rcases List.mem_append.1 h with h | h
      · exact List.mem_append_left _ h
      · cases List.mem_singleton.1 h
    | other => exact h

/-- A formula without calls has no function names among its tokens. -/
theorem not_mem_tokens_of_forall {r : Registry}
    (hcalls : ∀ p ∈ walkAll (parse r text).items, p.isCall = false)
    (f : Operation) (w : Text) : .symbol (.function f) w ∉ tokens r text := by
  intro hmem
  obtain ⟨ss, us, hts⟩ := List.append_of_mem hmem
  have hleaf : ∃ e, .symbol (.function f) e ∈ leaves (parse r text).items := by
    rw [leaves_parse, hts, Builder.run_append, Builder.run_cons]
    refine ⟨⟨(Builder.empty.run text ss).position, w⟩, mem_leaves_run ?_⟩
    simp [Builder.step_symbol, Builder.leaves]
  obtain ⟨e, hleaf⟩ := hleaf
  obtain ⟨p, hp, heq⟩ := List.mem_filterMap.1 hleaf
  cases p with
  | call g name slots => cases hcalls _ hp
  | number | operator | constant | free | group => cases heq

/-- **Nothing else is wrong.**  If a formula without calls has no errors once each run of characters
of unknown identifiers is replaced by a variable between blanks, then all of its errors are about
unknown identifiers. -/
theorem errors_of_isClean_filled
    (hcalls : ∀ p ∈ walkAll (parse .standard text).items, p.isCall = false)
    (hclean : (parse .standard (parse .standard text).filled).isClean = true) :
    ∀ e ∈ (parse .standard text).errors, e.identifier?.isSome = true := by
  have hfunctions := not_mem_tokens_of_forall hcalls
  have hscope := (isClean_parse_iff_scope minusStandsAlone_standard _).1 hclean
  rw [tokens_filled hfunctions] at hscope
  set b := Builder.empty.run text (tokens .standard text)
  set U := unknownPositions b.allErrors with hU
  have hposition : b.position = text.length := position_run_tokens .standard text
  have hknown : ∀ e ∈ unknownsFrom 0 (tokens .standard text), e.start ∈ U := by
    intro e he
    have hrun : b.errors.filter (·.identifier?.isSome) = unknownsFrom 0 (tokens .standard text) :=
      filter_identifier_run .empty _
    rw [hU, unknownPositions, Builder.allErrors, List.filter_append, hrun]
    exact List.mem_map_of_mem (List.mem_append_left _ he)
  have hstart : Builder.empty.Continues U (tokens .standard text) :=
    ⟨.nothing, false, ⟨by simp [Builder.empty], trivial, trivial, Nat.le_refl 0, Nat.le_refl 0,
      .inl rfl, fun hrun => absurd hrun Bool.false_ne_true⟩, hscope⟩
  have hlength : 0 + ((tokens .standard text).flatMap Token.text).length ≤ text.length := by
    rw [text_tokens, Nat.zero_add]
  obtain ⟨last, inRun, h, hend⟩ := Builder.continues_run hstart hfunctions hknown hlength
  obtain ⟨hframes, hlast⟩ := hend.of_nil h.frames.onlyGroups
  -- the builder has reported unknown characters only, and the tree has no errors
  have hitems : b.finish text = b.items.reverse := by
    rw [Builder.finish, hframes]
    rfl
  have harguments : argumentErrors U text.length (b.finish text) = [] := by
    have hexcused := h.items
    rw [hframes] at hexcused
    rw [hitems]
    exact hexcused.errors (h.endExcused hlast (Nat.le_of_eq hposition))
  have hall : b.allErrors ++ argumentErrors U text.length (b.finish text) = b.errors := by
    rw [harguments, List.append_nil, Builder.allErrors, hframes]
    exact List.append_nil _
  change ∀ e ∈ collapse (b.allErrors ++ argumentErrors U text.length (b.finish text)), _
  rw [hall]
  refine forall_mem_collapse (fun a b c _ _ hjoin => ?_) h.errors
  exact (ParseError.identifier?_of_join? hjoin).2.2

/-- Operators next to unknown words, one of them in a group. -/
theorem errors_of_isClean_filled_group :
    (parse .standard "3*f$-(#^2)".toList).filled = "3* x -( x ^2)".toList ∧
      (parse .standard "3*f$-(#^2)".toList).errors.map (·.start) = [2, 6] ∧
      ∀ e ∈ (parse .standard "3*f$-(#^2)".toList).errors, e.identifier?.isSome = true := by
  have hfilled : (parse .standard "3*f$-(#^2)".toList).filled = "3* x -( x ^2)".toList := by
    decide +kernel
  have hcalls : (walkAll (parse .standard "3*f$-(#^2)".toList).items).all (!·.isCall) = true := by
    decide +kernel
  have hclean : (parse .standard (parse .standard "3*f$-(#^2)".toList).filled).isClean = true := by
    rw [hfilled]
    decide +kernel
  refine ⟨hfilled, by decide +kernel, errors_of_isClean_filled (fun p hp => ?_) hclean⟩
  simpa using List.all_eq_true.1 hcalls p hp

end Formula

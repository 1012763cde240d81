import Formula.Proofs.Grammar.Building
import Formula.Proofs.Part.Leaves

/-!
# From sibling lists to scopes

If a formula is without errors, its tokens are a scope.  The proof goes backwards from the end, where
nothing is wrong.  Before each token nothing was wrong either, and the tokens that are left complete
all scopes that are open (`Completes`).  At the beginning the only open scope is the whole formula.

A number may join a minus sign, which then is no part any more.  Nothing is left to show whether the
sign lacked its left operand, so it must be one that needs none.
-/

namespace Formula

/-- A minus sign, if there is one, may stand without a left operand.  It is the sign that a number
may join, which hides a missing operand. -/
def Registry.MinusStandsAlone (r : Registry) : Prop :=
  ∀ op, .operator op ∈ r.symbols → op.literal = ['-'] → op.leftOptional = true

/-- Tokens that leave no trace are written as blanks. -/
theorem isBlank_of_isSilent {r : Registry} {after : Text} {gap : List Token}
    (hgap : isSilent gap = true) (hfits : InContext (Token.Fits r) after gap) :
    ∀ c ∈ gap.flatMap Token.text, isBlank c = true := by
  induction gap with
  | nil =>
    intro c hc
    cases hc
  | cons tok gap ih =>
    obtain ⟨htok, hrest⟩ : tok.isSilent = true ∧ isSilent gap = true := by
      simpa [isSilent] using hgap
    have hblanks := ih hrest hfits.2
    rw [List.flatMap_cons]
    cases tok with
    | blank d => exact List.forall_mem_cons.2 ⟨hfits.1, hblanks⟩
    | uncalled => exact hblanks
    | opening | closing | comma | number | symbol | unknown | repeatedPoint => cases htok

/-- The tokens that complete all open scopes: the innermost one, in which `last` stands last, and
then those in which the open parentheses stand, from the inside out. -/
def Completes : List Frame → Last → List Token → Prop
  | [], last, ts => Scope .declared last ts
  | ⟨.group, _, _⟩ :: outer, last, ts => ∃ inner rest, ts = inner ++ [Token.closing] ++ rest ∧
      Scope .declared last inner ∧ Completes outer .value rest
  | ⟨.call f _ slots _, _, _⟩ :: outer, last, ts => ∃ first more rest,
      ts = commaJoin first more ++ [Token.closing] ++ rest ∧ Scope .declared last first ∧
      (∀ slot ∈ more, Scope .declared .nothing slot) ∧
      Grammar.declared.Allows f (slots.reverse.map Slot.isEmpty ++
        (last.isNothing && isSilent first) :: more.map isSilent) ∧
      Completes outer .value rest

/-- Tokens in front of those that complete the open scopes. -/
theorem Completes.prepend {frames : List Frame} {last last' : Last} {ss ts : List Token}
    (h : Completes frames last' ts)
    (hscope : ∀ us, Scope .declared last' us → Scope .declared last (ss ++ us))
    (hblank : ∀ us, (last.isNothing && isSilent (ss ++ us)) = (last'.isNothing && isSilent us)) :
    Completes frames last (ss ++ ts) := by
  match frames, h with
  | [], h => exact hscope ts h
  | ⟨.group, _, _⟩ :: outer, h =>
    obtain ⟨inner, rest, rfl, hinner, hrest⟩ := h
    exact ⟨ss ++ inner, rest, by simp, hscope inner hinner, hrest⟩
  | ⟨.call f _ slots _, _, _⟩ :: outer, h =>
    obtain ⟨first, more, rest, rfl, hfirst, hmore, hallows, hrest⟩ := h
    refine ⟨ss ++ first, more, rest, by simp [commaJoin], hscope first hfirst, hmore, ?_, hrest⟩
    rw [hblank]
    exact hallows

/-- Tokens that add a part, in front of those that complete the open scopes. -/
theorem Completes.prepend_part {frames : List Frame} {last last' : Last} {ss ts : List Token}
    (h : Completes frames last' ts) (hss : isSilent ss = false) (hlast : last'.isNothing = false)
    (hscope : ∀ us, Scope .declared last' us → Scope .declared last (ss ++ us)) :
    Completes frames last (ss ++ ts) := by
  refine h.prepend hscope ?_
  intro us
  rw [isSilent_append, hss, hlast, Bool.false_and, Bool.and_false]

/-- The slots before an open parenthesis that are complete have no errors in them. -/
def Bracket.Sound : Bracket → Prop
  | group => True
  | call _ _ slots _ => ∀ s ∈ slots, s.errors [] = []

namespace Builder

variable {text : Text} {r : Registry} {b : Builder} {ts : List Token}

/-- Nothing is wrong with what has been built so far. -/
structure Sound (b : Builder) : Prop where
  /-- No error has been found. -/
  errors : b.errors = []
  /-- The innermost list has been fed. -/
  items : Fed true b.items
  /-- The lists around it have been fed, too. -/
  frames : ∀ f ∈ b.frames, Fed true f.before ∧ f.bracket.Sound

/-- Nothing is wrong so far, and the tokens complete all open scopes. -/
def Resumes (b : Builder) (ts : List Token) : Prop :=
  b.Sound ∧ Completes b.frames (Last.ofItems b.items) ts

theorem resumes_silent {tok : Token} (htok : tok.isSilent = true)
    (h : (b.step text tok).Resumes ts) : b.Resumes (tok :: ts) := by
  have hsilent : isSilent [tok] = true := by simp [isSilent, htok]
  obtain ⟨n, hints, hstep⟩ := run_silent text b hsilent
  change b.step text tok = _ at hstep
  rw [hstep] at h
  obtain ⟨hsound, hcompletes⟩ := h
  have hprepend : Completes b.frames (Last.ofItems b.items) ([tok] ++ ts) :=
    hcompletes.prepend (fun us => .silent htok) fun us => by simp [isSilent, htok]
  exact ⟨⟨hsound.errors, hsound.items, hsound.frames⟩, hprepend⟩

/-- In front of a number, a minus sign that it joins is there as well. -/
theorem resumes_number {n : Text}
    (hminus : ∀ op sign, b.items = [.operator op sign] → op.literal = ['-'] →
      op.leftOptional = true)
    (h : (b.step text (.number n)).Resumes ts) : b.Resumes (.number n :: ts) := by
  obtain ⟨hsound, hcompletes⟩ := h
  have hitems : Fed true (push (.number ⟨b.position, n⟩) b.items) := hsound.items
  have hfed : Fed true b.items := by
    rcases push_eq_or (.number ⟨b.position, n⟩) b.items with h | ⟨e, op, sign, -, hb, hop, -, -⟩
    · rw [h] at hitems
      exact hitems.2.2
    · rw [hb]
      exact ⟨⟨.inr (hminus op sign hb hop), .inl rfl⟩, innerErrors_ofSymbol (.operator op) _,
        trivial⟩
  obtain ⟨e, before, hpush, -⟩ := exists_push_number ⟨b.position, n⟩ b.items
  change Completes b.frames (Last.ofItems (push (.number ⟨b.position, n⟩) b.items)) ts
    at hcompletes
  rw [hpush] at hcompletes
  have hnumber : isSilent [.number n] = false := rfl
  exact ⟨⟨hsound.errors, hfed, hsound.frames⟩,
    hcompletes.prepend_part hnumber rfl fun us => .number⟩

theorem resumes_symbol {s : Symbol} {w : Text} (hs : s.isCallable = false)
    (h : (b.step text (.symbol s w)).Resumes ts) : b.Resumes (.symbol s w :: ts) := by
  rw [step_symbol] at h
  obtain ⟨hsound, hcompletes⟩ := h
  obtain ⟨hsupplied, -, hfed⟩ := hsound.items
  have hsymbol : isSilent [.symbol s w] = false := rfl
  refine ⟨⟨hsound.errors, hfed, hsound.frames⟩, ?_⟩
  cases s with
  | function => cases hs
  | operator op =>
    have hleft : Grammar.declared.needsLeft op = true → (Last.ofItems b.items).isValue = true := by
      intro hneeds
      refine hsupplied.1.resolve_right ?_
      intro hoptional
      simp [Grammar.declared, hoptional] at hneeds
    exact hcompletes.prepend_part hsymbol rfl fun us => .operator hleft
  | constant literal expression => exact hcompletes.prepend_part hsymbol rfl fun us => .constant
  | free literal => exact hcompletes.prepend_part hsymbol rfl fun us => .free

/-- An opening parenthesis that no function name waits for. -/
theorem resumes_opening (hready : Ready b.items) (h : (b.step text .opening).Resumes ts) :
    b.Resumes (.opening :: ts) := by
  rw [step_opening hready] at h
  obtain ⟨hsound, inner, rest, rfl, hinner, hrest⟩ := h
  obtain ⟨hframe, hframes⟩ := List.forall_mem_cons.1 hsound.frames
  have hopening : isSilent ([Token.opening] ++ inner ++ [Token.closing]) = false := by
    simp [isSilent, Token.isSilent]
  have hprepend : Completes b.frames (Last.ofItems b.items)
      ([Token.opening] ++ inner ++ [Token.closing] ++ rest) :=
    hrest.prepend_part hopening rfl fun us => .group hinner
  refine ⟨⟨hsound.errors, hframe.1, hframes⟩, ?_⟩
  simpa using hprepend

/-- A function name and the parenthesis that opens its call. -/
theorem resumes_call {f : Operation} {w : Text} {gap : List Token} (hgap : isSilent gap = true)
    (h : (b.run text ([Token.symbol (.function f) w] ++ gap ++ [Token.opening])).Resumes ts) :
    b.Resumes ([Token.symbol (.function f) w] ++ gap ++ [Token.opening] ++ ts) := by
  obtain ⟨n, hints, hrun⟩ := run_opening text b f w hgap
  rw [hrun] at h
  obtain ⟨hsound, first, more, rest, rfl, hfirst, hmore, hallows, hrest⟩ := h
  obtain ⟨hframe, hframes⟩ := List.forall_mem_cons.1 hsound.frames
  have hcall : isSilent ([Token.symbol (.function f) w] ++ gap ++ [Token.opening] ++
      commaJoin first more ++ [Token.closing]) = false := by
    simp [isSilent, Token.isSilent]
  have hslots : ∀ slot ∈ first :: more, Scope .declared .nothing slot :=
    List.forall_mem_cons.2 ⟨hfirst, hmore⟩
  have hprepend : Completes b.frames (Last.ofItems b.items)
      ([Token.symbol (.function f) w] ++ gap ++ [Token.opening] ++
        commaJoin first more ++ [Token.closing] ++ rest) :=
    hrest.prepend_part hcall rfl fun us => .call hgap hslots hallows
  refine ⟨⟨hsound.errors, hframe.1, hframes⟩, ?_⟩
  simpa using hprepend

/-- A closing parenthesis. -/
theorem resumes_closing (h : (b.step text .closing).Resumes ts) :
    b.Resumes (.closing :: ts) := by
  obtain ⟨position, items, frames, errors, hints⟩ := b
  cases frames with
  | nil =>
    -- it closes nothing, which is an error
    have herrors : errors ++ [_] = [] := h.1.errors
    exact absurd herrors (by simp)
  | cons frame outer =>
    obtain ⟨bracket, opened, before⟩ := frame
    cases bracket with
    | group =>
      obtain ⟨hsound, hcompletes⟩ := h
      obtain ⟨-, hinner, hbefore⟩ := hsound.items
      obtain ⟨hfed, hlast⟩ := fed_false_iff.1 (innerErrors_group_iff.1 hinner)
      refine ⟨⟨hsound.errors, hfed, ?_⟩, [], ts, rfl, .nil hlast, hcompletes⟩
      exact List.forall_mem_cons.2 ⟨⟨hbefore, trivial⟩, hsound.frames⟩
    | call f name slots slotStart =>
      obtain ⟨hsound, hcompletes⟩ := h
      obtain ⟨hsupplied, hinner, hbefore⟩ := hsound.items
      rw [innerErrors_call, slotErrors_eq_nil_iff] at hinner
      have hslot := errors_mk_iff.1 (hinner _ (List.mem_reverse.2 List.mem_cons_self))
      obtain ⟨hfed, hlast⟩ := fed_false_iff.1 hslot
      have hslots : ∀ s ∈ slots, s.errors [] = [] := fun s hs =>
        hinner s (List.mem_reverse.2 (List.mem_cons_of_mem _ hs))
      have hallows := supplied_call_iff.1 hsupplied
      refine ⟨⟨hsound.errors, hfed, ?_⟩, [], [], ts, rfl, .nil hlast, by simp, ?_, hcompletes⟩
      · exact List.forall_mem_cons.2 ⟨⟨hbefore, hslots⟩, hsound.frames⟩
      · rw [List.reverse_cons, List.map_append, List.map_cons, isEmpty_mk_reverse] at hallows
        rw [isNothing_ofItems]
        simpa [isSilent] using hallows

/-- A comma. -/
theorem resumes_comma (h : (b.step text .comma).Resumes ts) : b.Resumes (.comma :: ts) := by
  obtain ⟨position, items, frames, errors, hints⟩ := b
  match frames, h with
  | [], h | ⟨.group, _, _⟩ :: _, h =>
    -- it stands in no call, which is an error
    have herrors : errors ++ [_] = [] := h.1.errors
    exact absurd herrors (by simp)
  | ⟨.call f name slots slotStart, opened, before⟩ :: outer, h =>
    obtain ⟨hsound, first, more, rest, rfl, hfirst, hmore, hallows, hrest⟩ := h
    obtain ⟨⟨hbefore, hslots⟩, houter⟩ := List.forall_mem_cons.1 hsound.frames
    obtain ⟨hslot, hslots⟩ := List.forall_mem_cons.1 hslots
    obtain ⟨hfed, hlast⟩ := fed_false_iff.1 (errors_mk_iff.1 hslot)
    refine ⟨⟨hsound.errors, hfed, ?_⟩, [], first :: more, rest, by simp [commaJoin], .nil hlast,
      List.forall_mem_cons.2 ⟨hfirst, hmore⟩, ?_, hrest⟩
    · exact List.forall_mem_cons.2 ⟨⟨hbefore, hslots⟩, houter⟩
    · change Grammar.declared.Allows f ((Slot.mk _ items.reverse :: slots).reverse.map
        Slot.isEmpty ++ isSilent first :: more.map isSilent) at hallows
      rw [List.reverse_cons, List.map_append, List.map_cons, isEmpty_mk_reverse] at hallows
      rw [isNothing_ofItems]
      simpa [isSilent] using hallows

/-! ## From lists to scopes -/

/-- A word starts with a character that is neither blank nor a parenthesis. -/
theorem startsCall_eq_false {w : Text} (hne : w ≠ []) (hw : Solid w) (u : Text) :
    startsCall (w ++ u) = false := by
  obtain ⟨c, w, rfl⟩ := List.exists_cons_of_ne_nil hne
  have hc : isDelimiter c = false := hw c List.mem_cons_self
  have hparen : c ≠ '(' := by
    intro h
    rw [h] at hc
    cases hc
  simp [startsCall, isBlank_of_isDelimiter_eq_false hc, hparen]

/-- A text that continues with an opening parenthesis, after blanks at most, does so in its
tokens. -/
theorem exists_opening {ts : List Token} (hfits : InContext (Token.Fits r) [] ts)
    (hcall : startsCall (ts.flatMap Token.text) = true) :
    ∃ gap rest, ts = gap ++ [Token.opening] ++ rest ∧ isSilent gap = true := by
  induction ts with
  | nil => cases hcall
  | cons tok ts ih =>
    obtain ⟨htok, hrest⟩ := hfits
    rw [List.flatMap_cons] at hcall
    cases tok with
    | opening => exact ⟨[], ts, rfl, rfl⟩
    | blank c =>
      have hc : isBlank c = true := htok
      obtain ⟨gap, rest, rfl, hgap⟩ := ih hrest (by simpa [startsCall, Token.text, hc] using hcall)
      exact ⟨.blank c :: gap, rest, rfl, hgap⟩
    | uncalled name =>
      obtain ⟨gap, rest, rfl, hgap⟩ := ih hrest hcall
      exact ⟨.uncalled name :: gap, rest, rfl, hgap⟩
    | closing => cases hcall
    | comma => cases hcall
    | number n =>
      rw [Token.text, startsCall_eq_false (Numeral.ne_nil_of_isPlain htok)
        (Numeral.solid_of_isPlain htok)] at hcall
      cases hcall
    | symbol s w =>
      obtain ⟨hmem, hkey, hw, -⟩ := htok
      rw [Token.text, startsCall_eq_false (Registry.ne_nil_of_lower hmem hkey) hw] at hcall
      cases hcall
    | unknown c =>
      have hc : Solid [c] := by simpa [Solid, Token.Fits] using htok
      rw [Token.text, startsCall_eq_false (List.cons_ne_nil _ _) hc] at hcall
      cases hcall
    | repeatedPoint =>
      have hpoint : Solid ['.'] := by decide
      rw [Token.text, startsCall_eq_false (List.cons_ne_nil _ _) hpoint] at hcall
      cases hcall

/-- Taking in the tokens leads to a list that lacks nothing, without errors. -/
def EndsClean (text : Text) (b : Builder) (ts : List Token) : Prop :=
  (b.run text ts).errors = [] ∧ (b.run text ts).frames = [] ∧ Fed false (b.run text ts).items

/-- **Tokens that lead to no error complete all open scopes**, and nothing has been wrong before. -/
theorem completes_of_clean (hr : r.MinusStandsAlone) (ts : List Token) :
    ∀ b : Builder, InContext (Token.Fits r) [] ts → (∀ l ∈ b.leaves, l.Genuine r) →
      Ready b.items → b.EndsClean text ts → b.Resumes ts := by
  -- a function name is taken in together with the parenthesis after it, so the lists get shorter
  -- by more than one token at a time
  induction hlength : ts.length using Nat.strong_induction_on generalizing ts with
  | _ n ih =>
    intro b hfits hgenuine hready hclean
    cases ts with
    | nil =>
      obtain ⟨herrors, hframes, hfed⟩ := hclean
      obtain ⟨hitems, hlast⟩ := fed_false_iff.1 hfed
      have hframes : b.frames = [] := hframes
      refine ⟨⟨herrors, hitems, by simp [hframes]⟩, ?_⟩
      rw [hframes]
      exact .nil hlast
    | cons tok ts =>
      by_cases hcall : ∃ f w, tok = .symbol (.function f) w
      · obtain ⟨f, w, rfl⟩ := hcall
        have hstarts : startsCall (ts.flatMap Token.text ++ []) = true := hfits.1.2.2.2 rfl
        rw [List.append_nil] at hstarts
        obtain ⟨gap, rest, rfl, hgap⟩ := exists_opening hfits.2 hstarts
        have hsplit : Token.symbol (.function f) w :: (gap ++ [Token.opening] ++ rest) =
            [Token.symbol (.function f) w] ++ gap ++ [Token.opening] ++ rest := by simp
        rw [hsplit] at hfits hclean ⊢
        obtain ⟨hcallFits, hrestFits⟩ := inContext_append.1 hfits
        obtain ⟨q, hints, hrun⟩ := run_opening text b f w hgap
        have hshorter : rest.length < n := by
          rw [← hlength]
          simp only [List.length_cons, List.length_append]
          omega
        have hresumes : (b.run text
            ([Token.symbol (.function f) w] ++ gap ++ [Token.opening])).Resumes rest := by
          refine ih rest.length hshorter rest rfl _ hrestFits ?_ ?_ ?_
          · exact genuine_leaves_run b hcallFits hgenuine
          · rw [hrun]
            exact ready_nil
          · rw [EndsClean, run_append] at hclean
            exact hclean
        exact resumes_call hgap hresumes
      · have hstep : (b.step text tok).Resumes ts := by
          refine ih ts.length (by simp [← hlength]) ts rfl _ hfits.2 ?_ ?_ hclean
          · exact genuine_leafStep (leafStep_step b tok) hfits.1 hgenuine
          · exact ready_step hready fun f w heq => hcall ⟨f, w, heq⟩
        cases tok with
        | blank | uncalled => exact resumes_silent rfl hstep
        | opening => exact resumes_opening hready hstep
        | closing => exact resumes_closing hstep
        | comma => exact resumes_comma hstep
        | number =>
          refine resumes_number ?_ hstep
          intro op sign hitems hop
          have hleaf := hgenuine (.symbol (.operator op) sign) (by simp [leaves, hitems])
          exact hr op hleaf.1 hop
        | symbol s w =>
          refine resumes_symbol ?_ hstep
          cases s with
          | function f => exact absurd ⟨f, w, rfl⟩ hcall
          | operator | constant | free => rfl
        | unknown | repeatedPoint =>
          have herrors : b.errors ++ [_] = [] := hstep.1.errors
          exact absurd herrors (by simp)

end Builder

/-! ## Whole formulas -/

/-- The parts of a formula in which no parenthesis is left open. -/
theorem items_parse_of_frames {r : Registry} {text : Text}
    (hframes : (Builder.empty.run text (tokens r text)).frames = []) :
    (parse r text).items = (Builder.empty.run text (tokens r text)).items.reverse := by
  change (Builder.empty.run text (tokens r text)).finish text = _
  rw [Builder.finish, hframes]
  rfl

/-- A formula is without errors if and only if the builder ends without errors. -/
theorem isClean_parse_iff_endsClean (r : Registry) (text : Text) :
    (parse r text).isClean = true ↔ Builder.empty.EndsClean text (tokens r text) := by
  rw [isClean_parse_iff, Builder.EndsClean]
  constructor
  · rintro ⟨herrors, hframes, hinner⟩
    rw [items_parse_of_frames hframes] at hinner
    exact ⟨herrors, hframes, complete_reverse_iff.1 hinner⟩
  · rintro ⟨herrors, hframes, hfed⟩
    rw [items_parse_of_frames hframes]
    exact ⟨herrors, hframes, complete_reverse_iff.2 hfed⟩

/-- **A formula is without errors if and only if its tokens are a scope.** -/
theorem isClean_parse_iff_scope {r : Registry} (hr : r.MinusStandsAlone) (text : Text) :
    (parse r text).isClean = true ↔ Scope .declared .nothing (tokens r text) := by
  rw [isClean_parse_iff_endsClean]
  constructor
  · intro hclean
    have hleaves : ∀ l ∈ Builder.empty.leaves, l.Genuine r := by
      intro l hl
      cases hl
    exact (Builder.completes_of_clean hr (tokens r text) Builder.empty (fits_tokens r text) hleaves
      ready_nil hclean).2
  · intro hscope
    have hfinishes : Builder.empty.Finishes text (tokens r text) :=
      Builder.run_of_scope hscope Builder.empty Builder.goesOn_nil
    obtain ⟨n, items, hints, hrun, hfed, -⟩ := hfinishes
    rw [Builder.EndsClean, hrun]
    exact ⟨rfl, rfl, hfed⟩

end Formula

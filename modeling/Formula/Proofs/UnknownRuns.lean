import Formula.Proofs.Grammar.Standard
import Formula.Proofs.Token.SecondPoints
import Formula.Proofs.UnknownIdentifiers

/-!
# Variables in place of unknown identifiers

In a formula, each run of characters of unknown identifiers can be replaced by a variable with a
blank on either side.  With the standard symbols and without calls, the tokens of the new formula are
those of the old one, with the tokens of the variable in place of each run of unknown characters: no
other token depends on the text next to it, but for numbers, and the blanks keep these apart from the
variable.
-/

namespace Formula

/-- A text with a filler in place of each run of covered positions.  The text starts at position `n`,
and `inRun` says whether the position before it is covered. -/
def fillRuns (covered : Nat → Bool) (filler : Text) (n : Nat) (inRun : Bool) : Text → Text
  | [] => []
  | c :: t =>
    if covered n then (if inRun then [] else filler) ++ fillRuns covered filler (n + 1) true t
    else c :: fillRuns covered filler (n + 1) false t

/-- Whether a position belongs to an unknown identifier. -/
def Parse.isUnknownAt (p : Parse) (n : Nat) : Bool :=
  p.errors.any fun e => e.identifier?.isSome && e.covers n

/-- A formula with a variable and two blanks in place of each run of characters of unknown
identifiers. -/
def Parse.filled (p : Parse) : Text := fillRuns p.isUnknownAt " x ".toList 0 false p.text

section Texts

variable {covered : Nat → Bool} {filler : Text}

/-- Positions that are not covered. -/
theorem fillRuns_append {w t : Text} {n : Nat} {inRun : Bool} (hne : w ≠ [])
    (h : ∀ m, n ≤ m → m < n + w.length → covered m = false) :
    fillRuns covered filler n inRun (w ++ t) =
      w ++ fillRuns covered filler (n + w.length) false t := by
  induction w generalizing n inRun with
  | nil => exact absurd rfl hne
  | cons c w ih =>
    have hc : covered n = false := h n (Nat.le_refl n) (by simp)
    rw [List.cons_append, fillRuns, hc, if_neg Bool.false_ne_true, List.cons_append,
      List.length_cons]
    congr 1
    cases w with
    | nil => rfl
    | cons d w =>
      rw [ih (List.cons_ne_nil d w) ?_]
      · congr 2
        simp only [List.length_cons]
        omega
      · intro m hm hlt
        refine h m (by omega) ?_
        rw [List.length_cons]
        omega

end Texts

/-- The errors about the unknown characters among tokens of which the first one is at position
`n`. -/
def unknownsFrom : Nat → List Token → List ParseError
  | _, [] => []
  | n, .unknown c :: ts => .unknown [c] n :: unknownsFrom (n + 1) ts
  | n, tok :: ts => unknownsFrom (n + tok.text.length) ts

/-- Whether a token is an unknown character. -/
def Token.isUnknown : Token → Bool
  | unknown _ => true
  | _ => false

theorem unknownsFrom_cons {n : Nat} {tok : Token} (htok : tok.isUnknown = false)
    (ts : List Token) : unknownsFrom n (tok :: ts) = unknownsFrom (n + tok.text.length) ts := by
  cases tok with
  | unknown => cases htok
  | _ => rfl

theorem start_of_mem_unknownsFrom {n : Nat} {ts : List Token} :
    ∀ e ∈ unknownsFrom n ts, n ≤ e.start ∧ e.length = 1 := by
  induction ts generalizing n with
  | nil => simp [unknownsFrom]
  | cons tok ts ih =>
    cases htok : tok.isUnknown with
    | true =>
      cases tok with
      | unknown c =>
        refine List.forall_mem_cons.2 ⟨⟨Nat.le_refl n, rfl⟩, fun e he => ?_⟩
        obtain ⟨hle, hlength⟩ := ih e he
        exact ⟨by omega, hlength⟩
      | _ => cases htok
    | false =>
      rw [unknownsFrom_cons htok]
      intro e he
      obtain ⟨hle, hlength⟩ := ih e he
      exact ⟨by omega, hlength⟩

/-- **The unknown characters that the builder reports** are those among the tokens. -/
theorem filter_identifier_run {text : Text} (b : Builder) (ts : List Token) :
    (b.run text ts).errors.filter (·.identifier?.isSome) =
      b.errors.filter (·.identifier?.isSome) ++ unknownsFrom b.position ts := by
  induction ts generalizing b with
  | nil => simp [Builder.run, unknownsFrom]
  | cons tok ts ih =>
    have hstep : Builder.ErrorStep b.position tok b.errors (b.step text tok).errors :=
      Builder.errorStep_step b tok
    rw [Builder.run_cons, ih, Builder.position_step]
    generalize (b.step text tok).errors = errors at hstep ⊢
    cases hstep with
    | unknown c => simp [unknownsFrom, Token.text, ParseError.identifier?, ParseError.unknown]
    | repeatedPoint | unmatchedClosing | misplacedComma =>
      simp [unknownsFrom, Token.text, ParseError.identifier?]
    | other _ _ hunknown hpoint =>
      rw [unknownsFrom_cons]
      cases tok with
      | unknown c => exact absurd rfl (hunknown c)
      | _ => rfl

/-- Joining errors keeps the positions of unknown identifiers. -/
theorem any_covers_collapse (errors : List ParseError) (n : Nat) :
    (collapse errors).any (fun e => e.identifier?.isSome && e.covers n) =
      errors.any fun e => e.identifier?.isSome && e.covers n := by
  refine collapse_induction (P := fun errors joined =>
    joined.any (fun e => e.identifier?.isSome && e.covers n) =
      errors.any fun e => e.identifier?.isSome && e.covers n) rfl ?_ ?_ errors
  · intro e rest joined ih
    rw [List.any_cons, ih, List.any_cons]
  · intro a b c rest joined hjoin ih
    obtain ⟨ha, hb, hc⟩ := ParseError.identifier?_of_join? hjoin
    obtain ⟨hstart, hstop⟩ := ParseError.span_join? hjoin
    have htouch : b.start = a.stop := by
      by_contra hne
      rw [ParseError.join?_eq_none_iff.2 fun _ _ => hne] at hjoin
      cases hjoin
    have hcovers : c.covers n = (a.covers n || b.covers n) := by
      have hale : a.start ≤ a.stop := Nat.le_add_right _ _
      have hble : b.start ≤ b.stop := Nat.le_add_right _ _
      rw [Bool.eq_iff_iff, Bool.or_eq_true]
      simp only [ParseError.covers, hstart, hstop, Bool.and_eq_true, decide_eq_true_eq]
      omega
    rw [ih]
    simp only [List.any_cons, ha, hb, hc, hcovers, Bool.true_and, Bool.or_assoc]

/-- The characters of unknown identifiers are the unknown characters among the tokens. -/
theorem isUnknownAt_parse (r : Registry) (text : Text) (n : Nat) :
    (parse r text).isUnknownAt n = true ↔ ∃ e ∈ unknownsFrom 0 (tokens r text), e.start = n := by
  have hfilter : (parse r text).isUnknownAt n =
      (unknownsFrom 0 (tokens r text)).any fun e => e.covers n := by
    have hrun : (Builder.empty.run text (tokens r text)).errors.filter (·.identifier?.isSome) =
        unknownsFrom 0 (tokens r text) := filter_identifier_run .empty (tokens r text)
    simp only [Parse.isUnknownAt, parse, any_covers_collapse, Builder.allErrors]
    rw [← List.any_filter, List.filter_append, List.filter_append, hrun,
      filter_identifier_eq_nil identifier?_of_mem_unclosed,
      filter_identifier_eq_nil identifier?_of_mem_argumentErrors, List.append_nil, List.append_nil]
  rw [hfilter, List.any_eq_true]
  refine exists_congr fun e => and_congr_right fun he => ?_
  rw [ParseError.covers_eq_true_iff, (start_of_mem_unknownsFrom e he).2]
  omega

/-! ## Tokens -/

/-- The tokens of a variable with a blank on either side. -/
def placeholder : List Token := [.blank ' ', .symbol (.free "x".toList) "x".toList, .blank ' ']

/-- Tokens with a placeholder for each run of unknown characters; `inRun` says whether the token
before them is unknown. -/
def fillTokens : Bool → List Token → List Token
  | _, [] => []
  | inRun, .unknown _ :: ts => (if inRun then [] else placeholder) ++ fillTokens true ts
  | inRun, .uncalled _ :: ts => fillTokens inRun ts
  | _, tok :: ts => tok :: fillTokens false ts

/-- A token that is kept. -/
theorem fillTokens_cons {inRun : Bool} {tok : Token} (hunknown : tok.isUnknown = false)
    (hhint : tok.isHint = false) (ts : List Token) :
    fillTokens inRun (tok :: ts) = tok :: fillTokens false ts := by
  cases tok with
  | unknown => cases hunknown
  | uncalled => cases hhint
  | _ => rfl

theorem mem_fillTokens {inRun : Bool} {ts : List Token} {tok : Token}
    (h : tok ∈ fillTokens inRun ts) :
    tok ∈ placeholder ∨ tok ∈ ts ∧ tok.isUnknown = false ∧ tok.isHint = false := by
  induction ts generalizing inRun with
  | nil => cases h
  | cons t ts ih =>
    have hlater : ∀ {inRun}, tok ∈ fillTokens inRun ts → tok ∈ placeholder ∨
        tok ∈ t :: ts ∧ tok.isUnknown = false ∧ tok.isHint = false := fun hmem =>
      (ih hmem).imp_right fun hts => ⟨List.mem_cons_of_mem _ hts.1, hts.2⟩
    cases t with
    | unknown c =>
      rcases List.mem_append.1 h with h | h
      · cases inRun with
        | false => exact .inl h
        | true => cases h
      · exact hlater h
    | uncalled name => exact hlater h
    | _ =>
      rcases List.mem_cons.1 h with rfl | h
      · exact .inr ⟨List.mem_cons_self, rfl, rfl⟩
      · exact hlater h

/-- A token that fits has characters, unless it is a hint. -/
theorem Token.Fits.text_ne_nil {r : Registry} {following : Text} {tok : Token}
    (h : tok.Fits r following) (hhint : tok.isHint = false) : tok.text ≠ [] := by
  cases tok with
  | number n => exact Numeral.ne_nil_of_isPlain h
  | symbol s w => exact Registry.ne_nil_of_lower h.1 h.2.1
  | uncalled => cases hhint
  | blank | opening | closing | comma | unknown | repeatedPoint => exact List.cons_ne_nil _ _

/-- Replacing runs in the text of tokens, and among the tokens. -/
theorem fillRuns_flatMap_text {r : Registry} {covered : Nat → Bool} {after : Text}
    {ts : List Token} {n : Nat} {inRun : Bool} (hfits : InContext (Token.Fits r) after ts)
    (hcovered : ∀ m, n ≤ m → (covered m = true ↔ ∃ e ∈ unknownsFrom n ts, e.start = m)) :
    fillRuns covered " x ".toList n inRun (ts.flatMap Token.text) =
      (fillTokens inRun ts).flatMap Token.text := by
  induction ts generalizing n inRun with
  | nil => rfl
  | cons tok ts ih =>
    obtain ⟨htok, hrest⟩ := hfits
    cases hunknown : tok.isUnknown with
    | true =>
      cases tok with
      | unknown c =>
        have hc : covered n = true := (hcovered n (Nat.le_refl n)).2 ⟨_, List.mem_cons_self, rfl⟩
        have hlater : ∀ m, n + 1 ≤ m →
            (covered m = true ↔ ∃ e ∈ unknownsFrom (n + 1) ts, e.start = m) := by
          intro m hm
          rw [hcovered m (by omega), unknownsFrom, List.exists_mem_cons_iff]
          refine or_iff_right fun h => ?_
          have hn : n = m := h
          omega
        have hts : fillRuns covered " x ".toList (n + 1) true (ts.flatMap Token.text) = _ :=
          ih hrest hlater
        rw [List.flatMap_cons, Token.text, List.singleton_append, fillRuns, if_pos hc, hts,
          fillTokens, List.flatMap_append]
        cases inRun <;> rfl
      | _ => cases hunknown
    | false =>
      cases hhint : tok.isHint with
      | true =>
        cases tok with
        | uncalled name => exact ih hrest hcovered
        | _ => cases hhint
      | false =>
        have hnot : ∀ m, n ≤ m → m < n + tok.text.length → covered m = false := by
          intro m hm hlt
          rw [Bool.eq_false_iff, ne_eq, hcovered m hm, unknownsFrom_cons hunknown]
          rintro ⟨e, he, rfl⟩
          have hle := (start_of_mem_unknownsFrom e he).1
          omega
        have hlater : ∀ m, n + tok.text.length ≤ m →
            (covered m = true ↔ ∃ e ∈ unknownsFrom (n + tok.text.length) ts, e.start = m) := by
          intro m hm
          rw [hcovered m (by omega), unknownsFrom_cons hunknown]
        have hts : fillRuns covered " x ".toList (n + tok.text.length) false
            (ts.flatMap Token.text) = _ := ih hrest hlater
        rw [List.flatMap_cons, fillRuns_append (htok.text_ne_nil hhint) hnot, hts,
          fillTokens_cons hunknown hhint, List.flatMap_cons]

theorem filled_eq_flatMap_text (r : Registry) (text : Text) :
    (parse r text).filled = (fillTokens false (tokens r text)).flatMap Token.text := by
  have h : fillRuns (parse r text).isUnknownAt " x ".toList 0 false
      ((tokens r text).flatMap Token.text) = _ :=
    fillRuns_flatMap_text (fits_tokens r text) fun m _ => isUnknownAt_parse r text m
  rwa [text_tokens] at h

/-! ## Reading the new formula -/

/-- What follows a number still does not continue it. -/
theorem continuesNumeral_fillTokens {r : Registry} {after : Text} {ts : List Token}
    (hfits : InContext (Token.Fits r) after ts)
    (h : continuesNumeral (ts.flatMap Token.text) = false) :
    continuesNumeral ((fillTokens false ts).flatMap Token.text) = false := by
  induction ts with
  | nil => rfl
  | cons tok ts ih =>
    obtain ⟨htok, hrest⟩ := hfits
    cases hhint : tok.isHint with
    | true =>
      cases tok with
      | uncalled name => exact ih hrest h
      | _ => cases hhint
    | false =>
      cases hunknown : tok.isUnknown with
      | true =>
        cases tok with
        | unknown c => rfl
        | _ => cases hunknown
      | false =>
        obtain ⟨c, w, hw⟩ := List.exists_cons_of_ne_nil (htok.text_ne_nil hhint)
        rw [fillTokens_cons hunknown hhint, List.flatMap_cons, hw]
        rw [List.flatMap_cons, hw] at h
        exact h

theorem numbersEnd_fillTokens {r : Registry} {after : Text} {ts : List Token} {inRun : Bool}
    (hfits : InContext (Token.Fits r) after ts) (h : NumbersEnd [] ts) :
    NumbersEnd [] (fillTokens inRun ts) := by
  induction h generalizing inRun with
  | nil => exact .nil
  | @number n ts hend rest ih =>
    rw [List.append_nil] at hend
    refine .number ?_ (ih hfits.2)
    rw [List.append_nil]
    exact continuesNumeral_fillTokens hfits.2 hend
  | repeated hpoint rest ih => exact .repeated hpoint (ih hfits.2.2)
  | @other tok ts htok rest ih =>
    have hts : ∀ {inRun}, NumbersEnd [] (fillTokens inRun ts) := ih hfits.2
    cases tok with
    | unknown c =>
      cases inRun with
      | true => exact hts
      | false => exact .other rfl (.other rfl (.other rfl hts))
    | uncalled name => exact hts
    | number | repeatedPoint => cases htok
    | blank | opening | closing | comma | symbol => exact .other rfl hts

/-- A variable between blanks can be told from whatever follows. -/
theorem stands_placeholder :
    ∀ tok ∈ placeholder, ∀ following, tok.Stands .standard following := by
  have hmem : Symbol.free "x".toList ∈ Registry.standard.symbols :=
    Registry.mem_standard.2 (by simp [standardSymbols])
  have hblank : isBlank ' ' = true := by decide
  have hsolid : Solid "x".toList := by decide
  refine List.forall_mem_cons.2 ⟨fun _ => hblank, List.forall_mem_cons.2
    ⟨fun _ => ⟨hmem, rfl, hsolid, fun hcall => ?_, ?_⟩,
      List.forall_mem_singleton.2 fun _ => hblank⟩⟩
  · cases hcall
  · exact .inr (startingWith_standard hmem)

/-- **The tokens of the new formula.** -/
theorem tokens_filled {text : Text}
    (hcalls : ∀ f w, .symbol (.function f) w ∉ tokens .standard text) :
    tokens .standard (parse .standard text).filled = fillTokens false (tokens .standard text) := by
  have hfits := fits_tokens .standard text
  have hkept : ∀ tok ∈ fillTokens false (tokens .standard text), tok.isNumeral = false →
      ∀ following, tok.Stands .standard following := by
    intro tok hmem hnumeral following
    rcases mem_fillTokens hmem with hmem | ⟨hmem, hunknown, hhint⟩
    · exact stands_placeholder tok hmem following
    · obtain ⟨after, htok⟩ := hfits.exists_of_mem hmem
      cases tok with
      | blank | opening | closing | comma => exact htok
      | number | repeatedPoint => cases hnumeral
      | unknown => cases hunknown
      | uncalled => cases hhint
      | symbol s w =>
        obtain ⟨hs, hw, hsolid, -⟩ := htok
        refine ⟨hs, hw, hsolid, fun hcall => ?_, .inr (startingWith_standard hs)⟩
        cases s with
        | function f => exact absurd hmem (hcalls f w)
        | operator | constant | free => cases hcall
  rw [filled_eq_flatMap_text]
  refine tokens_flatMap_text_of_numbersEnd leavesNumerals_standard
    (numbersEnd_fillTokens hfits (numbersEnd_tokens leavesNumerals_standard text)) ?_ ?_
  · intro n hmem
    rcases mem_fillTokens hmem with hmem | ⟨hmem, -, -⟩
    · simp [placeholder] at hmem
    · obtain ⟨after, hn⟩ := hfits.exists_of_mem hmem
      exact hn
  · exact inContext_of_forall fun following tok hmem hnumeral => hkept tok hmem hnumeral following

end Formula

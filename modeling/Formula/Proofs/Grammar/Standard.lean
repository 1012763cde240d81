import Formula.Proofs.Grammar.Completion
import Formula.Proofs.Token.SecondPoints

/-!
# The grammar of the standard symbols

With the standard symbols, the formulas that are read without errors are those that can be split
into numbers, names, operators, parentheses, commas and blanks which nest in scopes, under rules
that are written down here without looking at the declarations of the symbols.

Neither the splitting nor the nesting says how a formula is read.  A split is unique, because no
standard literal is the start of another one or starts like a number, and it is the one that the
lexer finds (`tokens_of_lexemes`).
-/

namespace Formula

/-- The least and, if there is one, the greatest number of arguments of the functions by name: one or
two for a logarithm, at least one for a minimum or maximum, and one for the others. -/
def slotBounds (name : Text) : Nat × Option Nat :=
  if name = "log".toList then (1, some 2)
  else if name = "min".toList || name = "max".toList then (1, none)
  else (1, some 1)

/-- The rules of everyday calculations: four operators need a value before them, the signs do not,
and all operators need something after them. -/
def Grammar.everyday : Grammar where
  needsLeft op := ["*".toList, "/".toList, "%".toList, "^".toList].contains op.literal
  needsRight _ := true
  takes f n := (slotBounds f.literal).1 ≤ n && (slotBounds f.literal).2.all (n ≤ ·)

/-- Whether a symbol declares the rules of everyday calculations. -/
def Symbol.isEveryday : Symbol → Bool
  | .operator op => Grammar.declared.needsLeft op == Grammar.everyday.needsLeft op &&
      Grammar.declared.needsRight op == Grammar.everyday.needsRight op
  | .function f => (f.signature.required, f.signature.maximum?) == slotBounds f.literal
  | _ => true

/-- The standard symbols declare the rules of everyday calculations. -/
theorem agreeOn_standard {s : Symbol} (hs : s ∈ standardSymbols) :
    Grammar.declared.AgreeOn .everyday s := by
  have h : standardSymbols.all Symbol.isEveryday = true := by decide +kernel
  have hsymbol := List.all_eq_true.1 h s hs
  cases s with
  | operator op => simpa [Symbol.isEveryday, Grammar.AgreeOn] using hsymbol
  | function f =>
    intro n
    have hbounds : (f.signature.required, f.signature.maximum?) = slotBounds f.literal := by
      simpa [Symbol.isEveryday] using hsymbol
    simp only [Grammar.declared, Grammar.everyday, ← hbounds]
    rfl
  | constant | free => trivial

theorem Grammar.AgreeOn.symm {g g' : Grammar} {s : Symbol} (h : g.AgreeOn g' s) :
    g'.AgreeOn g s := by
  cases s with
  | operator op => exact ⟨h.1.symm, h.2.symm⟩
  | function f => exact fun n => (h n).symm
  | constant | free => trivial

theorem minusStandsAlone_standard : Registry.standard.MinusStandsAlone := by
  have h : standardOperators.all (fun op => op.literal ≠ ['-'] || op.leftOptional) = true := by
    decide +kernel
  intro op hop hliteral
  have hoperator := List.all_eq_true.1 h op (mem_standardOperators hop)
  simpa [hliteral] using hoperator

/-- Digits with a point and further digits or without, or a point and digits. -/
def IsNumeral (t : Text) : Prop :=
  ∃ ds fs : Text, (∀ c ∈ ds ++ fs, c.isDigit = true) ∧
    (ds ≠ [] ∧ (t = ds ∨ t = ds ++ '.' :: fs) ∨ fs ≠ [] ∧ t = '.' :: fs)

/-- A piece of a formula, if `following` is the text after it.  No number is followed by a digit or a
point, and every function name is followed by an opening parenthesis, after blanks at most. -/
def Token.Lexeme (following : Text) : Token → Prop
  | blank c => isBlank c = true
  | opening | closing | comma => True
  | number n => IsNumeral n ∧ ∀ c ∈ following.head?, c.isDigit = false ∧ c ≠ '.'
  | symbol s w => s ∈ standardSymbols ∧ w.lower = s.literal.lower ∧
      (s.isCallable = true → (following.dropWhile isBlank).head? = some '(')
  | unknown _ | repeatedPoint | uncalled _ => False

theorem isNumeral_iff {t : Text} : IsNumeral t ↔ Numeral.isPlain t = true := by
  rw [Numeral.isPlain_iff]
  constructor
  · rintro ⟨ds, fs, hdigits, hshape⟩
    have hds : Numeral.allDigits ds = true :=
      Numeral.allDigits_iff.2 fun c hc => hdigits c (List.mem_append_left _ hc)
    have hfs : Numeral.allDigits fs = true :=
      Numeral.allDigits_iff.2 fun c hc => hdigits c (List.mem_append_right _ hc)
    rcases hshape with ⟨hne, rfl | rfl⟩ | ⟨hne, rfl⟩
    · exact ⟨t, [], hds, rfl, .inl ⟨rfl, hne⟩⟩
    · exact ⟨ds, fs, hds, hfs, .inr ⟨rfl, .inl hne⟩⟩
    · exact ⟨[], fs, rfl, hfs, .inr ⟨rfl, .inr hne⟩⟩
  · rintro ⟨ds, fs, hds, hfs, hshape⟩
    refine ⟨ds, fs, ?_, ?_⟩
    · intro c hc
      rcases List.mem_append.1 hc with hc | hc
      · exact Numeral.allDigits_iff.1 hds c hc
      · exact Numeral.allDigits_iff.1 hfs c hc
    · rcases hshape with ⟨rfl, hne⟩ | ⟨rfl, hne⟩
      · exact .inl ⟨hne, .inl rfl⟩
      · by_cases hds : ds = []
        · subst hds
          exact .inr ⟨hne.resolve_left (by simp), rfl⟩
        · exact .inl ⟨hds, .inr rfl⟩

theorem continuesNumeral_eq_false_iff {t : Text} :
    continuesNumeral t = false ↔ ∀ c ∈ t.head?, c.isDigit = false ∧ c ≠ '.' := by
  cases t with
  | nil => simp [continuesNumeral]
  | cons c t => simp [continuesNumeral]

theorem startsCall_iff {t : Text} :
    startsCall t = true ↔ (t.dropWhile isBlank).head? = some '(' := by
  rw [startsCall, beq_iff_eq]

/-- A piece can be told from what follows it. -/
theorem Token.Lexeme.stands {following : Text} {tok : Token} (h : tok.Lexeme following) :
    tok.Stands .standard following := by
  cases tok with
  | blank | opening | closing | comma => exact h
  | unknown | repeatedPoint | uncalled => exact h.elim
  | number n => exact ⟨isNumeral_iff.1 h.1, continuesNumeral_eq_false_iff.2 h.2⟩
  | symbol s w =>
    obtain ⟨hs, hw, hcall⟩ := h
    have hmem : s ∈ Registry.standard.symbols := Registry.mem_standard.2 hs
    have hw' : Solid w := by
      rw [← solid_lower, hw, solid_lower]
      exact solid_standard hmem
    exact ⟨hmem, hw, hw', fun hc => startsCall_iff.2 (hcall hc), .inr (startingWith_standard hmem)⟩

/-- A token of a formula that is no hint and could be read is a piece. -/
theorem Token.Fits.lexeme {following : Text} {tok : Token} (h : tok.Fits .standard following)
    (hends : tok.EndsNumber following) (hhint : tok.isHint = false)
    (hread : tok.isReadable = true) : tok.Lexeme following := by
  cases tok with
  | blank | opening | closing | comma => exact h
  | unknown | repeatedPoint => cases hread
  | uncalled => cases hhint
  | number n => exact ⟨isNumeral_iff.2 h, continuesNumeral_eq_false_iff.1 hends⟩
  | symbol s w =>
    obtain ⟨hs, hw, -, hcall⟩ := h
    exact ⟨Registry.mem_standard.1 hs, hw, fun hc => startsCall_iff.1 (hcall hc)⟩

theorem text_withoutHints (ts : List Token) :
    (withoutHints ts).flatMap Token.text = ts.flatMap Token.text := by
  induction ts with
  | nil => rfl
  | cons tok ts ih =>
    cases tok with
    | uncalled name => exact ih
    | _ => exact congrArg (_ ++ ·) ih

/-- Hints have no text, so the other tokens keep what follows them. -/
theorem InContext.withoutHints {P Q : Text → Token → Prop} {after : Text} {ts : List Token}
    (h : InContext P after ts)
    (hpq : ∀ following, ∀ tok ∈ ts, tok.isHint = false → P following tok → Q following tok) :
    InContext Q after (withoutHints ts) := by
  induction ts with
  | nil => trivial
  | cons tok ts ih =>
    obtain ⟨htok, hrest⟩ := h
    have hts : InContext Q after (Formula.withoutHints ts) :=
      ih hrest fun following t ht => hpq following t (List.mem_cons_of_mem _ ht)
    cases hhint : tok.isHint with
    | true =>
      have hcons : Formula.withoutHints (tok :: ts) = Formula.withoutHints ts := by
        simp [Formula.withoutHints, hhint]
      rw [hcons]
      exact hts
    | false =>
      have hcons : Formula.withoutHints (tok :: ts) = tok :: Formula.withoutHints ts := by
        simp [Formula.withoutHints, hhint]
      rw [hcons]
      refine ⟨?_, hts⟩
      rw [text_withoutHints]
      exact hpq _ tok List.mem_cons_self hhint htok

/-- **Pieces are read back.** -/
theorem tokens_of_lexemes {ts : List Token} (h : InContext Token.Lexeme [] ts) :
    tokens .standard (ts.flatMap Token.text) = ts :=
  tokens_flatMap_text leavesNumerals_standard (h.imp fun _ _ => Token.Lexeme.stands)

/-- The tokens of a formula that is a scope are pieces, and there are no hints. -/
theorem lexemes_of_scope {g : Grammar} {last : Last} {t : Text}
    (h : Scope g last (tokens .standard t)) : InContext Token.Lexeme [] (tokens .standard t) ∧
      withoutHints (tokens .standard t) = tokens .standard t := by
  have hreadable := h.isReadable
  have hpoint : .repeatedPoint ∉ tokens .standard t := by
    intro hmem
    cases hreadable _ hmem
  have hends := numbers_end leavesNumerals_standard hpoint
  have hlexemes : InContext Token.Lexeme [] (withoutHints (tokens .standard t)) := by
    refine ((fits_tokens .standard t).and hends).withoutHints ?_
    intro following tok htok hhint hfits
    exact hfits.1.lexeme hfits.2 hhint (hreadable tok htok)
  -- the pieces are read back, so the tokens that are no hints are all tokens
  have hback := tokens_of_lexemes hlexemes
  rw [text_withoutHints, text_tokens] at hback
  exact ⟨hback ▸ hlexemes, hback.symm⟩

/-- **The formulas without errors are those of the grammar.**  With the standard symbols, nothing is
wrong with a formula if and only if it can be split into pieces that are a scope. -/
theorem isClean_parse_standard_iff (t : Text) :
    (parse .standard t).isClean = true ↔
      ∃ ts, ts.flatMap Token.text = t ∧ InContext Token.Lexeme [] ts ∧
        Scope .everyday .nothing ts := by
  rw [isClean_parse_iff_scope minusStandsAlone_standard]
  have hfits := fits_tokens .standard t
  constructor
  · intro hscope
    obtain ⟨hlexemes, hhints⟩ := lexemes_of_scope hscope
    refine ⟨tokens .standard t, text_tokens .standard t, hlexemes, ?_⟩
    rw [← hhints]
    refine hscope.transfer fun s w hs => agreeOn_standard ?_
    obtain ⟨following, hsymbol⟩ := hfits.exists_of_mem hs
    exact Registry.mem_standard.1 hsymbol.1
  · rintro ⟨ts, rfl, hlexemes, hscope⟩
    have hhints : withoutHints ts = ts := by
      refine List.filter_eq_self.2 ?_
      intro tok htok
      obtain ⟨following, htok⟩ := hlexemes.exists_of_mem htok
      cases tok with
      | uncalled => exact htok.elim
      | _ => rfl
    have hagree : ∀ s w, Token.symbol s w ∈ ts → Grammar.everyday.AgreeOn .declared s := by
      intro s w hs
      obtain ⟨following, hsymbol⟩ := hlexemes.exists_of_mem hs
      exact (agreeOn_standard hsymbol.1).symm
    rw [tokens_of_lexemes hlexemes, ← hhints]
    exact hscope.transfer hagree

end Formula

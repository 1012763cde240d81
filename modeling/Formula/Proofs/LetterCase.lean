import Formula.Proofs.Relabelling.Compilation
import Formula.Proofs.Token.Congruence

/-!
# Letter case

Letter case is folded wherever a formula is compared with anything: with the symbols of a registry,
with digits, with the parentheses and commas.  So a formula in lower case has the tokens of the
formula in lower case, and this is a relabelling that leaves all positions and all numbers where
they are.

Formulas that differ in letter case only are thus the same formula in lower case, and what is read
of them, and what they are compiled to, is the same up to letter case.
-/

namespace Formula

@[simp] theorem lower_lower (t : Text) : t.lower.lower = t.lower := by
  have hfold (c : Char) : c.toLower.toLower = c.toLower := by
    rcases toLower_eq_or c with h | ⟨h1, -, h3⟩
    · rw [h, h]
    · -- what a letter is folded to is beyond `Z`
      rcases toLower_eq_or c.toLower with h | ⟨-, h2, -⟩
      · exact h
      · omega
  simp [Text.lower, hfold]

theorem isBlank_toLower (c : Char) : isBlank c.toLower = isBlank c := by
  have hletter {d : Char} (h : 48 ≤ d.toNat) (h' : d.toNat < 0x85) : isBlank d = false :=
    isBlank_of_isDelimiter_eq_false (isDelimiter_eq_false h h')
  rcases toLower_eq_or c with h | ⟨h1, h2, h3⟩
  · rw [h]
  · rw [hletter (by omega) (by omega), hletter (by omega) (by omega)]

theorem lower_singleton_eq_iff {t : Text} {d : Char} (hd : d.toNat < 65) :
    t.lower = [d] ↔ t = [d] := by
  simp [Text.lower, List.map_eq_singleton_iff, toLower_eq_iff hd]

@[simp] theorem isPlain_lower (t : Text) : Numeral.isPlain t.lower = Numeral.isPlain t := by
  rw [Bool.eq_iff_iff]
  constructor
  · intro h
    have hnumeric : IsNumeric t := isNumeric_lower.1 (Numeral.isNumeric_of_isPlain h)
    rwa [lower_of_isNumeric hnumeric] at h
  · intro h
    rwa [lower_of_isNumeric (Numeral.isNumeric_of_isPlain h)]

@[simp] theorem startsCall_lower (t : Text) : startsCall t.lower = startsCall t := by
  induction t with
  | nil => rfl
  | cons c t ih =>
    have hopening : (c.toLower == '(') = (c == '(') := by
      rw [Bool.eq_iff_iff, beq_iff_eq, beq_iff_eq]
      exact toLower_eq_iff (by decide)
    rw [Text.lower_cons, startsCall_cons, startsCall_cons, ih, isBlank_toLower, hopening]

/-- Every character in lower case, where it was. -/
def Relabelling.lowerCase : Relabelling where
  position := id
  letter := Char.toLower
  content e := Text.lower e.text

/-- A token in lower case. -/
def Token.lower (tok : Token) : Token := tok.relabel .lowerCase

variable {r : Registry}

theorem longest?_lower (budget : Nat) (word following : Text) :
    r.longest? budget word.lower following.lower = r.longest? budget word following := by
  have hstarts : ∀ s : Symbol, s.startsWord budget word.lower following.lower =
      s.startsWord budget word following := by
    intro s
    have hdrop : word.lower.drop s.literal.length = Text.lower (word.drop s.literal.length) := by
      simp [Text.lower]
    rw [Symbol.startsWord, Symbol.startsWord, lower_lower, hdrop, ← Text.lower_append,
      startsCall_lower]
  simp only [Registry.longest?, hstarts]

theorem pieces_lower (following : Text) (budget : Nat) (word : Text) :
    pieces r following.lower budget word.lower =
      (pieces r following budget word).map Token.lower := by
  fun_induction pieces r following budget word with
  | case1 => rw [Text.lower_nil, pieces]; rfl
  | case2 budget c rest s hs left ih =>
    have hlongest := longest?_lower (r := r) budget (c :: rest) following
    rw [Text.lower_cons, hs] at hlongest
    have hleft : (Text.lower rest).drop (s.literal.length - 1) = Text.lower left := by
      simp [left, Text.lower]
    have htake : (c.toLower :: Text.lower rest).take s.literal.length =
        Text.lower ((c :: rest).take s.literal.length) := by
      rw [← Text.lower_cons]
      simp [Text.lower]
    rw [Text.lower_cons, pieces, hlongest]
    simp only [hleft, htake, Text.length_lower, ih, List.map_cons]
    rfl
  | case3 budget c rest hs ih =>
    have hlongest := longest?_lower (r := r) budget (c :: rest) following
    rw [Text.lower_cons, hs] at hlongest
    rw [Text.lower_cons, pieces, hlongest]
    simp only [Text.length_lower, ih, List.map_cons]
    rfl

theorem decompose_lower (following word : Text) :
    decompose r following.lower word.lower = (decompose r following word).map Token.lower := by
  rw [decompose, decompose, Text.length_lower, pieces_lower]

theorem resolve_lower (s : Symbol) (word following : Text) :
    resolve r s word.lower following.lower = (resolve r s word following).map Token.lower := by
  rw [resolve, resolve, startsCall_lower, decompose_lower]
  split <;> rfl

theorem get?_lower (word : Text) : r.get? word.lower = r.get? word :=
  Registry.get?_congr (lower_lower word)

theorem lower_eq_nil_iff {t : Text} : t.lower = [] ↔ t = [] := List.map_eq_nil_iff

theorem closeWord_lower (word following : Text) :
    closeWord r word.lower following.lower = (closeWord r word following).map Token.lower := by
  rw [closeWord, closeWord, get?_lower, isPlain_lower, decompose_lower]
  simp only [lower_eq_nil_iff, resolve_lower]
  split
  · rfl
  · split
    · rfl
    · cases r.get? word <;> rfl

theorem breakWord_lower (word following : Text) :
    breakWord r word.lower following.lower = (breakWord r word following).map Token.lower := by
  rw [breakWord, breakWord, get?_lower, isPlain_lower, decompose_lower]
  simp only [lower_eq_nil_iff, resolve_lower]
  split
  · rfl
  · cases r.get? word with
    | some s => rfl
    | none =>
      simp only
      split <;> rfl

/-! ## Characters that are read -/

/-- Pending characters in lower case. -/
def Pending.lower : Pending → Pending
  | word t => word t.lower
  | numeral t hasPoint => numeral t.lower hasPoint

@[simp] theorem Pending.text_lower (p : Pending) : p.lower.text = p.text.lower := by
  cases p <;> rfl

theorem startsNumeral_lower (word following : Text) :
    startsNumeral word.lower following.lower = startsNumeral word following := by
  have hpoint : word.lower = ['.'] ↔ word = ['.'] := lower_singleton_eq_iff (by decide)
  have hdigit : following.lower.head?.any Char.isDigit = following.head?.any Char.isDigit := by
    cases following with
    | nil => rfl
    | cons c following => exact isDigit_toLower c
  simp only [startsNumeral, isPlain_lower, hpoint, hdigit]

/-- What a character makes of the tokens and the pending characters, in lower case. -/
def lowerStep (step : List Token × Pending) : List Token × Pending :=
  (step.1.map Token.lower, step.2.lower)

theorem extend?_lower (word : Text) (c : Char) (following : Text) :
    extend? r word.lower c.toLower following.lower =
      (extend? r word c following).map lowerStep := by
  have hlonger : word.lower ++ [c.toLower] = Text.lower (word ++ [c]) := by
    rw [Text.lower_append]
    rfl
  have hpoint : c.toLower = '.' ↔ c = '.' := toLower_eq_iff (by decide)
  simp only [extend?, hlonger, lower_lower, startsNumeral_lower, resolve_lower, hpoint]
  cases r.startingWith (Text.lower (word ++ [c])) with
  | nil =>
    simp only
    split <;> rfl
  | cons s more =>
    cases more with
    | nil =>
      simp only
      split <;> rfl
    | cons t more => rfl

theorem startWord_lower (c : Char) (following : Text) :
    startWord r c.toLower following.lower = lowerStep (startWord r c following) := by
  have hextend := extend?_lower (r := r) [] c following
  rw [Text.lower_nil] at hextend
  rw [startWord, startWord, hextend]
  cases extend? r [] c following <;> rfl

/-- The first character of a word, after the tokens of the word before it. -/
theorem append_startWord_lower (ts : List Token) (c : Char) (following : Text) :
    (ts.map Token.lower ++ (startWord r c.toLower following.lower).1,
        (startWord r c.toLower following.lower).2) =
      lowerStep (ts ++ (startWord r c following).1, (startWord r c following).2) := by
  rw [startWord_lower]
  simp [lowerStep]

theorem lower_ofDelimiter (c : Char) :
    Token.ofDelimiter c.toLower = (Token.ofDelimiter c).lower := by
  have hsame {d : Char} (hd : d.toNat < 65) : c.toLower = d ↔ c = d := toLower_eq_iff hd
  simp only [Token.ofDelimiter, hsame (show '('.toNat < 65 by decide),
    hsame (show ')'.toNat < 65 by decide), hsame (show ','.toNat < 65 by decide)]
  repeat' split
  all_goals rfl

/-- **A character in lower case is read in lower case.** -/
theorem readChar_lower (p : Pending) (c : Char) (following : Text) :
    readChar r p.lower c.toLower following.lower = lowerStep (readChar r p c following) := by
  have hclose (word : Text) : closeWord r word.lower (c.toLower :: following.lower) =
      (closeWord r word (c :: following)).map Token.lower := closeWord_lower word (c :: following)
  have hbreak (word : Text) : breakWord r word.lower (c.toLower :: following.lower) =
      (breakWord r word (c :: following)).map Token.lower := breakWord_lower word (c :: following)
  have hpoint : c.toLower = '.' ↔ c = '.' := toLower_eq_iff (by decide)
  have hlonger (word : Text) : word.lower ++ [c.toLower] = Text.lower (word ++ [c]) := by
    rw [Text.lower_append]
    rfl
  simp only [readChar, isDelimiter_toLower, Pending.text_lower, hclose, lower_ofDelimiter]
  split
  · simp [lowerStep, Pending.none, Pending.lower]
  · cases p with
    | word w =>
      simp only [Pending.lower, extendWord, extend?_lower, hbreak]
      cases extend? r w c following with
      | some next => rfl
      | none => exact append_startWord_lower _ c following
    | numeral w hasPoint =>
      simp only [Pending.lower, extendNumeral, isDigit_toLower, hpoint, hclose, hlonger]
      split
      · rfl
      · split
        · split
          · simp [lowerStep, Pending.none, Pending.lower, Token.lower, Token.relabel]
          · rfl
        · exact append_startWord_lower _ c following

theorem tokensFrom_lower (p : Pending) (t : Text) :
    tokensFrom r p.lower t.lower = (tokensFrom r p t).map Token.lower := by
  induction t generalizing p with
  | nil =>
    have hclose := closeWord_lower (r := r) p.text []
    rw [Text.lower_nil, tokensFrom, tokensFrom, Pending.text_lower, ← hclose, Text.lower_nil]
  | cons c t ih =>
    rw [Text.lower_cons, tokensFrom_cons, tokensFrom_cons, readChar_lower, List.map_append, ← ih]
    rfl

/-- **The tokens of a formula in lower case.** -/
theorem tokens_lower (r : Registry) (t : Text) :
    tokens r t.lower = (tokens r t).map Token.lower :=
  tokensFrom_lower .none t

/-! ## Whole formulas -/

/-- A formula in lower case is the formula, relabelled. -/
theorem suits_lowerCase (t : Text) : Relabelling.lowerCase.Suits t t.lower where
  position_zero := rfl
  position_length := (Text.length_lower t).symm
  position_le _ _ h := h
  position_stop _ _ _ := rfl
  content_slice a b := by simp [Relabelling.lowerCase, Text.slice, Text.lower]
  touch_iff _ _ _ _ := Iff.rfl
  le_iff _ _ _ := Iff.rfl
  letter_numeral c hc := by
    refine (toLower_eq_iff ?_).2 rfl
    rcases hc with hc | rfl | rfl
    · have hdigit := (isDigit_iff c).1 hc
      omega
    · decide
    · decide

theorem relabels_lower (n : Nat) (ts : List Token) :
    Relabels .lowerCase n ts (ts.map Token.lower) := by
  induction ts generalizing n with
  | nil => exact .nil
  | cons tok ts ih =>
    by_cases hblank : ∃ c, tok = .blank c
    · obtain ⟨c, rfl⟩ := hblank
      have hgap : Relabels .lowerCase n (.blank c :: ts)
          ([c.toLower].map .blank ++ ts.map Token.lower) := .blank rfl (ih (n + 1))
      exact hgap
    · exact .other (fun c hc => hblank ⟨c, hc⟩) (ih _)

/-- The tokens of a formula in lower case are those of the formula, relabelled. -/
theorem relabels_tokens_lower (r : Registry) (t : Text) :
    Relabels .lowerCase 0 (tokens r t) (tokens r t.lower) := by
  rw [tokens_lower]
  exact relabels_lower 0 _

theorem root_lower (r : Registry) (t : Text) :
    (parse r t.lower).root = (parse r t).root.relabel .lowerCase := by
  obtain ⟨hitems, -, -⟩ := parse_relabel (suits_lowerCase t) (relabels_tokens_lower r t)
  rw [Parse.root, Parse.root, hitems, Part.relabel]
  rfl

theorem compile_lower (r : Registry) (t : Text) :
    compile (parse r t.lower) = compile (parse r t) := by
  rw [compile_relabel (suits_lowerCase t) (relabels_tokens_lower r t)]
  exact moved_id _

theorem keepsCommas_lowerCase : Relabelling.lowerCase.KeepsCommas where
  stop e := by simp [Relabelling.area, Relabelling.lowerCase, Excerpt.stop]
  comma := by decide

/-- **Letter case does not matter.**  Formulas that differ in letter case only have the same tree
but for the case of what is written: its parts are of the same kinds, stand for the same symbols,
and start and end at the same places.  So are the rows of the outlines, with the operands and the
arguments that they count.  The same is wrong with both, the same hints are given, and both are
compiled to the same formula or to the same error. -/
theorem letterCase_parse (r : Registry) {t u : Text} (h : t.lower = u.lower) :
    (parse r t).root.relabel .lowerCase = (parse r u).root.relabel .lowerCase ∧
    ((parse r t).root.rows 0 0).map (Row.relabel .lowerCase) =
      ((parse r u).root.rows 0 0).map (Row.relabel .lowerCase) ∧
    (parse r t).errors.map (ParseError.relabel .lowerCase) =
      (parse r u).errors.map (ParseError.relabel .lowerCase) ∧
    (parse r t).hints.map (Hint.relabel .lowerCase) =
      (parse r u).hints.map (Hint.relabel .lowerCase) ∧
    compile (parse r t) = compile (parse r u) := by
  obtain ⟨-, herrors, hhints⟩ := parse_relabel (suits_lowerCase t) (relabels_tokens_lower r t)
  obtain ⟨-, herrors', hhints'⟩ := parse_relabel (suits_lowerCase u) (relabels_tokens_lower r u)
  have hroot : (parse r t).root.relabel .lowerCase = (parse r u).root.relabel .lowerCase := by
    rw [← root_lower, ← root_lower, h]
  refine ⟨hroot, ?_, ?_, ?_, ?_⟩
  · rw [← rows_relabel keepsCommas_lowerCase, ← rows_relabel keepsCommas_lowerCase, hroot]
  · rw [← herrors, ← herrors', h]
  · rw [← hhints, ← hhints', h]
  · rw [← compile_lower, ← compile_lower r u, h]

/-- A function that is not called, and a letter that is unknown. -/
theorem letterCase_parse_sine :
    Text.lower "2SIN + PiQ".toList = Text.lower "2sIn + pIq".toList ∧
      (parse .standard "2SIN + PiQ".toList).errors.map (ParseError.relabel .lowerCase) =
        (parse .standard "2sIn + pIq".toList).errors.map (ParseError.relabel .lowerCase) ∧
      compile (parse .standard "2SIN + PiQ".toList) =
        compile (parse .standard "2sIn + pIq".toList) := by
  have h : Text.lower "2SIN + PiQ".toList = Text.lower "2sIn + pIq".toList := by decide
  obtain ⟨-, -, herrors, -, hcompile⟩ := letterCase_parse .standard h
  exact ⟨h, herrors, hcompile⟩

end Formula

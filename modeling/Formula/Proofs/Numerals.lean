import Formula.Proofs.Places
import Formula.Proofs.Reduction
import Formula.Proofs.Token.Numerals

/-!
# Formulas of digits and points

All parts of such a formula are numbers.  A number takes one point; a second one closes it, is
reported, and belongs to no part.  What is unknown are points only.  A registry of which no literal
consists of digits and points reads all these formulas like the standard registry just if no literal
starts with a point or with digits and a point.

The builder has little to do here: there is no operator that a number could join, and no parenthesis.
-/

namespace Formula

/-- The numbers among tokens of which the first one starts at a position. -/
def numbersFrom (n : Nat) : List Token → List Excerpt
  | [] => []
  | .number t :: ts => ⟨n, t⟩ :: numbersFrom (n + t.length) ts
  | tok :: ts => numbersFrom (n + tok.text.length) ts

/-- The errors of points that belong to no number. -/
def reportsFrom (n : Nat) : List Token → List ParseError
  | [] => []
  | .repeatedPoint :: ts => ⟨.repeatedPoint, n, 1⟩ :: reportsFrom (n + 1) ts
  | .unknown c :: ts => .unknown [c] n :: reportsFrom (n + 1) ts
  | tok :: ts => reportsFrom (n + tok.text.length) ts

/-- Whether a token is a number or a character that belongs to none. -/
def Token.spellsNumeral : Token → Bool
  | number _ | unknown _ | repeatedPoint => true
  | _ => false

theorem numbersFrom_map_unknown (n : Nat) (t : Text) : numbersFrom n (t.map .unknown) = [] := by
  induction t generalizing n with
  | nil => rfl
  | cons c t ih => exact ih (n + 1)

theorem NumeralTokens.spellsNumeral {ts : List Token} (h : NumeralTokens ts) :
    ∀ tok ∈ ts, tok.spellsNumeral = true := by
  induction h with
  | nil => exact fun tok htok => nomatch htok
  | last => simp [Token.spellsNumeral]
  | repeated _ _ _ ih | point _ _ ih => simpa [Token.spellsNumeral] using ih

section Rules

variable {ts : List Token} (h : NumeralTokens ts) (n : Nat)

include h

/-- A number is closed by the end of the formula or by a second point, which is reported. -/
theorem NumeralTokens.closed : ∀ e ∈ numbersFrom n ts, Numeral.isPlain e.text = true ∧
    (e.stop = n + (ts.flatMap Token.text).length ∨
      '.' ∈ e.text ∧ ⟨.repeatedPoint, e.stop, 1⟩ ∈ reportsFrom n ts) := by
  induction h generalizing n with
  | nil => exact fun e he => nomatch he
  | last hm =>
    refine List.forall_mem_singleton.2 ⟨hm, .inl ?_⟩
    simp [Excerpt.stop, Token.text]
  | @repeated m ts hm hpoint _ ih =>
    refine List.forall_mem_cons.2 ⟨⟨hm, .inr ⟨hpoint, List.mem_cons_self⟩⟩, fun e he => ?_⟩
    obtain ⟨hplain, hclosed⟩ := ih (n + m.length + 1) e he
    refine ⟨hplain, hclosed.imp (fun hstop => ?_) (And.imp_right (List.mem_cons_of_mem _))⟩
    rw [hstop, List.flatMap_cons, List.flatMap_cons, List.length_append, List.length_append]
    exact (Nat.add_assoc _ _ _).trans (Nat.add_assoc _ _ _)
  | point _ _ ih =>
    intro e he
    obtain ⟨hplain, hclosed⟩ := ih (n + 1) e he
    refine ⟨hplain, hclosed.imp (fun hstop => ?_) (And.imp_right (List.mem_cons_of_mem _))⟩
    rw [hstop, List.flatMap_cons, List.length_append]
    exact Nat.add_assoc _ _ _

/-- What is reported is a second point of a number, or a point by itself. -/
theorem NumeralTokens.reports : ∀ err ∈ reportsFrom n ts,
    (∃ e ∈ numbersFrom n ts, '.' ∈ e.text ∧ err = ⟨.repeatedPoint, e.stop, 1⟩) ∨
      ∃ k, err = .unknown ['.'] k := by
  induction h generalizing n with
  | nil | last => exact fun err herr => nomatch herr
  | @repeated m ts hm hpoint _ ih =>
    refine List.forall_mem_cons.2 ⟨.inl ⟨⟨n, m⟩, List.mem_cons_self, hpoint, rfl⟩, ?_⟩
    intro err herr
    refine (ih (n + m.length + 1) err herr).imp_left ?_
    rintro ⟨e, he, hreport⟩
    exact ⟨e, List.mem_cons_of_mem _ he, hreport⟩
  | point _ _ ih => exact List.forall_mem_cons.2 ⟨.inr ⟨n, rfl⟩, ih (n + 1)⟩

/-- Each digit belongs to a number. -/
theorem NumeralTokens.digits {i : Nat} {c : Char} (hi : (ts.flatMap Token.text)[i]? = some c)
    (hc : c.isDigit = true) : ∃ e ∈ numbersFrom n ts, e.covers (n + i) = true := by
  have hfirst : ∀ {n i : Nat} {m : Text} {rest : List Excerpt}, i < m.length →
      ∃ e ∈ (⟨n, m⟩ : Excerpt) :: rest, e.covers (n + i) = true := by
    intro n i m rest hlt
    refine ⟨_, List.mem_cons_self, covers_eq_true_iff.2 ⟨Nat.le_add_right n i, ?_⟩⟩
    exact Nat.add_lt_add_left hlt n
  induction h generalizing n i with
  | nil => cases hi
  | @last m hm =>
    have hlt : i < m.length := by
      simpa [Token.text] using (List.getElem?_eq_some_iff.1 hi).1
    exact hfirst hlt
  | @repeated m ts hm hpoint _ ih =>
    rcases Nat.lt_trichotomy i m.length with hlt | rfl | hlt
    · exact hfirst hlt
    · obtain rfl : '.' = c := by simpa [Token.text] using hi
      cases hc
    · obtain ⟨j, rfl⟩ : ∃ j, i = m.length + (j + 1) := ⟨i - m.length - 1, by omega⟩
      have hj : (ts.flatMap Token.text)[j]? = some c := by
        rw [List.flatMap_cons, Token.text, List.getElem?_append_right (Nat.le_add_right _ _)] at hi
        simpa [Token.text] using hi
      obtain ⟨e, he, hcovers⟩ := ih (n + m.length + 1) hj
      refine ⟨e, List.mem_cons_of_mem _ he, ?_⟩
      rwa [show n + (m.length + (j + 1)) = n + m.length + 1 + j by omega]
  | @point ts _ _ ih =>
    cases i with
    | zero =>
      obtain rfl : '.' = c := by simpa [Token.text] using hi
      cases hc
    | succ j =>
      have hj : (ts.flatMap Token.text)[j]? = some c := by simpa [Token.text] using hi
      obtain ⟨e, he, hcovers⟩ := ih (n + 1) hj
      exact ⟨e, he, by rwa [show n + (j + 1) = n + 1 + j by omega]⟩

end Rules

/-! ## The builder -/

namespace Builder

variable {text : Text}

/-- A number follows others. -/
theorem push_number (e : Excerpt) (numbers : List Excerpt) :
    push (.number e) (numbers.map .number) = (e :: numbers).map .number := by
  rcases push_eq_or (.number e) (numbers.map .number) with h | ⟨-, op, sign, -, hitems, -⟩
  · exact h
  · cases numbers <;> cases hitems

/-- **The builder puts numbers one after another**, and reports the characters between them. -/
theorem run_of_spellsNumeral {ts : List Token} (hts : ∀ tok ∈ ts, tok.spellsNumeral = true)
    {b : Builder} {numbers : List Excerpt} (hb : b.items = numbers.map .number) :
    b.run text ts =
      { b with
        position := b.position + (ts.flatMap Token.text).length
        items := ((numbersFrom b.position ts).reverse ++ numbers).map .number
        errors := b.errors ++ reportsFrom b.position ts } := by
  induction ts generalizing b numbers with
  | nil => simp [run, numbersFrom, reportsFrom, ← hb]
  | cons tok ts ih =>
    obtain ⟨htok, hrest⟩ := List.forall_mem_cons.1 hts
    rw [run_cons]
    cases tok with
    | number t =>
      have hitems : (b.step text (.number t)).items =
          (⟨b.position, t⟩ :: numbers : List Excerpt).map .number := by
        rw [← push_number, ← hb]
        rfl
      rw [ih hrest hitems]
      simp [step, take, numbersFrom, reportsFrom, Token.text, Nat.add_assoc]
    | unknown c =>
      rw [ih hrest (b := b.step text (.unknown c)) hb]
      simp [step, take, report, numbersFrom, reportsFrom, Token.text, Nat.add_assoc, Nat.add_comm 1]
    | repeatedPoint =>
      rw [ih hrest (b := b.step text .repeatedPoint) hb]
      simp [step, take, report, numbersFrom, reportsFrom, Token.text, Nat.add_assoc, Nat.add_comm 1]
    | blank | opening | closing | comma | symbol | uncalled => cases htok

end Builder

/-! ## The formula -/

/-- Numbers lack no operands. -/
theorem argumentErrors_numbers (unknowns : List Nat) (stop : Nat) (numbers : List Excerpt) :
    argumentErrors unknowns stop (numbers.map .number) = [] := by
  have hwalk : walkAll (numbers.map .number) = numbers.map .number := by
    induction numbers with
    | nil => rfl
    | cons e numbers ih =>
      rw [List.map_cons, walkAll, ih]
      rfl
  rw [List.eq_nil_iff_forall_not_mem]
  intro e he
  obtain ⟨p, hp, hcauses⟩ := exists_causes_of_mem_argumentErrors he
  rw [hwalk] at hp
  obtain ⟨number, -, rfl⟩ := List.mem_map.1 hp
  cases hcauses

variable {r : Registry} {text : Text}

/-- The parts and the errors of a formula without operators, calls and parentheses. -/
theorem parse_of_spellsNumeral (h : ∀ tok ∈ tokens r text, tok.spellsNumeral = true) :
    (parse r text).items = (numbersFrom 0 (tokens r text)).map .number ∧
      (parse r text).errors = collapse (reportsFrom 0 (tokens r text)) := by
  have hempty : Builder.empty.items = ([] : List Excerpt).map .number := rfl
  have hrun : Builder.empty.run text (tokens r text) = _ := Builder.run_of_spellsNumeral h hempty
  have hitems : (parse r text).items = (numbersFrom 0 (tokens r text)).map .number := by
    simp only [parse, hrun]
    simp [Builder.finish, Builder.closeAll, Builder.empty]
  refine ⟨hitems, ?_⟩
  have herrors : (parse r text).errors = collapse (reportsFrom 0 (tokens r text) ++
      argumentErrors (unknownPositions (reportsFrom 0 (tokens r text))) text.length
        (parse r text).items) := by
    simp only [parse, hrun]
    simp [Builder.finish, Builder.closeAll, Builder.empty, Builder.allErrors, Builder.unclosed]
  rw [herrors, hitems, argumentErrors_numbers, List.append_nil]

/-- What may be wrong with a formula of digits and points: a second point closes a number, or points
belong to no number. -/
def ParseError.IsStrayPoint (items : List Part) (err : ParseError) : Prop :=
  (∃ e, .number e ∈ items ∧ '.' ∈ e.text ∧ err = ⟨.repeatedPoint, e.stop, 1⟩) ∨
    ∃ k n, err = .unknown (List.replicate (k + 1) '.') n

/-- How a formula of digits and points is read. -/
structure Parse.ReadsNumerals (p : Parse) : Prop where
  /-- All parts are numbers with at most one point. -/
  numbers : ∀ q ∈ p.items, ∃ e, q = .number e ∧ Numeral.isPlain e.text = true ∧
    e.text.count '.' ≤ 1
  /-- A number that does not end the formula has a point, and a second point closes it, which is
  reported and belongs to no number. -/
  closed : ∀ e, .number e ∈ p.items → e.stop < p.text.length → '.' ∈ e.text ∧
    p.text[e.stop]? = some '.' ∧ ⟨.repeatedPoint, e.stop, 1⟩ ∈ p.errors ∧
    ∀ e', .number e' ∈ p.items → e'.covers e.stop = false
  /-- Nothing else is reported but points that belong to no number. -/
  errors : ∀ err ∈ p.errors, err.IsStrayPoint p.items
  /-- Each digit belongs to a number. -/
  digits : ∀ (i : Nat) (c : Char), p.text[i]? = some c → c.isDigit = true →
    ∃ e, .number e ∈ p.items ∧ e.covers i = true

/-- Only points that belong to no number are joined. -/
theorem isStrayPoint_join? {items : List Part} {a b c : ParseError} (ha : a.IsStrayPoint items)
    (hb : b.IsStrayPoint items) (h : a.join? b = some c) : c.IsStrayPoint items := by
  have hunknown : ∀ d : ParseError, d.IsStrayPoint items → d.identifier?.isSome = true →
      ∃ k n, d = .unknown (List.replicate (k + 1) '.') n := by
    rintro d (⟨e, -, -, rfl⟩ | hd) hsome
    · cases hsome
    · exact hd
  obtain ⟨hasome, hbsome, -⟩ := ParseError.identifier?_of_join? h
  obtain ⟨k, m, rfl⟩ := hunknown a ha hasome
  obtain ⟨l, n, rfl⟩ := hunknown b hb hbsome
  simp only [ParseError.join?, ParseError.unknown] at h
  obtain ⟨-, hc⟩ := Option.ite_none_right_eq_some.1 h
  refine .inr ⟨k + 1 + l, m, ?_⟩
  rw [← Option.some.inj hc, ParseError.unknown, List.replicate_append_replicate,
    List.length_replicate, List.length_replicate, List.length_replicate]
  rfl

/-- A second point that is reported is written where it is reported. -/
theorem getElem?_of_repeatedPoint {n : Nat} (h : ⟨.repeatedPoint, n, 1⟩ ∈ (parse r text).errors) :
    text[n]? = some '.' := by
  obtain ⟨t, habout, -, hstands⟩ := shows_parse r text _ h
  obtain rfl : t = ['.'] := habout
  obtain ⟨read, more, htext, hread⟩ := standsIn_iff.1 hstands
  change text[(Excerpt.mk n ['.']).start]? = some '.'
  rw [htext, hread]
  simp

/-- No character belongs to a number and to an error about what could not be read. -/
theorem covers_eq_false_of_mem_errors {e : Excerpt} {err : ParseError}
    (he : .number e ∈ (parse r text).items) (herr : err ∈ (parse r text).errors)
    (hlexical : err.isLexical = true) {n : Nat} (hn : err.covers n = true) :
    e.covers n = false := by
  have hspelled : .number e ∈ spelledParts (parse r text).items :=
    List.mem_filter.2 ⟨mem_walkAll_iff.2 ⟨_, .whole, he⟩, rfl⟩
  exact covers_eq_false_of_covers herr hlexical hn _ hspelled

/-- **What follows the rules is read as numbers and points.** -/
theorem readsNumerals_of_numeralTokens (h : NumeralTokens (tokens r text)) :
    (parse r text).ReadsNumerals := by
  obtain ⟨hitems, herrors⟩ := parse_of_spellsNumeral h.spellsNumeral
  have hmem : ∀ e, .number e ∈ (parse r text).items ↔ e ∈ numbersFrom 0 (tokens r text) := by
    intro e
    rw [hitems]
    simp
  refine ⟨?_, ?_, ?_, ?_⟩
  · rw [hitems]
    refine List.forall_mem_map.2 fun e he => ⟨e, rfl, (h.closed 0 e he).1, ?_⟩
    exact Numeral.count_point_le_one (h.closed 0 e he).1
  · intro e he hstop
    obtain ⟨-, hend | ⟨hpoint, hreport⟩⟩ := h.closed 0 e ((hmem e).1 he)
    · rw [text_tokens, Nat.zero_add] at hend
      exact absurd hstop (Nat.not_lt.2 hend.ge)
    · have herr : ⟨.repeatedPoint, e.stop, 1⟩ ∈ (parse r text).errors := by
        rw [herrors, mem_collapse_iff rfl]
        exact hreport
      refine ⟨hpoint, getElem?_of_repeatedPoint herr, herr, fun e' he' => ?_⟩
      refine covers_eq_false_of_mem_errors he' herr rfl (ParseError.covers_eq_true_iff.2 ?_)
      exact ⟨Nat.le_refl _, Nat.lt_succ_self _⟩
  · rw [herrors]
    refine forall_mem_collapse (fun _ _ _ => isStrayPoint_join?) fun err herr => ?_
    rcases h.reports 0 err herr with ⟨e, he, hreport⟩ | ⟨n, rfl⟩
    · exact .inl ⟨e, (hmem e).2 he, hreport⟩
    · exact .inr ⟨0, n, rfl⟩
  · intro i c hi hc
    rw [show (parse r text).text = text from rfl, ← text_tokens r text] at hi
    obtain ⟨e, he, hcovers⟩ := h.digits 0 hi hc
    rw [Nat.zero_add] at hcovers
    exact ⟨e, (hmem e).2 he, hcovers⟩

/-- **Digits and points are read alike with all registries** of which no literal starts with a point
or with digits and a point, if none consists of digits and points.  With any other literal of that
kind, some formula is read otherwise: a number that starts with the digits and the point takes
another point. -/
theorem numerals_parse (r : Registry) (hr : ∀ s ∈ r.symbols, ¬ IsNumeric s.literal) :
    (∀ text, IsNumeric text →
      (parse r text).items = (parse .standard text).items ∧
        (parse r text).errors = (parse .standard text).errors ∧
        (parse r text).ReadsNumerals) ↔
      ∀ s ∈ r.symbols, s.startsPointed = false := by
  have hstandard : ∀ {text}, IsNumeric text → NumeralTokens (tokens .standard text) :=
    numeralTokens_tokens (fun s hs => (leavesNumerals_standard.literal hs).1)
      fun s hs => (leavesNumerals_standard.literal hs).2
  constructor
  · intro h s hs
    by_contra hpointed
    rw [Bool.not_eq_false] at hpointed
    obtain ⟨n, hn, hmem, htokens⟩ := exists_tokens_of_startsPointed hr hs hpointed
    have hnumeric : IsNumeric (n ++ ['.']) := (Numeral.isNumeric_of_isPlain hn).append_point
    have hcut : tokens .standard (n ++ ['.']) = [.number n, .repeatedPoint] :=
      (hstandard hnumeric).unique (.repeated hn hmem .nil) (text_tokens _ _)
    -- the standard registry finds a number, and the other one finds none
    have hnone : (parse r (n ++ ['.'])).items = [] := by
      have hspells : ∀ tok ∈ tokens r (n ++ ['.']), tok.spellsNumeral = true := by
        rw [htokens]
        exact List.forall_mem_map.2 fun c _ => rfl
      rw [(parse_of_spellsNumeral hspells).1, htokens, numbersFrom_map_unknown, List.map_nil]
    have hone : (parse .standard (n ++ ['.'])).items = [.number ⟨0, n⟩] := by
      rw [(parse_of_spellsNumeral (hstandard hnumeric).spellsNumeral).1, hcut]
      rfl
    have hsame := (h _ hnumeric).1
    rw [hnone, hone] at hsame
    cases hsame
  · intro hpointed text htext
    have hnumeral := numeralTokens_tokens hr hpointed htext
    have htokens : tokens r text = tokens .standard text :=
      hnumeral.unique (hstandard htext) ((text_tokens r text).trans (text_tokens _ text).symm)
    refine ⟨?_, ?_, readsNumerals_of_numeralTokens hnumeral⟩
    · simp only [parse, htokens]
    · simp only [parse, htokens]

/-- The literal `1a` starts with a digit, but numbers are read as without it. -/
theorem numerals_parse_letter :
    ∃ r, Registry.ofSymbols [.free "1a".toList] = .ok r ∧
      (parse r "1.5.2".toList).items.map Part.excerpt = [⟨0, "1.5".toList⟩, ⟨4, ['2']⟩] ∧
      (parse r "1.5.2".toList).errors = [⟨.repeatedPoint, 3, 1⟩] := by
  have hbuilt : (Registry.ofSymbols [.free "1a".toList]).isOk = true := by decide +kernel
  obtain ⟨r, hr⟩ := exists_of_isOk hbuilt
  have hsymbols : ∀ s ∈ r.symbols, s = .free "1a".toList := fun s hs =>
    List.mem_singleton.1 ((Registry.mem_ofSymbols hr).1 hs)
  have hnumeric : ∀ s ∈ r.symbols, ¬ IsNumeric s.literal := by
    intro s hs
    rw [hsymbols s hs]
    decide
  have hpointed : ∀ s ∈ r.symbols, s.startsPointed = false := by
    intro s hs
    rw [hsymbols s hs]
    decide
  obtain ⟨hitems, herrors, -⟩ := (numerals_parse r hnumeric).2 hpointed "1.5.2".toList (by decide)
  refine ⟨r, hr, ?_, ?_⟩
  · rw [hitems]
    decide +kernel
  · rw [herrors]
    decide +kernel

/-- **A literal may change how digits and points are read.**  With `1.a`, the second point of `1..2`
starts a number and is not reported. -/
theorem not_forall_readsNumerals :
    ¬ ∀ r : Registry, (∀ s ∈ r.symbols, ¬ IsNumeric s.literal) → ∀ text, IsNumeric text →
      (parse r text).items = (parse .standard text).items ∧
        (parse r text).errors = (parse .standard text).errors ∧ (parse r text).ReadsNumerals := by
  intro h
  have hbuilt : (Registry.ofSymbols [.free "1.a".toList]).isOk = true := by decide +kernel
  have hclean : (Registry.ofSymbols [.free "1.a".toList]).toOption.all (fun r =>
      (parse r "1..2".toList).errors = []) = true := by decide +kernel
  have hstandard : (parse .standard "1..2".toList).errors = [⟨.repeatedPoint, 2, 1⟩] := by
    decide +kernel
  obtain ⟨r, hr⟩ := exists_of_isOk hbuilt
  rw [hr] at hclean
  have hnumeric : ∀ s ∈ r.symbols, ¬ IsNumeric s.literal := by
    intro s hs
    rw [List.mem_singleton.1 ((Registry.mem_ofSymbols hr).1 hs)]
    decide
  have herrors := (h r hnumeric "1..2".toList (by decide)).2.1
  rw [of_decide_eq_true hclean, hstandard] at herrors
  cases herrors

end Formula

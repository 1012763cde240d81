import Formula.Proofs.Token.Numerals

/-!
# Where numbers end

A number of a formula is followed by no digit and no point, or it has a point already and a second
one follows, which is reported.  A second point is reported nowhere else.

So tokens can be read back even if second points have been reported: all that matters of the text
after a number is whether it would be read on.
-/

namespace Formula

variable {r : Registry}

/-- Whether a token is a number or its second point. -/
def Token.isNumeral : Token → Bool
  | number _ | repeatedPoint => true
  | _ => false

/-- Tokens whose numbers are followed by no digit and no point, unless it is a second point that is
reported; `after` is the text after the tokens. -/
inductive NumbersEnd (after : Text) : List Token → Prop
  /-- No tokens. -/
  | nil : NumbersEnd after []
  /-- A number that is not read on. -/
  | number {n : Text} {ts : List Token}
    (hend : continuesNumeral (ts.flatMap Token.text ++ after) = false)
    (rest : NumbersEnd after ts) : NumbersEnd after (.number n :: ts)
  /-- A number with a point, and a second one. -/
  | repeated {n : Text} {ts : List Token} (hpoint : '.' ∈ n) (rest : NumbersEnd after ts) :
    NumbersEnd after (.number n :: .repeatedPoint :: ts)
  /-- Something else. -/
  | other {tok : Token} {ts : List Token} (htok : tok.isNumeral = false)
    (rest : NumbersEnd after ts) : NumbersEnd after (tok :: ts)

namespace NumbersEnd

variable {after : Text} {ss ts : List Token}

theorem append (hss : NumbersEnd (ts.flatMap Token.text ++ after) ss)
    (hts : NumbersEnd after ts) : NumbersEnd after (ss ++ ts) := by
  induction hss with
  | nil => exact hts
  | number hend rest ih =>
    rw [List.cons_append]
    refine .number ?_ ih
    rwa [List.flatMap_append, List.append_assoc]
  | repeated hpoint rest ih => exact .repeated hpoint ih
  | other htok rest ih => exact .other htok ih

theorem of_forall (h : ∀ tok ∈ ts, tok.isNumeral = false) : NumbersEnd after ts := by
  induction ts with
  | nil => exact .nil
  | cons tok ts ih =>
    obtain ⟨htok, hts⟩ := List.forall_mem_cons.1 h
    exact .other htok (ih hts)

/-- Tokens that end before a character, and what the character starts. -/
theorem append_startWord {c : Char} {following : Text} (hts : NumbersEnd (c :: following) ts)
    (hstart : NumbersEnd ((startWord r c following).2.text ++ following)
      (startWord r c following).1) :
    NumbersEnd ((startWord r c following).2.text ++ following)
      (ts ++ (startWord r c following).1) := by
  refine append ?_ hstart
  rwa [← List.append_assoc, text_startWord]

end NumbersEnd

/-! ## The numbers of a formula -/

theorem isNumeral_pieces {following : Text} {budget : Nat} {word : Text} :
    ∀ tok ∈ pieces r following budget word, tok.isNumeral = false := by
  fun_induction pieces with
  | case1 => simp
  | case2 budget c rest s hs left ih => exact List.forall_mem_cons.2 ⟨rfl, ih⟩
  | case3 budget c rest _ ih => exact List.forall_mem_cons.2 ⟨rfl, ih⟩

theorem isNumeral_resolve {s : Symbol} {word following : Text} :
    ∀ tok ∈ resolve r s word following, tok.isNumeral = false := by
  rw [resolve]
  split
  · exact List.forall_mem_cons.2 ⟨rfl, isNumeral_pieces⟩
  · exact List.forall_mem_singleton.2 rfl

theorem numbersEnd_closeWord {word following : Text}
    (h : Numeral.isPlain word = true → continuesNumeral following = false) :
    NumbersEnd following (closeWord r word following) := by
  simp only [closeWord]
  repeat' split
  · exact .nil
  · rename_i hplain
    exact .number (h hplain) .nil
  · exact .of_forall isNumeral_resolve
  · exact .of_forall isNumeral_pieces

theorem numbersEnd_breakWord {word following : Text} (h : Numeral.isPlain word = false) :
    NumbersEnd following (breakWord r word following) := by
  simp only [breakWord]
  repeat' split
  · exact .nil
  · exact .of_forall isNumeral_resolve
  · simp_all
  · exact .of_forall isNumeral_pieces

/-- Pending characters are the start of a symbol or a number; `following` is the text after them. -/
def Pending.Settled (r : Registry) (following : Text) : Pending → Prop
  | word w => w = [] ∨ r.startingWith w.lower ≠ []
  | numeral w false => Numeral.allDigits w = true ∧ w ≠ []
  | numeral w true => '.' ∈ w ∧
      (Numeral.isPlain w = true ∨ w = ['.'] ∧ following.head?.any Char.isDigit = true)

theorem settled_none (following : Text) : Pending.none.Settled r following := .inl rfl

/-- A word with a further character.  Only a single character starts a number. -/
theorem numbersEnd_extend? (hr : r.LeavesNumerals) {word following after : Text} {c : Char}
    {ts : List Token} {p : Pending} (hword : (Pending.word word).Settled r (c :: following))
    (h : extend? r word c following = some (ts, p)) :
    NumbersEnd after ts ∧ p.Settled r following := by
  rcases extend?_cases h with ⟨s, -, -, rfl, rfl⟩ | ⟨hs, rfl, rfl⟩ | ⟨hstarts, rfl, rfl⟩
  · exact ⟨.of_forall isNumeral_resolve, settled_none following⟩
  · exact ⟨.nil, .inr hs⟩
  · refine ⟨.nil, ?_⟩
    have hcontinues : continuesNumeral (word ++ [c]) = true := by
      simp only [startsNumeral, Bool.or_eq_true, Bool.and_eq_true, decide_eq_true_eq] at hstarts
      rcases hstarts with hplain | ⟨hpoint, -⟩
      · exact continuesNumeral_of_isPlain hplain
      · rw [hpoint]
        rfl
    cases word with
    | cons d word =>
      have hcontinues : continuesNumeral (d :: word) = true := hcontinues
      exact absurd (startingWith_eq_nil hr hcontinues)
        (hword.resolve_left (List.cons_ne_nil d word))
    | nil =>
      by_cases hc : c = '.'
      · subst hc
        have hdigit : following.head?.any Char.isDigit = true := by
          simpa [startsNumeral, Numeral.isPlain] using hstarts
        exact ⟨List.mem_cons_self, .inr ⟨rfl, hdigit⟩⟩
      · have hdigit : c.isDigit = true := by simpa [continuesNumeral, hc] using hcontinues
        rw [decide_eq_false hc]
        exact ⟨Numeral.allDigits_iff.2 (List.forall_mem_singleton.2 hdigit), List.cons_ne_nil _ _⟩

theorem numbersEnd_startWord (hr : r.LeavesNumerals) (c : Char) (following after : Text) :
    NumbersEnd after (startWord r c following).1 ∧
      (startWord r c following).2.Settled r following := by
  rw [startWord]
  cases h : extend? r [] c following with
  | none => exact ⟨.other rfl .nil, settled_none following⟩
  | some next => exact numbersEnd_extend? hr (.inl rfl) h

/-- A number stays pending if it takes a digit. -/
theorem settled_digit {w following : Text} {hasPoint : Bool} {c : Char} (hc : c.isDigit = true)
    (hw : (Pending.numeral w hasPoint).Settled r (c :: following)) :
    (Pending.numeral (w ++ [c]) hasPoint).Settled r following := by
  have hdigits : Numeral.allDigits [c] = true :=
    Numeral.allDigits_iff.2 (List.forall_mem_singleton.2 hc)
  cases hasPoint with
  | false =>
    refine ⟨Numeral.allDigits_iff.2 (List.forall_mem_append.2 ⟨?_, ?_⟩), by simp⟩
    · exact Numeral.allDigits_iff.1 hw.1
    · exact Numeral.allDigits_iff.1 hdigits
  | true =>
    refine ⟨List.mem_append_left _ hw.1, .inl ?_⟩
    rcases hw.2 with hplain | ⟨rfl, -⟩
    · exact Numeral.isPlain_append_digits hplain hdigits
    · exact Numeral.isPlain_point_cons hdigits (List.cons_ne_nil _ _)

/-- A pending number is complete before anything but a digit. -/
theorem isPlain_of_settled {w following : Text} {hasPoint : Bool} {c : Char}
    (hc : c.isDigit = false) (hw : (Pending.numeral w hasPoint).Settled r (c :: following)) :
    Numeral.isPlain w = true := by
  cases hasPoint with
  | false => exact Numeral.isPlain_of_allDigits hw.1 hw.2
  | true => exact hw.2.resolve_right fun hdigit => by simp [hc] at hdigit

/-- A number with a further character. -/
theorem numbersEnd_extendNumeral (hr : r.LeavesNumerals) {w following : Text} {hasPoint : Bool}
    {c : Char} (hw : (Pending.numeral w hasPoint).Settled r (c :: following)) :
    NumbersEnd ((extendNumeral r w hasPoint c following).2.text ++ following)
      (extendNumeral r w hasPoint c following).1 ∧
        (extendNumeral r w hasPoint c following).2.Settled r following := by
  by_cases hdigit : c.isDigit = true
  · simp only [extendNumeral, if_pos hdigit]
    exact ⟨.nil, settled_digit hdigit hw⟩
  · rw [Bool.not_eq_true] at hdigit
    have hplain := isPlain_of_settled hdigit hw
    by_cases hpoint : c = '.'
    · subst hpoint
      cases hasPoint with
      | true =>
        have hclose : closeWord r w ('.' :: following) = [.number w] := by
          rw [closeWord, if_neg (Numeral.ne_nil_of_isPlain hplain), if_pos hplain]
        have hread : extendNumeral r w true '.' following =
            ([.number w, .repeatedPoint], .none) := by
          simp [extendNumeral, hclose]
        rw [hread]
        exact ⟨.repeated hw.1 .nil, settled_none following⟩
      | false =>
        have hread : extendNumeral r w false '.' following =
            ([], .numeral (w ++ ['.']) true) := rfl
        rw [hread]
        exact ⟨.nil, by simp, .inl (Numeral.isPlain_append_point hw.1 hw.2)⟩
    · simp only [extendNumeral, if_neg (Bool.eq_false_iff.1 hdigit), if_neg hpoint]
      have hclose : NumbersEnd (c :: following) (closeWord r w (c :: following)) :=
        numbersEnd_closeWord fun _ => by simp [continuesNumeral, hdigit, hpoint]
      obtain ⟨hnumbers, hsettled⟩ := numbersEnd_startWord hr c following
        ((startWord r c following).2.text ++ following)
      exact ⟨hclose.append_startWord hnumbers, hsettled⟩

/-- The numbers that a character completes. -/
theorem numbersEnd_readChar (hr : r.LeavesNumerals) {p : Pending} {c : Char} {following : Text}
    (hp : p.Settled r (c :: following)) :
    NumbersEnd ((readChar r p c following).2.text ++ following) (readChar r p c following).1 ∧
      (readChar r p c following).2.Settled r following := by
  by_cases hc : isDelimiter c = true
  · rw [readChar_delimiter hc]
    refine ⟨.append ?_ (.other ?_ .nil), settled_none following⟩
    · simpa using numbersEnd_closeWord fun _ => continuesNumeral_of_isDelimiter hc following
    · rw [Token.ofDelimiter]
      repeat' split
      all_goals rfl
  · rw [Bool.not_eq_true] at hc
    cases p with
    | numeral w hasPoint =>
      rw [readChar_numeral hc]
      exact numbersEnd_extendNumeral hr hp
    | word w =>
      rw [readChar_word hc]
      simp only [extendWord]
      split
      · rename_i next h
        exact numbersEnd_extend? hr hp h
      · have hplain : Numeral.isPlain w = false := by
          rcases hp with rfl | hw
          · rfl
          · exact isPlain_eq_false hr hw
        obtain ⟨hnumbers, hsettled⟩ := numbersEnd_startWord hr c following
          ((startWord r c following).2.text ++ following)
        exact ⟨(numbersEnd_breakWord hplain).append_startWord hnumbers, hsettled⟩

theorem numbersEnd_tokensFrom (hr : r.LeavesNumerals) {p : Pending} {t : Text}
    (hp : p.Settled r t) : NumbersEnd [] (tokensFrom r p t) := by
  induction t generalizing p with
  | nil => exact numbersEnd_closeWord fun _ => rfl
  | cons c following ih =>
    obtain ⟨hnumbers, hsettled⟩ := numbersEnd_readChar hr hp
    rw [tokensFrom_cons]
    refine .append ?_ (ih hsettled)
    rwa [text_tokensFrom, List.append_nil]

/-- **Where the numbers of a formula end.** -/
theorem numbersEnd_tokens (hr : r.LeavesNumerals) (t : Text) : NumbersEnd [] (tokens r t) :=
  numbersEnd_tokensFrom hr (settled_none t)

/-- No digit and no point follows a number. -/
def Token.EndsNumber (following : Text) : Token → Prop
  | number _ => continuesNumeral following = false
  | _ => True

/-- **Without a second point, no number of a formula is followed by a digit or a point.** -/
theorem numbers_end (hr : r.LeavesNumerals) {t : Text} (hpoint : .repeatedPoint ∉ tokens r t) :
    InContext Token.EndsNumber [] (tokens r t) := by
  have hnumbers := numbersEnd_tokens hr t
  generalize tokens r t = ts at hpoint hnumbers
  induction hnumbers with
  | nil => trivial
  | number hend rest ih => exact ⟨hend, ih fun hmem => hpoint (List.mem_cons_of_mem _ hmem)⟩
  | repeated => simp at hpoint
  | @other tok ts htok rest ih =>
    refine ⟨?_, ih fun hmem => hpoint (List.mem_cons_of_mem _ hmem)⟩
    cases tok with
    | number => cases htok
    | _ => trivial

/-! ## Reading tokens back -/

/-- A number with a point and a second point are read back. -/
theorem tokensFrom_repeated (hr : r.LeavesNumerals) {n : Text} (hn : Numeral.isPlain n = true)
    (hpoint : '.' ∈ n) (u : Text) :
    tokensFrom r .none (n ++ '.' :: u) = .number n :: .repeatedPoint :: tokensFrom r .none u := by
  have hclose : closeWord r n ('.' :: u) = [.number n] := by
    rw [closeWord, if_neg (Numeral.ne_nil_of_isPlain hn), if_pos hn]
  rw [tokensFrom_isPlain hr hn, decide_eq_true hpoint, tokensFrom_cons,
    readChar_numeral (by decide)]
  simp [extendNumeral, hclose]

/-- **Tokens are read back**, also if second points have been reported. -/
theorem tokens_flatMap_text_of_numbersEnd (hr : r.LeavesNumerals) {ts : List Token}
    (hnumbers : NumbersEnd [] ts) (hplain : ∀ n, .number n ∈ ts → Numeral.isPlain n = true)
    (hstands : InContext (fun following tok => tok.isNumeral = false → tok.Stands r following)
      [] ts) : tokens r (ts.flatMap Token.text) = ts := by
  rw [tokens]
  induction hnumbers with
  | nil => rfl
  | @number n ts hend rest ih =>
    have hn := hplain n List.mem_cons_self
    rw [List.append_nil] at hend
    rw [List.flatMap_cons, Token.text, tokensFrom_number hr hn hend,
      ih (fun m hm => hplain m (List.mem_cons_of_mem _ hm)) hstands.2]
  | @repeated n ts hpoint rest ih =>
    have hn := hplain n List.mem_cons_self
    have hts := ih (fun m hm => hplain m (List.mem_cons_of_mem _ (List.mem_cons_of_mem _ hm)))
      hstands.2.2
    have h := tokensFrom_repeated hr hn hpoint (ts.flatMap Token.text)
    rw [hts] at h
    exact h
  | @other tok ts htok rest ih =>
    have hstand := hstands.1 htok
    rw [List.append_nil] at hstand
    rw [List.flatMap_cons, tokensFrom_of_stands hr hstand,
      ih (fun m hm => hplain m (List.mem_cons_of_mem _ hm)) hstands.2]

end Formula

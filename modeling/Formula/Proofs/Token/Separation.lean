import Formula.Proofs.Token.Context

/-!
# Reading tokens back

Tokens that are written one after another are read back as the same tokens if each of them can be
told from what follows it.  A number must not be followed by a digit or a point.  A symbol must be
followed by a delimiter or by nothing, unless its literal is no start of another one, since then it
ends at once; and a function name must be followed by an opening parenthesis, after blanks at most.

This needs a registry that leaves numerals alone: no literal starts with a digit or a point.
Otherwise a numeral might begin a symbol.
-/

namespace Formula

/-- No literal starts with a digit or a point. -/
def Registry.LeavesNumerals (r : Registry) : Prop :=
  ∀ s ∈ r.symbols, ∀ c ∈ s.literal.head?, c.isDigit = false ∧ c ≠ '.'

/-- Whether a text starts with a digit or a point. -/
def continuesNumeral (t : Text) : Bool :=
  t.head?.any fun c => c.isDigit || c = '.'

/-- Whether a text is empty or starts with a delimiter. -/
def endsWord (t : Text) : Bool :=
  t.head?.all isDelimiter

variable {r : Registry}

/-- A start of a key is no start of a number. -/
theorem continuesNumeral_eq_false (hr : r.LeavesNumerals) {s : Symbol} (hs : s ∈ r.symbols)
    {word : Text} (hword : word.lower <+: s.key) : continuesNumeral word = false := by
  cases word with
  | nil => rfl
  | cons c rest =>
    obtain ⟨t, ht⟩ := hword
    cases hliteral : s.literal with
    | nil => simp [Symbol.key, hliteral] at ht
    | cons d literal =>
      obtain ⟨hdigit, hpoint⟩ := hr s hs d (by simp [hliteral])
      have hcd : c.toLower = d.toLower := by
        simp only [Symbol.key, hliteral, Text.lower_cons, List.cons_append] at ht
        exact (List.cons.inj ht).1
      have hc : c.isDigit = false := by
        rw [← isDigit_toLower, hcd, isDigit_toLower, hdigit]
      have hcpoint : c ≠ '.' := by
        intro hc
        rw [hc] at hcd
        exact hpoint (eq_of_toLower_eq hcd.symm (by decide))
      simp [continuesNumeral, hc, hcpoint]

theorem continuesNumeral_of_isPlain {n : Text} (h : Numeral.isPlain n = true) :
    continuesNumeral n = true := by
  cases n with
  | nil => cases h
  | cons c n =>
    rcases Numeral.isDigit_of_mem_isPlain h List.mem_cons_self with hc | hc
    · simp [continuesNumeral, hc]
    · simp [continuesNumeral, hc]

theorem startingWith_eq_nil (hr : r.LeavesNumerals) {word : Text}
    (h : continuesNumeral word = true) : r.startingWith word.lower = [] := by
  rw [List.eq_nil_iff_forall_not_mem]
  intro s hs
  obtain ⟨hmem, hprefix⟩ := mem_of_mem_startingWith hs
  rw [continuesNumeral_eq_false hr hmem hprefix] at h
  cases h

theorem isPlain_eq_false (hr : r.LeavesNumerals) {word : Text}
    (h : r.startingWith word.lower ≠ []) : Numeral.isPlain word = false := by
  by_contra hplain
  rw [Bool.not_eq_false] at hplain
  exact h (startingWith_eq_nil hr (continuesNumeral_of_isPlain hplain))

theorem mem_startingWith {s : Symbol} (hs : s ∈ r.symbols) {t : Text} (ht : t <+: s.key) :
    s ∈ r.startingWith t :=
  List.mem_filter.2 ⟨hs, List.isPrefixOf_iff_prefix.2 ht⟩

/-- A literal that is no start of another one. -/
theorem startingWith_key_eq_singleton {s : Symbol} (hs : s ∈ r.symbols)
    (h : ∀ t ∈ r.symbols, s.key <+: t.key → s.key = t.key) : r.startingWith s.key = [s] := by
  have hself : s ∈ r.startingWith s.key := mem_startingWith hs List.prefix_rfl
  have hall : ∀ t ∈ r.startingWith s.key, t = s := by
    intro t ht
    obtain ⟨hmem, hprefix⟩ := mem_of_mem_startingWith ht
    exact Registry.eq_of_key_eq hmem hs (h t hmem hprefix).symm
  have hdistinct : (r.startingWith s.key).Pairwise fun t u => t.key ≠ u.key :=
    r.distinct.filter _
  cases hlist : r.startingWith s.key with
  | nil =>
    rw [hlist] at hself
    cases hself
  | cons t rest =>
    rw [hlist] at hall hdistinct
    obtain rfl : t = s := hall t List.mem_cons_self
    cases rest with
    | nil => rfl
    | cons u rest =>
      obtain rfl : u = t := hall u (by simp)
      exact absurd rfl ((List.pairwise_cons.1 hdistinct).1 u List.mem_cons_self)

@[simp] theorem closeWord_nil (r : Registry) (following : Text) :
    closeWord r [] following = [] := rfl

theorem readChar_delimiter {c : Char} (hc : isDelimiter c = true) (p : Pending)
    (following : Text) : readChar r p c following =
      (closeWord r p.text (c :: following) ++ [.ofDelimiter c], .none) := by
  rw [readChar.eq_def, if_pos hc]

theorem readChar_word {c : Char} (hc : isDelimiter c = false) (w following : Text) :
    readChar r (.word w) c following = extendWord r w c following := by
  rw [readChar.eq_def, if_neg (by simp [hc])]

theorem readChar_numeral {c : Char} (hc : isDelimiter c = false) (w following : Text)
    (hasPoint : Bool) :
    readChar r (.numeral w hasPoint) c following = extendNumeral r w hasPoint c following := by
  rw [readChar.eq_def, if_neg (by simp [hc])]

theorem extendWord_nil (r : Registry) (c : Char) (following : Text) :
    extendWord r [] c following = startWord r c following := by
  rw [extendWord, startWord]
  cases extend? r [] c following with
  | none => simp [breakWord]
  | some next => rfl

/-- The end of a text or a delimiter completes the pending characters. -/
theorem tokensFrom_of_endsWord {u : Text} (hu : endsWord u = true) (p : Pending) :
    tokensFrom r p u = closeWord r p.text u ++ tokensFrom r .none u := by
  cases u with
  | nil => simp [tokensFrom]
  | cons c u =>
    have hc : isDelimiter c = true := by simpa [endsWord] using hu
    rw [tokensFrom_cons, tokensFrom_cons, readChar_delimiter hc, readChar_delimiter hc]
    simp

theorem tokensFrom_delimiter {c : Char} (hc : isDelimiter c = true) (u : Text) :
    tokensFrom r .none (c :: u) = .ofDelimiter c :: tokensFrom r .none u := by
  rw [tokensFrom_cons, readChar_delimiter hc]
  simp

/-- A symbol that may stand where it is written. -/
theorem resolve_symbol {s : Symbol} {u : Text} (hcall : s.isCallable = true → startsCall u = true)
    (w : Text) : resolve r s w u = [.symbol s w] := by
  rw [resolve]
  by_cases hc : s.isCallable = true
  · simp [hcall hc]
  · simp [hc]

theorem closeWord_symbol (hr : r.LeavesNumerals) {s : Symbol} (hs : s ∈ r.symbols) {w u : Text}
    (hw : w.lower = s.key) (hcall : s.isCallable = true → startsCall u = true) :
    closeWord r w u = [.symbol s w] := by
  have hne : w ≠ [] := Registry.ne_nil_of_lower hs hw
  have hmem : s ∈ r.startingWith w.lower := mem_startingWith hs (hw ▸ List.prefix_rfl)
  have hplain : Numeral.isPlain w = false := isPlain_eq_false hr (List.ne_nil_of_mem hmem)
  have hget : r.get? w = some s := Registry.get?_eq_some_iff.2 ⟨hs, hw.symm⟩
  rw [closeWord, if_neg hne, hplain]
  simp only [hget]
  exact resolve_symbol hcall w

/-- The rest of the word of a symbol.  It ends at once where no longer symbol starts with it, and
otherwise at what follows it. -/
private theorem tokensFrom_word (hr : r.LeavesNumerals) {s : Symbol} (hs : s ∈ r.symbols)
    {u : Text} (hcall : s.isCallable = true → startsCall u = true)
    (hend : endsWord u = true ∨ r.startingWith s.key = [s]) (rest : Text) :
    ∀ before : Text, (before ++ rest).lower = s.key → Solid (before ++ rest) →
      (rest = [] → r.startingWith s.key ≠ [s]) →
      tokensFrom r (.word before) (rest ++ u) =
        .symbol s (before ++ rest) :: tokensFrom r .none u := by
  induction rest with
  | nil =>
    intro before hkey _ hlonger
    have hu : endsWord u = true := hend.resolve_right (hlonger rfl)
    rw [List.append_nil] at hkey ⊢
    rw [List.nil_append, tokensFrom_of_endsWord hu, Pending.text_word,
      closeWord_symbol hr hs hkey hcall, List.singleton_append]
  | cons c rest ih =>
    intro before hkey hsolid _
    have hc : isDelimiter c = false := hsolid c (by simp)
    have hmem : s ∈ r.startingWith (before ++ [c]).lower := by
      refine mem_startingWith hs ⟨Text.lower rest, ?_⟩
      rw [← hkey]
      simp
    have happend : before ++ [c] ++ rest = before ++ c :: rest := by simp
    -- the word goes on: what is left of it is read from the longer word
    have hgo : extend? r before c (rest ++ u) = some ([], .word (before ++ [c])) →
        (rest = [] → r.startingWith s.key ≠ [s]) →
        tokensFrom r (.word before) (c :: rest ++ u) =
          .symbol s (before ++ c :: rest) :: tokensFrom r .none u := by
      intro hextend hlonger
      have h := ih (before ++ [c]) (by rw [happend]; exact hkey) (by rw [happend]; exact hsolid)
        hlonger
      rw [List.cons_append, tokensFrom_cons, readChar_word hc, extendWord, hextend,
        List.nil_append, h, happend]
    cases hstart : r.startingWith (before ++ [c]).lower with
    | nil =>
      rw [hstart] at hmem
      cases hmem
    | cons t more =>
      cases more with
      | nil =>
        rw [hstart] at hmem
        obtain rfl : s = t := List.mem_singleton.1 hmem
        by_cases hwhole : s.key = (before ++ [c]).lower
        · -- the word is complete, so nothing of it is left
          have hnil : rest = [] := by
            have hlength := congrArg List.length (hkey.trans hwhole)
            simpa using hlength
          subst hnil
          have hresolve := resolve_symbol (r := r) hcall (before ++ [c])
          rw [List.cons_append, List.nil_append, tokensFrom_cons, readChar_word hc, extendWord]
          simp only [extend?, hstart, if_pos hwhole, hresolve, List.singleton_append]
        · refine hgo ?_ ?_
          · simp only [extend?, hstart, if_neg hwhole]
          · rintro rfl
            exact absurd hkey.symm hwhole
      | cons t' more =>
        refine hgo ?_ ?_
        · simp only [extend?, hstart]
        · rintro rfl hsole
          rw [← hkey, hstart] at hsole
          cases hsole

/-- **A symbol is read back** if its literal is no start of another one, or if the word ends with
it. -/
theorem tokensFrom_symbol (hr : r.LeavesNumerals) {s : Symbol} (hs : s ∈ r.symbols) {w u : Text}
    (hw : w.lower = s.key) (hsolid : Solid w) (hcall : s.isCallable = true → startsCall u = true)
    (hend : endsWord u = true ∨ r.startingWith s.key = [s]) :
    tokensFrom r .none (w ++ u) = .symbol s w :: tokensFrom r .none u := by
  have hne : w ≠ [] := Registry.ne_nil_of_lower hs hw
  exact tokensFrom_word hr hs hcall hend w [] hw hsolid fun h => absurd h hne

/-! ## Numbers -/

theorem not_isDelimiter_of_isDigit {c : Char} (hc : c.isDigit = true) :
    isDelimiter c = false := by
  obtain ⟨h1, h2⟩ := (isDigit_iff c).1 hc
  exact isDelimiter_eq_false h1 (by omega)

/-- Digits are added to a number. -/
theorem tokensFrom_digits {ds : Text} (hds : ∀ c ∈ ds, c.isDigit = true) (w u : Text)
    (hasPoint : Bool) : tokensFrom r (.numeral w hasPoint) (ds ++ u) =
      tokensFrom r (.numeral (w ++ ds) hasPoint) u := by
  induction ds generalizing w with
  | nil => rw [List.nil_append, List.append_nil]
  | cons d ds ih =>
    have hd : d.isDigit = true := hds d List.mem_cons_self
    rw [List.cons_append, tokensFrom_cons, readChar_numeral (not_isDelimiter_of_isDigit hd)]
    simp only [extendNumeral, if_pos hd, List.nil_append]
    rw [ih (fun c hc => hds c (List.mem_cons_of_mem _ hc)), List.append_assoc]
    rfl

/-- A point is added to a number that has none. -/
theorem tokensFrom_point (w u : Text) :
    tokensFrom r (.numeral w false) ('.' :: u) = tokensFrom r (.numeral (w ++ ['.']) true) u := by
  have hpoint : isDelimiter '.' = false := by decide
  rw [tokensFrom_cons, readChar_numeral hpoint]
  rfl

/-- A number ends before anything but a digit or a point. -/
theorem tokensFrom_numeral_end {w u : Text} (hw : Numeral.isPlain w = true)
    (hu : continuesNumeral u = false) (hasPoint : Bool) :
    tokensFrom r (.numeral w hasPoint) u = .number w :: tokensFrom r .none u := by
  have hclose : ∀ following, closeWord r w following = [.number w] := by
    intro following
    rw [closeWord, if_neg (Numeral.ne_nil_of_isPlain hw), if_pos hw]
  by_cases hend : endsWord u = true
  · rw [tokensFrom_of_endsWord hend, Pending.text_numeral, hclose]
    rfl
  · cases u with
    | nil => exact absurd rfl hend
    | cons c u =>
      have hc : isDelimiter c = false := by simpa [endsWord] using hend
      have hdigit : ¬ c.isDigit = true := by
        intro h
        simp [continuesNumeral, h] at hu
      have hpoint : ¬ c = '.' := by
        intro h
        simp [continuesNumeral, h] at hu
      have hnone : readChar r .none c u = startWord r c u := by
        rw [Pending.none, readChar_word hc, extendWord_nil]
      rw [tokensFrom_cons, tokensFrom_cons, hnone, readChar_numeral hc]
      simp only [extendNumeral, if_neg hdigit, if_neg hpoint, hclose]
      rfl

/-- A digit, or a point before a digit, starts a number. -/
theorem tokensFrom_start (hr : r.LeavesNumerals) {c : Char} {u : Text}
    (hc : c.isDigit = true ∨ c = '.' ∧ u.head?.any Char.isDigit = true) :
    tokensFrom r .none (c :: u) = tokensFrom r (.numeral [c] (c = '.')) u := by
  have hcontinues : continuesNumeral [c] = true := by
    rcases hc with hc | ⟨hc, -⟩
    · simp [continuesNumeral, hc]
    · simp [continuesNumeral, hc]
  have hstarts : startsNumeral [c] u = true := by
    rcases hc with hc | ⟨rfl, hu⟩
    · have hplain : Numeral.isPlain [c] = true := by
        refine Numeral.isPlain_iff.2 ⟨[c], [], ?_, rfl, .inl ⟨rfl, by simp⟩⟩
        simpa [Numeral.allDigits_iff] using hc
      simp [startsNumeral, hplain]
    · simp [startsNumeral, hu]
  have hsolid : isDelimiter c = false := by
    rcases hc with hc | ⟨rfl, -⟩
    · exact not_isDelimiter_of_isDigit hc
    · decide
  have hextend : extend? r [] c u = some ([], .numeral [c] (c = '.')) := by
    rw [extend?]
    simp only [List.nil_append, startingWith_eq_nil hr hcontinues, if_pos hstarts]
  rw [tokensFrom_cons, Pending.none, readChar_word hsolid, extendWord, hextend]
  rfl

/-- The characters of a number become pending. -/
theorem tokensFrom_isPlain (hr : r.LeavesNumerals) {n : Text} (hn : Numeral.isPlain n = true)
    (u : Text) :
    tokensFrom r .none (n ++ u) = tokensFrom r (.numeral n (decide ('.' ∈ n))) u := by
  obtain ⟨ds, fs, hds, hfs, hshape⟩ := Numeral.isPlain_iff.1 hn
  rw [Numeral.allDigits_iff] at hds hfs
  cases ds with
  | nil =>
    obtain ⟨rfl, hne⟩ : n = '.' :: fs ∧ fs ≠ [] := by simpa using hshape
    obtain ⟨f, fs, rfl⟩ := List.exists_cons_of_ne_nil hne
    have hhead : (f :: fs ++ u).head?.any Char.isDigit = true := by
      simpa using hfs f List.mem_cons_self
    rw [List.cons_append, tokensFrom_start hr (.inr ⟨rfl, hhead⟩), tokensFrom_digits hfs]
    simp
  | cons d ds =>
    have hd : d.isDigit = true := hds d List.mem_cons_self
    have hnone : ∀ c : Char, c.isDigit = true → c ≠ '.' := by
      rintro c hc rfl
      cases hc
    have hpoint : decide (d = '.') = false := decide_eq_false (hnone d hd)
    have hrest : ∀ c ∈ ds, c.isDigit = true := fun c hc => hds c (List.mem_cons_of_mem _ hc)
    rcases hshape with ⟨rfl, -⟩ | ⟨rfl, -⟩
    · have hnot : decide ('.' ∈ d :: ds) = false :=
        decide_eq_false fun hmem => hnone _ (hds _ hmem) rfl
      rw [List.cons_append, tokensFrom_start hr (.inl hd), hpoint, tokensFrom_digits hrest, hnot]
      rfl
    · rw [List.append_assoc, List.cons_append, List.cons_append, tokensFrom_start hr (.inl hd),
        hpoint, tokensFrom_digits hrest, tokensFrom_point, tokensFrom_digits hfs]
      simp

/-- **A number is read back** if no digit and no point follows it. -/
theorem tokensFrom_number (hr : r.LeavesNumerals) {n u : Text} (hn : Numeral.isPlain n = true)
    (hu : continuesNumeral u = false) :
    tokensFrom r .none (n ++ u) = .number n :: tokensFrom r .none u := by
  rw [tokensFrom_isPlain hr hn, tokensFrom_numeral_end hn hu]

/-- A delimiter ends a number. -/
theorem continuesNumeral_of_isDelimiter {c : Char} (hc : isDelimiter c = true) (u : Text) :
    continuesNumeral (c :: u) = false := by
  have hdigit : c.isDigit = false := by
    by_contra h
    rw [not_isDelimiter_of_isDigit (by simpa using h)] at hc
    cases hc
  have hpoint : c ≠ '.' := by
    rintro rfl
    cases hc
  simp [continuesNumeral, hdigit, hpoint]

/-! ## Lists of tokens -/

/-- A token that can be told from the text after it. -/
def Token.Stands (r : Registry) (following : Text) : Token → Prop
  | blank c => isBlank c = true
  | opening | closing | comma => True
  | number n => Numeral.isPlain n = true ∧ continuesNumeral following = false
  | symbol s w => s ∈ r.symbols ∧ w.lower = s.key ∧ Solid w ∧
      (s.isCallable = true → startsCall following = true) ∧
      (endsWord following = true ∨ r.startingWith s.key = [s])
  | unknown _ | repeatedPoint | uncalled _ => False

theorem ofDelimiter_of_isBlank {c : Char} (hc : isBlank c = true) :
    Token.ofDelimiter c = .blank c := by
  have hne : ∀ d : Char, isBlank d = false → c ≠ d := by
    rintro d hd rfl
    rw [hc] at hd
    cases hd
  rw [Token.ofDelimiter, if_neg (hne _ (by decide)), if_neg (hne _ (by decide)),
    if_neg (hne _ (by decide))]

/-- **A token that can be told from what follows it is read back.** -/
theorem tokensFrom_of_stands (hr : r.LeavesNumerals) {tok : Token} {u : Text}
    (htok : tok.Stands r u) :
    tokensFrom r .none (tok.text ++ u) = tok :: tokensFrom r .none u := by
  cases tok with
  | blank c =>
    have hc : isDelimiter c = true := isDelimiter_of_isBlank htok
    rw [Token.text, List.singleton_append, tokensFrom_delimiter hc, ofDelimiter_of_isBlank htok]
  | opening | closing | comma =>
    rw [Token.text, List.singleton_append, tokensFrom_delimiter (by decide)]
    rfl
  | number n => exact tokensFrom_number hr htok.1 htok.2
  | symbol s w =>
    obtain ⟨hs, hw, hsolid, hcall, hend⟩ := htok
    exact tokensFrom_symbol hr hs hw hsolid hcall hend
  | unknown | repeatedPoint | uncalled => exact htok.elim

/-- Tokens that can be told from what follows them are read back. -/
theorem tokens_flatMap_text (hr : r.LeavesNumerals) {ts : List Token}
    (hts : InContext (Token.Stands r) [] ts) : tokens r (ts.flatMap Token.text) = ts := by
  rw [tokens]
  induction ts with
  | nil => rfl
  | cons tok ts ih =>
    obtain ⟨htok, hrest⟩ := hts
    rw [List.append_nil] at htok
    rw [List.flatMap_cons, tokensFrom_of_stands hr htok, ih hrest]

end Formula

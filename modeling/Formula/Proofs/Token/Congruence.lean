import Formula.Proofs.Registry.Standard
import Formula.Proofs.Token.Separation

/-!
# What a word depends on

A word is read with the symbols of a registry and with a look at the text after it.  Little of
either matters.

A registry is asked three questions.  Whether a symbol has a given literal is about a single symbol.
Whether none, one or several symbols start with a word does not depend on their order.  The longest
symbol that starts a word is the only one of its length, since the word spells its literal, so no
choice is left to the order either.  Only symbols whose first character occurs in the text are
answers.

The text after a word is looked at twice: a function name waits for an opening parenthesis, and a
point for a digit.
-/

namespace Formula

/-- The first character of the literal occurs in a text, in either letter case. -/
def Symbol.BeginsIn (text : Text) (s : Symbol) : Prop :=
  ∃ c ∈ s.literal.head?, ∃ d ∈ text, c.toLower = d.toLower

/-- Two registries have the same symbols among those that may begin in a text. -/
def Registry.AgreeOn (r r' : Registry) (text : Text) : Prop :=
  ∀ s : Symbol, s.BeginsIn text → (s ∈ r.symbols ↔ s ∈ r'.symbols)

/-- Two texts that a word before them does not tell apart: both continue with an opening
parenthesis or none does, and both start with a digit or none does. -/
structure Lookahead (u v : Text) : Prop where
  /-- A function name before them is called or not. -/
  calls : startsCall u = startsCall v
  /-- A point before them is part of a number or not. -/
  digit : u.head?.any Char.isDigit = v.head?.any Char.isDigit

theorem Lookahead.refl (u : Text) : Lookahead u u := ⟨rfl, rfl⟩

theorem startsCall_cons (c : Char) (u : Text) :
    startsCall (c :: u) = if isBlank c then startsCall u else c == '(' := by
  rw [startsCall, List.dropWhile_cons]
  split
  · rfl
  · rw [List.head?_cons, Option.some_beq_some]

/-- One character more in front. -/
theorem Lookahead.cons {u v : Text} (h : Lookahead u v) (c : Char) :
    Lookahead (c :: u) (c :: v) where
  calls := by rw [startsCall_cons, startsCall_cons, h.calls]
  digit := rfl

theorem Lookahead.append {u v : Text} (h : Lookahead u v) (w : Text) :
    Lookahead (w ++ u) (w ++ v) := by
  induction w with
  | nil => exact h
  | cons c w ih => exact ih.cons c

/-- A character that is neither blank nor a digit nor an opening parenthesis, after a text. -/
theorem lookahead_append_cons {c : Char} (hblank : isBlank c = false) (hdigit : c.isDigit = false)
    (hopening : c ≠ '(') (s rest : Text) : Lookahead (s ++ c :: rest) s := by
  have hend : Lookahead (c :: rest) [] := by
    constructor
    · rw [startsCall_cons, hblank]
      simpa [startsCall] using hopening
    · simpa using hdigit
  simpa using hend.append s

/-- A symbol begins in a text if its key and a word of the text start with the same character. -/
theorem beginsIn_of_starts {text word t : Text} {s : Symbol} (hword : word ⊆ text) (hne : t ≠ [])
    (hkey : t <+: s.key) (ht : t <+: word.lower) : s.BeginsIn text := by
  obtain ⟨c, t, rfl⟩ := List.exists_cons_of_ne_nil hne
  obtain ⟨u, hu⟩ := hkey
  obtain ⟨v, hv⟩ := ht
  cases hliteral : s.literal with
  | nil => simp [Symbol.key, hliteral] at hu
  | cons a literal =>
    cases word with
    | nil => cases hv
    | cons d word =>
      simp only [Symbol.key, hliteral, Text.lower_cons, List.cons_append, List.cons.injEq] at hu hv
      have hcase : a.toLower = d.toLower := hu.1.symm.trans hv.1
      exact ⟨a, by simp [hliteral], d, hword List.mem_cons_self, hcase⟩

variable {r r' : Registry} {text u v : Text}

theorem Registry.AgreeOn.refl (r : Registry) (text : Text) : r.AgreeOn r text :=
  fun _ _ => Iff.rfl

/-- Looking up a word of the text. -/
theorem get?_congr_of_agreeOn (h : r.AgreeOn r' text) {word : Text} (hword : word ⊆ text)
    (hne : word ≠ []) : r.get? word = r'.get? word := by
  have hlower : word.lower ≠ [] := by simpa [Text.lower] using hne
  apply Option.ext
  intro s
  rw [Registry.get?_eq_some_iff, Registry.get?_eq_some_iff]
  apply and_congr_left
  intro hkey
  exact h s (beginsIn_of_starts hword hlower (hkey ▸ List.prefix_rfl) List.prefix_rfl)

/-- The symbols that start with a word of the text, up to their order. -/
theorem startingWith_perm (h : r.AgreeOn r' text) {word : Text} (hword : word ⊆ text)
    (hne : word ≠ []) : (r.startingWith word.lower).Perm (r'.startingWith word.lower) := by
  have hlower : word.lower ≠ [] := by simpa [Text.lower] using hne
  have hnodup : ∀ r : Registry, (r.startingWith word.lower).Nodup := by
    intro r
    apply (r.distinct.filter _).imp
    intro s t hkey heq
    exact hkey (congrArg Symbol.key heq)
  rw [List.perm_ext_iff_of_nodup (hnodup r) (hnodup r')]
  intro s
  rw [Registry.startingWith, Registry.startingWith, List.mem_filter, List.mem_filter]
  apply and_congr_left
  intro hstart
  exact h s (beginsIn_of_starts hword hlower (List.isPrefixOf_iff_prefix.1 hstart) List.prefix_rfl)

/-- **The longest symbol that starts a word** is the one that no other one exceeds in length: symbols
of one length that start the same word have the same key. -/
theorem longest?_eq_some_iff {budget : Nat} {word following : Text} {s : Symbol} :
    r.longest? budget word following = some s ↔
      s ∈ r.symbols ∧ s.startsWord budget word following = true ∧
        ∀ t ∈ r.symbols, t.startsWord budget word following = true →
          t.key.length ≤ s.key.length := by
  have hstart : ∀ t : Symbol, t.startsWord budget word following = true → t.key <+: word.lower := by
    intro t ht
    simp only [Symbol.startsWord, Bool.and_eq_true, List.isPrefixOf_iff_prefix] at ht
    exact ht.1.2
  have hlast : ∀ s, r.longest? budget word following = some s → ∀ t ∈ r.symbols,
      t.startsWord budget word following = true → t.key.length ≤ s.key.length := by
    intro s hs t ht hstarts
    obtain ⟨before, hbefore⟩ := List.getLast?_eq_some_iff.1 hs
    have hsorted := r.sorted.filter (·.startsWord budget word following)
    rw [hbefore, List.pairwise_append] at hsorted
    have hmem : t ∈ before ++ [s] := hbefore ▸ List.mem_filter.2 ⟨ht, hstarts⟩
    rcases List.mem_append.1 hmem with hmem | hmem
    · exact hsorted.2.2 t hmem s List.mem_cons_self
    · exact Nat.le_of_eq (by rw [List.mem_singleton.1 hmem])
  constructor
  · intro hs
    obtain ⟨hmem, hstarts⟩ := Registry.startsWord_of_longest? hs
    exact ⟨hmem, hstarts, hlast s hs⟩
  · rintro ⟨hmem, hstarts, hlongest⟩
    cases hfound : r.longest? budget word following with
    | none =>
      have hnil := List.getLast?_eq_none_iff.1 hfound
      exact absurd (hnil ▸ List.mem_filter.2 ⟨hmem, hstarts⟩) List.not_mem_nil
    | some u =>
      obtain ⟨humem, hustarts⟩ := Registry.startsWord_of_longest? hfound
      have hlength : u.key.length = s.key.length :=
        Nat.le_antisymm (hlongest u humem hustarts) (hlast u hfound s hmem hstarts)
      have hkey : u.key = s.key :=
        (List.prefix_of_prefix_length_le (hstart u hustarts) (hstart s hstarts)
          (Nat.le_of_eq hlength)).eq_of_length hlength
      rw [Registry.eq_of_key_eq humem hmem hkey]

theorem startsWord_congr (h : Lookahead u v) (s : Symbol) (budget : Nat) (word : Text) :
    s.startsWord budget word u = s.startsWord budget word v := by
  rw [Symbol.startsWord, Symbol.startsWord, (h.append _).calls]

/-- The longest symbol that starts a word of the text. -/
theorem longest?_congr (h : r.AgreeOn r' text) (hu : Lookahead u v) {word : Text}
    (hword : word ⊆ text) (budget : Nat) : r.longest? budget word u = r'.longest? budget word v := by
  have hbegins : ∀ {r : Registry} {s : Symbol}, s ∈ r.symbols →
      s.startsWord budget word v = true → s.BeginsIn text := by
    intro r s hs hstarts
    simp only [Symbol.startsWord, Bool.and_eq_true, List.isPrefixOf_iff_prefix] at hstarts
    exact beginsIn_of_starts hword (Registry.key_ne_nil hs) List.prefix_rfl hstarts.1.2
  apply Option.ext
  intro s
  simp only [longest?_eq_some_iff, startsWord_congr hu]
  constructor
  · rintro ⟨hs, hstarts, hlongest⟩
    refine ⟨(h s (hbegins hs hstarts)).1 hs, hstarts, ?_⟩
    intro t ht htstarts
    exact hlongest t ((h t (hbegins ht htstarts)).2 ht) htstarts
  · rintro ⟨hs, hstarts, hlongest⟩
    refine ⟨(h s (hbegins hs hstarts)).2 hs, hstarts, ?_⟩
    intro t ht htstarts
    exact hlongest t ((h t (hbegins ht htstarts)).1 ht) htstarts

theorem pieces_congr (h : r.AgreeOn r' text) (hu : Lookahead u v) (budget : Nat) {word : Text}
    (hword : word ⊆ text) : pieces r u budget word = pieces r' v budget word := by
  fun_induction pieces r u budget word with
  | case1 => rw [pieces]
  | case2 budget c rest s hs left ih =>
    have hleft : left ⊆ text := fun d hd => hword (List.mem_cons_of_mem _ (List.mem_of_mem_drop hd))
    rw [pieces, ← longest?_congr h hu hword, hs, ih hleft]
  | case3 budget c rest hs ih =>
    have hrest : rest ⊆ text := fun d hd => hword (List.mem_cons_of_mem _ hd)
    rw [pieces, ← longest?_congr h hu hword, hs, ih hrest]

theorem resolve_congr (h : r.AgreeOn r' text) (hu : Lookahead u v) (s : Symbol) {word : Text}
    (hword : word ⊆ text) : resolve r s word u = resolve r' s word v := by
  rw [resolve, resolve, decompose, decompose, pieces_congr h hu _ hword, hu.calls]

theorem closeWord_congr (h : r.AgreeOn r' text) (hu : Lookahead u v) {word : Text}
    (hword : word ⊆ text) : closeWord r word u = closeWord r' word v := by
  rw [closeWord, closeWord]
  split
  · rfl
  · rename_i hne
    rw [get?_congr_of_agreeOn h hword hne, decompose, decompose, pieces_congr h hu _ hword]
    simp only [resolve_congr h hu _ hword]

theorem breakWord_congr (h : r.AgreeOn r' text) (hu : Lookahead u v) {word : Text}
    (hword : word ⊆ text) : breakWord r word u = breakWord r' word v := by
  rw [breakWord, breakWord]
  split
  · rfl
  · rename_i hne
    rw [get?_congr_of_agreeOn h hword hne, decompose, decompose, pieces_congr h hu _ hword]
    simp only [resolve_congr h hu _ hword]

theorem startsNumeral_congr (hu : Lookahead u v) (word : Text) :
    startsNumeral word u = startsNumeral word v := by
  rw [startsNumeral, startsNumeral, hu.digit]

/-- Whether a word goes on depends on how many symbols start with it, and on which if there is only
one. -/
theorem extend?_congr (h : r.AgreeOn r' text) (hu : Lookahead u v) {word : Text} {c : Char}
    (hword : word ++ [c] ⊆ text) : extend? r word c u = extend? r' word c v := by
  have hperm := startingWith_perm h hword (by simp)
  rw [extend?, extend?]
  cases hstart : r.startingWith (word ++ [c]).lower with
  | nil =>
    rw [hstart, List.nil_perm] at hperm
    simp only [hperm, startsNumeral_congr hu]
  | cons s more =>
    cases more with
    | nil =>
      rw [hstart, List.singleton_perm] at hperm
      simp only [← hperm, resolve_congr h hu s hword]
    | cons t more =>
      rw [hstart] at hperm
      generalize r'.startingWith (word ++ [c]).lower = symbols at hperm ⊢
      cases symbols with
      | nil => simpa using hperm.length_eq
      | cons s' more' =>
        cases more' with
        | nil => simpa using hperm.length_eq
        | cons t' more' => rfl

theorem startWord_congr (h : r.AgreeOn r' text) (hu : Lookahead u v) {c : Char} (hc : c ∈ text) :
    startWord r c u = startWord r' c v := by
  have hword : [] ++ [c] ⊆ text := by simpa using hc
  rw [startWord, startWord, extend?_congr h hu hword]

theorem readChar_congr (h : r.AgreeOn r' text) (hu : Lookahead u v) {p : Pending}
    (hp : p.text ⊆ text) {c : Char} (hc : c ∈ text) : readChar r p c u = readChar r' p c v := by
  simp only [readChar, closeWord_congr h (hu.cons c) hp]
  split
  · rfl
  · cases p with
    | word w =>
      have hw : w ⊆ text := hp
      have hword : w ++ [c] ⊆ text := List.append_subset.2 ⟨hw, by simpa using hc⟩
      simp only [extendWord, extend?_congr h hu hword, startWord_congr h hu hc,
        breakWord_congr h (hu.cons c) hw]
    | numeral w hasPoint =>
      have hw : w ⊆ text := hp
      simp only [extendNumeral, startWord_congr h hu hc, closeWord_congr h (hu.cons c) hw]

end Formula

import Formula.Proofs.Characters
import Formula.Token.Lexer

/-!
# Tokens and the text after them

What a token is can depend on the text after it: a function name is one only before an opening
parenthesis.  `InContext P after ts` says that every token of `ts` has the property `P` with regard
to the text that follows it, which is the text of the later tokens and then `after`.

A property that holds of whatever single characters and words are read as (`Registry.Reads`) holds of
all tokens of a text.
-/

namespace Formula

/-- Every token of a list has the property `P` with regard to the text after it; `after` is the text
after the list. -/
def InContext (P : Text → Token → Prop) (after : Text) : List Token → Prop
  | [] => True
  | tok :: ts => P (ts.flatMap Token.text ++ after) tok ∧ InContext P after ts

variable {P : Text → Token → Prop} {r : Registry}

@[simp] theorem inContext_nil (after : Text) : InContext P after [] := trivial

@[simp] theorem inContext_cons {after : Text} {tok : Token} {ts : List Token} :
    InContext P after (tok :: ts) ↔
      P (ts.flatMap Token.text ++ after) tok ∧ InContext P after ts := Iff.rfl

theorem inContext_append {after : Text} {ss ts : List Token} :
    InContext P after (ss ++ ts) ↔
      InContext P (ts.flatMap Token.text ++ after) ss ∧ InContext P after ts := by
  induction ss with
  | nil => simp
  | cons tok ss ih => simp [ih, and_assoc]

/-- A property that does not look at the text after a token. -/
theorem inContext_of_forall {after : Text} {ts : List Token}
    (h : ∀ following, ∀ tok ∈ ts, P following tok) : InContext P after ts := by
  induction ts with
  | nil => trivial
  | cons tok ts ih =>
    exact ⟨h _ tok List.mem_cons_self, ih fun f t ht => h f t (List.mem_cons_of_mem _ ht)⟩

theorem InContext.imp {Q : Text → Token → Prop} {after : Text} {ts : List Token}
    (h : InContext P after ts) (hpq : ∀ following tok, P following tok → Q following tok) :
    InContext Q after ts := by
  induction ts with
  | nil => trivial
  | cons t ts ih => exact ⟨hpq _ t h.1, ih h.2⟩

theorem InContext.and {Q : Text → Token → Prop} {after : Text} {ts : List Token}
    (h : InContext P after ts) (h' : InContext Q after ts) :
    InContext (fun following tok => P following tok ∧ Q following tok) after ts := by
  induction ts with
  | nil => trivial
  | cons t ts ih => exact ⟨⟨h.1, h'.1⟩, ih h.2 h'.2⟩

theorem InContext.exists_of_mem {after : Text} {ts : List Token} (h : InContext P after ts)
    {tok : Token} (ht : tok ∈ ts) : ∃ following, P following tok := by
  induction ts with
  | nil => cases ht
  | cons t ts ih =>
    rcases List.mem_cons.1 ht with rfl | ht
    · exact ⟨_, h.1⟩
    · exact ih h.2 ht

/-- A property that tokens have whatever they are read from: single characters, numbers, words that
spell a symbol, and words that are taken apart. -/
structure Registry.Reads (r : Registry) (P : Text → Token → Prop) : Prop where
  /-- A delimiter. -/
  delimiter : ∀ c following, isDelimiter c = true → P following (.ofDelimiter c)
  /-- A number. -/
  number : ∀ n following, Numeral.isPlain n = true → P following (.number n)
  /-- A second point. -/
  point : ∀ following, P following .repeatedPoint
  /-- A character at which nothing starts. -/
  unknown : ∀ c following, isDelimiter c = false → P following (.unknown c)
  /-- A word that spells a symbol. -/
  resolve : ∀ s ∈ r.symbols, ∀ w following, w.lower = s.key → Solid w →
    InContext P following (resolve r s w following)
  /-- A word that spells nothing. -/
  decompose : ∀ w following, Solid w → InContext P following (decompose r following w)

theorem mem_of_mem_startingWith {t : Text} {s : Symbol} (h : s ∈ r.startingWith t) :
    s ∈ r.symbols ∧ t <+: s.key := by
  obtain ⟨hs, hp⟩ := List.mem_filter.1 h
  exact ⟨hs, List.isPrefixOf_iff_prefix.1 hp⟩

/-- Tokens that end before a character are followed by it, which is the text of what it starts. -/
theorem InContext.append_startWord {c : Char} {following : Text} {ts : List Token}
    (hts : InContext P (c :: following) ts)
    (hstart : InContext P ((startWord r c following).2.text ++ following)
      (startWord r c following).1) :
    InContext P ((startWord r c following).2.text ++ following)
      (ts ++ (startWord r c following).1) := by
  refine inContext_append.2 ⟨?_, hstart⟩
  rwa [← List.append_assoc, text_startWord]

namespace Registry.Reads

variable (h : r.Reads P)

include h

theorem closeWord {word : Text} (hw : Solid word) (following : Text) :
    InContext P following (closeWord r word following) := by
  simp only [Formula.closeWord]
  repeat' split
  · trivial
  · rename_i hplain
    exact ⟨h.number _ _ hplain, trivial⟩
  · rename_i s hs
    obtain ⟨hmem, hkey⟩ := Registry.get?_eq_some_iff.1 hs
    exact h.resolve s hmem _ _ hkey.symm hw
  · exact h.decompose _ _ hw

theorem breakWord {word : Text} (hw : Solid word) (following : Text) :
    InContext P following (breakWord r word following) := by
  simp only [Formula.breakWord]
  repeat' split
  · trivial
  · rename_i s hs
    obtain ⟨hmem, hkey⟩ := Registry.get?_eq_some_iff.1 hs
    exact h.resolve s hmem _ _ hkey.symm hw
  · rename_i hplain
    exact ⟨h.number _ _ hplain, trivial⟩
  · exact h.decompose _ _ hw

theorem extend? {word following : Text} {c : Char} (hw : Solid (word ++ [c]))
    {ts : List Token} {p : Pending} (hextend : extend? r word c following = some (ts, p)) :
    InContext P (p.text ++ following) ts ∧ Solid p.text := by
  rcases extend?_cases hextend with ⟨s, hs, hkey, rfl, rfl⟩ | ⟨-, rfl, rfl⟩ | ⟨-, rfl, rfl⟩
  · exact ⟨h.resolve s hs _ _ hkey.symm hw, by simp [Solid]⟩
  · exact ⟨trivial, hw⟩
  · exact ⟨trivial, hw⟩

theorem startWord {c : Char} (hc : isDelimiter c = false) (following : Text) :
    InContext P ((startWord r c following).2.text ++ following) (startWord r c following).1 ∧
      Solid (startWord r c following).2.text := by
  simp only [Formula.startWord]
  cases hextend : Formula.extend? r [] c following with
  | none => exact ⟨⟨h.unknown _ _ hc, trivial⟩, by simp [Solid]⟩
  | some next => exact h.extend? (by simpa [Solid] using hc) hextend

/-- What a character completes has the property, and the pending characters stay free of
delimiters. -/
theorem readChar {p : Pending} (hp : Solid p.text) (c : Char) (following : Text) :
    InContext P ((readChar r p c following).2.text ++ following) (readChar r p c following).1 ∧
      Solid (readChar r p c following).2.text := by
  have hstart : ∀ ts : List Token, InContext P (c :: following) ts → isDelimiter c = false →
      InContext P ((Formula.startWord r c following).2.text ++ following)
        (ts ++ (Formula.startWord r c following).1) ∧
          Solid (Formula.startWord r c following).2.text := by
    intro ts hts hc
    obtain ⟨hfits, hsolid⟩ := h.startWord hc following
    exact ⟨hts.append_startWord hfits, hsolid⟩
  simp only [Formula.readChar]
  split
  · rename_i hc
    exact ⟨inContext_append.2 ⟨by simpa using h.closeWord hp _, h.delimiter _ _ hc, trivial⟩,
      by simp [Solid]⟩
  · rename_i hc
    have hc : isDelimiter c = false := by simpa using hc
    cases p with
    | word w =>
      simp only [extendWord]
      split
      · rename_i next hextend
        exact h.extend? (hp.append (by simpa [Solid] using hc)) hextend
      · exact hstart _ (h.breakWord hp _) hc
    | numeral w hasPoint =>
      simp only [extendNumeral]
      repeat' split
      · exact ⟨trivial, hp.append (by simpa [Solid] using hc)⟩
      · rename_i hpoint _
        subst hpoint
        exact ⟨inContext_append.2 ⟨h.closeWord hp _, h.point _, trivial⟩, by simp [Solid]⟩
      · exact ⟨trivial, hp.append (by simpa [Solid] using hc)⟩
      · exact hstart _ (h.closeWord hp _) hc

theorem tokensFrom {p : Pending} (hp : Solid p.text) (t : Text) :
    InContext P [] (tokensFrom r p t) := by
  induction t generalizing p with
  | nil => exact h.closeWord hp []
  | cons c following ih =>
    obtain ⟨hchar, hsolid⟩ := h.readChar hp c following
    rw [tokensFrom_cons]
    refine inContext_append.2 ⟨?_, ih hsolid⟩
    rwa [text_tokensFrom, List.append_nil]

/-- **Every token of a text has the property** in its place. -/
theorem tokens (t : Text) : InContext P [] (tokens r t) :=
  h.tokensFrom (by simp [Solid]) t

end Registry.Reads

/-- What is known of a token of a formula, if `following` is the text after it. -/
def Token.Fits (r : Registry) (following : Text) : Token → Prop
  | blank c => isBlank c = true
  | number t => Numeral.isPlain t = true
  | symbol s t => s ∈ r.symbols ∧ t.lower = s.key ∧ Solid t ∧
      (s.isCallable = true → startsCall following = true)
  | unknown c => isDelimiter c = false
  | _ => True

/-- A parenthesis or a comma is in no token but its own. -/
theorem Token.Fits.eq_ofDelimiter {tok : Token} {following : Text} (h : tok.Fits r following)
    {c : Char} (hmem : c ∈ tok.text) (hc : isDelimiter c = true) (hblank : isBlank c = false) :
    tok = .ofDelimiter c := by
  have hsolid : ∀ {t : Text}, Solid t → c ∉ t := by
    intro t ht hct
    rw [ht c hct] at hc
    cases hc
  cases tok with
  | blank d =>
    obtain rfl := List.mem_singleton.1 hmem
    have hd : isBlank c = true := h
    rw [hblank] at hd
    cases hd
  | opening | closing | comma =>
    obtain rfl := List.mem_singleton.1 hmem
    rfl
  | number n => exact absurd hmem (hsolid (Numeral.solid_of_isPlain h))
  | symbol s w => exact absurd hmem (hsolid h.2.2.1)
  | unknown d =>
    obtain rfl := List.mem_singleton.1 hmem
    rw [show isDelimiter c = false from h] at hc
    cases hc
  | repeatedPoint =>
    obtain rfl := List.mem_singleton.1 hmem
    cases hc
  | uncalled name => cases hmem

/-! ## Words -/

/-- A text that starts with the key of a symbol spells the symbol first. -/
theorem lower_take_of_startsWord {s : Symbol} {budget : Nat} {word following : Text}
    (h : s.startsWord budget word following = true) :
    Text.lower (word.take s.literal.length) = s.key := by
  simp only [Symbol.startsWord, Bool.and_eq_true, List.isPrefixOf_iff_prefix] at h
  obtain ⟨t, ht⟩ := h.1.2
  rw [Text.lower, List.map_take]
  change word.lower.take s.literal.length = s.key
  rw [← ht, ← Symbol.length_key, List.take_left]

theorem startsCall_of_startsWord {s : Symbol} {budget : Nat} {word following : Text}
    (h : s.startsWord budget word following = true) (hs : s.isCallable = true) :
    startsCall (word.drop s.literal.length ++ following) = true := by
  simp only [Symbol.startsWord, Bool.and_eq_true, hs, Bool.not_true, Bool.false_or] at h
  exact h.2

theorem fits_pieces (following : Text) (budget : Nat) {word : Text} (hw : Solid word) :
    InContext (Token.Fits r) following (pieces r following budget word) := by
  fun_induction pieces with
  | case1 => trivial
  | case2 budget c rest s hs left ih =>
    obtain ⟨hmem, hstart⟩ := Registry.startsWord_of_longest? hs
    have hne : s.literal ≠ [] := Symbol.literal_ne_nil (r.sound s hmem)
    obtain ⟨n, hn⟩ : ∃ n, s.literal.length = n + 1 :=
      Nat.exists_eq_succ_of_ne_zero (by simpa using hne)
    have hleft : left = (c :: rest).drop s.literal.length := by simp [left, hn]
    have hsolid : Solid left := by
      intro d hd
      rw [hleft] at hd
      exact hw d (List.mem_of_mem_drop hd)
    refine ⟨⟨hmem, lower_take_of_startsWord hstart, ?_, ?_⟩, ih hsolid⟩
    · intro d hd
      exact hw d (List.mem_of_mem_take hd)
    · intro hcall
      rw [text_pieces, hleft]
      exact startsCall_of_startsWord hstart hcall
  | case3 budget c rest _ ih =>
    exact ⟨hw c List.mem_cons_self, ih fun d hd => hw d (List.mem_cons_of_mem _ hd)⟩

theorem fits_resolve {s : Symbol} {word : Text} (hs : s ∈ r.symbols) (hk : word.lower = s.key)
    (hw : Solid word) (following : Text) :
    InContext (Token.Fits r) following (resolve r s word following) := by
  simp only [resolve]
  split
  · exact ⟨trivial, fits_pieces _ _ hw⟩
  · rename_i hcall
    refine ⟨⟨hs, hk, hw, ?_⟩, trivial⟩
    intro hc
    simpa [hc] using hcall

/-! ## Whole texts -/

theorem reads_fits (r : Registry) : r.Reads (Token.Fits r) where
  delimiter c following hc := by
    simp only [Token.ofDelimiter]
    repeat' split
    · trivial
    · trivial
    · trivial
    · simp_all [isDelimiter, Token.Fits]
  number _ _ hplain := hplain
  point _ := trivial
  unknown _ _ hc := hc
  resolve _ hs _ _ hk hw := fits_resolve hs hk hw _
  decompose _ _ hw := fits_pieces _ _ hw

/-- **Every token of a formula fits in its place.** -/
theorem fits_tokens (r : Registry) (t : Text) : InContext (Token.Fits r) [] (tokens r t) :=
  (reads_fits r).tokens t

end Formula

import Formula.Token.Basic

/-!
# Words and their pieces

A word is a run of characters without a delimiter.  It is read as a number, as a symbol, or, if it
is neither, from left to right as the longest symbols that it starts with; a character at which no
symbol starts is unknown.

A function name counts only where an opening parenthesis follows, after blanks at most.  Where none
does, the name is taken apart like any other word, and a hint says that it might have been meant as
a call.

## Main definitions

* `Registry.longest?` — the longest symbol that a text starts with.
* `pieces` — a word as longest symbols and unknown characters.
* `resolve` — the tokens of a word that spells a symbol.
* `closeWord` — the tokens of a word before a delimiter.
* `breakWord` — the tokens of a word before a character that cannot extend it.
* `text_pieces` and its kin — no character of the word is lost or read twice.
-/

namespace Formula

/-- Whether a symbol is the start of `word` with at most `budget` characters.  A function must also
be called, where `following` is what comes after the word. -/
def Symbol.startsWord (s : Symbol) (budget : Nat) (word following : Text) : Bool :=
  s.literal.length ≤ budget && s.key.isPrefixOf word.lower &&
    (!s.isCallable || startsCall (word.drop s.literal.length ++ following))

/-- The longest symbol that starts a word.  The symbols of a registry are sorted by length, so it is
the last one. -/
def Registry.longest? (r : Registry) (budget : Nat) (word following : Text) : Option Symbol :=
  (r.symbols.filter (·.startsWord budget word following)).getLast?

/-- A symbol that is found is registered and starts the word. -/
theorem Registry.startsWord_of_longest? {r : Registry} {budget : Nat} {word following : Text}
    {s : Symbol} (h : r.longest? budget word following = some s) :
    s ∈ r.symbols ∧ s.startsWord budget word following = true :=
  List.mem_filter.1 (List.mem_of_getLast? h)

/-- A word taken apart into the longest symbols, the first of at most `budget` characters. -/
def pieces (r : Registry) (following : Text) (budget : Nat) : Text → List Token
  | [] => []
  | c :: rest =>
    match r.longest? budget (c :: rest) following with
    | some s =>
      let left := rest.drop (s.literal.length - 1)
      .symbol s ((c :: rest).take s.literal.length) :: pieces r following left.length left
    | none => .unknown c :: pieces r following rest.length rest
termination_by word => word.length

/-- A word taken apart.  Its first piece is shorter than the word, which is known to be no symbol
by itself. -/
def decompose (r : Registry) (following word : Text) : List Token :=
  pieces r following (word.length - 1) word

/-- The pieces of a word make up the word. -/
theorem text_pieces (r : Registry) (following : Text) (budget : Nat) (word : Text) :
    (pieces r following budget word).flatMap Token.text = word := by
  fun_induction pieces with
  | case1 => rfl
  | case2 budget c rest s hs left ih =>
    obtain ⟨hmem, -⟩ := Registry.startsWord_of_longest? hs
    have hne : s.literal ≠ [] := Symbol.literal_ne_nil (r.sound s hmem)
    obtain ⟨n, hn⟩ : ∃ n, s.literal.length = n + 1 :=
      Nat.exists_eq_succ_of_ne_zero (by simpa using hne)
    simp only [List.flatMap_cons, ih, Token.text]
    simp [left, hn]
  | case3 budget c rest _ ih => simp [ih, Token.text]

@[simp] theorem text_decompose (r : Registry) (following word : Text) :
    (decompose r following word).flatMap Token.text = word :=
  text_pieces _ _ _ _

/-- The tokens of a word that spells a symbol. -/
def resolve (r : Registry) (s : Symbol) (word following : Text) : List Token :=
  if s.isCallable && !startsCall following then .uncalled word :: decompose r following word
  else [.symbol s word]

@[simp] theorem text_resolve (r : Registry) (s : Symbol) (word following : Text) :
    (resolve r s word following).flatMap Token.text = word := by
  simp only [resolve]
  split <;> simp [Token.text]

/-- The tokens of a word that a delimiter or the end of the formula ends.  A number has precedence
over a symbol. -/
def closeWord (r : Registry) (word following : Text) : List Token :=
  if word = [] then []
  else if Numeral.isPlain word then [.number word]
  else match r.get? word with
    | some s => resolve r s word following
    | none => decompose r following word

/-- The tokens of a word that ends because the next character extends it to nothing that could be
read.  A symbol has precedence over a number. -/
def breakWord (r : Registry) (word following : Text) : List Token :=
  if word = [] then []
  else match r.get? word with
    | some s => resolve r s word following
    | none => if Numeral.isPlain word then [.number word] else decompose r following word

@[simp] theorem text_closeWord (r : Registry) (word following : Text) :
    (closeWord r word following).flatMap Token.text = word := by
  simp only [closeWord]
  repeat' split
  all_goals simp_all [Token.text]

@[simp] theorem text_breakWord (r : Registry) (word following : Text) :
    (breakWord r word following).flatMap Token.text = word := by
  simp only [breakWord]
  repeat' split
  all_goals simp_all [Token.text]

end Formula

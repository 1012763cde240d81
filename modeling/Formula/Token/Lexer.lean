import Formula.Token.Word

/-!
# Cutting a formula into tokens

The formula is read from left to right with a pending word.  A word grows as long as some symbol
starts with it, and ends at once when it spells a symbol that is no start of another one.  When no
symbol starts with it any more, it either starts a number or ends before the character that was
read last, which then starts a new word.

A number takes digits and one point.  A second point ends it and is reported.

## Main definitions

* `Pending` — the characters read since the last token.
* `readChar` — one character read.
* `tokensFrom`, `tokens` — the tokens of a text.
* `text_tokens` — the tokens of a text make up the text.
-/

namespace Formula

/-- The characters read since the last token, in the order in which they are written. -/
inductive Pending
  /-- The start of a symbol, or nothing. -/
  | word (text : Text)
  /-- A number, and whether it may not take a point any more. -/
  | numeral (text : Text) (hasPoint : Bool)
  deriving DecidableEq, Repr

namespace Pending

/-- The pending characters. -/
def text : Pending → Text
  | word t => t
  | numeral t _ => t

/-- No pending characters. -/
def none : Pending := word []

@[simp] theorem text_word (t : Text) : (word t).text = t := rfl

@[simp] theorem text_numeral (t : Text) (hasPoint : Bool) : (numeral t hasPoint).text = t := rfl

@[simp] theorem text_none : none.text = [] := rfl

end Pending

/-- Whether a word may start a number, given the text that follows it: it is one, or it is a point
before a digit. -/
def startsNumeral (word following : Text) : Bool :=
  Numeral.isPlain word || (word = ['.'] && following.head?.any Char.isDigit)

/-- A word extended by a character, if the result can still be read; `following` comes after the
character.  A number that starts here has used its point if the character is the point. -/
def extend? (r : Registry) (word : Text) (c : Char) (following : Text) :
    Option (List Token × Pending) :=
  let longer := word ++ [c]
  match r.startingWith longer.lower with
  | [s] =>
    if s.key = longer.lower then some (resolve r s longer following, .none)
    else some ([], .word longer)
  | _ :: _ :: _ => some ([], .word longer)
  | [] =>
    if startsNumeral longer following then some ([], .numeral longer (c = '.')) else none

/-- The first character of a word. -/
def startWord (r : Registry) (c : Char) (following : Text) : List Token × Pending :=
  (extend? r [] c following).getD ([.unknown c], .none)

/-- A character read after a word.  If it cannot extend the word, it starts the next one. -/
def extendWord (r : Registry) (word : Text) (c : Char) (following : Text) :
    List Token × Pending :=
  match extend? r word c following with
  | some next => next
  | none =>
    let first := startWord r c following
    (breakWord r word (c :: following) ++ first.1, first.2)

/-- A character read after a number. -/
def extendNumeral (r : Registry) (digits : Text) (hasPoint : Bool) (c : Char) (following : Text) :
    List Token × Pending :=
  if c.isDigit then ([], .numeral (digits ++ [c]) hasPoint)
  else if c = '.' then
    if hasPoint then (closeWord r digits (c :: following) ++ [.repeatedPoint], .none)
    else ([], .numeral (digits ++ [c]) true)
  else
    let first := startWord r c following
    (closeWord r digits (c :: following) ++ first.1, first.2)

/-- The tokens that are complete after a character, and the pending characters. -/
def readChar (r : Registry) (p : Pending) (c : Char) (following : Text) : List Token × Pending :=
  if isDelimiter c then (closeWord r p.text (c :: following) ++ [.ofDelimiter c], .none)
  else match p with
    | .word w => extendWord r w c following
    | .numeral w hasPoint => extendNumeral r w hasPoint c following

/-- The tokens of a text that is read after pending characters. -/
def tokensFrom (r : Registry) (p : Pending) : Text → List Token
  | [] => closeWord r p.text []
  | c :: following =>
    let step := readChar r p c following
    step.1 ++ tokensFrom r step.2 following

/-- The tokens of a text. -/
def tokens (r : Registry) (t : Text) : List Token :=
  tokensFrom r .none t

/-- What may become of a word that is extended: it spells a symbol and ends, it is the start of a
symbol, or it starts a number. -/
theorem extend?_cases {r : Registry} {word following : Text} {c : Char} {ts : List Token}
    {p : Pending} (h : extend? r word c following = some (ts, p)) :
    (∃ s ∈ r.symbols, s.key = (word ++ [c]).lower ∧ ts = resolve r s (word ++ [c]) following ∧
      p = .none) ∨
    (r.startingWith (word ++ [c]).lower ≠ [] ∧ ts = [] ∧ p = .word (word ++ [c])) ∨
    (startsNumeral (word ++ [c]) following = true ∧ ts = [] ∧
      p = .numeral (word ++ [c]) (c = '.')) := by
  simp only [extend?] at h
  split at h
  · rename_i s hs
    split at h
    · rename_i hkey
      obtain ⟨rfl, rfl⟩ := Prod.mk.inj (Option.some.inj h)
      have hmem : s ∈ r.startingWith (word ++ [c]).lower := by
        rw [hs]
        exact List.mem_cons_self
      exact .inl ⟨s, (List.mem_filter.1 hmem).1, hkey, rfl, rfl⟩
    · obtain ⟨rfl, rfl⟩ := Prod.mk.inj (Option.some.inj h)
      exact .inr (.inl ⟨by rw [hs]; exact List.cons_ne_nil _ _, rfl, rfl⟩)
  · rename_i hs
    obtain ⟨rfl, rfl⟩ := Prod.mk.inj (Option.some.inj h)
    exact .inr (.inl ⟨by rw [hs]; exact List.cons_ne_nil _ _, rfl, rfl⟩)
  · split at h
    · rename_i hnumeral
      obtain ⟨rfl, rfl⟩ := Prod.mk.inj (Option.some.inj h)
      exact .inr (.inr ⟨hnumeral, rfl, rfl⟩)
    · cases h

theorem text_extend? {r : Registry} {word following : Text} {c : Char}
    {ts : List Token} {p : Pending} (h : extend? r word c following = some (ts, p)) :
    ts.flatMap Token.text ++ p.text = word ++ [c] := by
  rcases extend?_cases h with ⟨s, -, -, rfl, rfl⟩ | ⟨-, rfl, rfl⟩ | ⟨-, rfl, rfl⟩
  · simp
  · rfl
  · rfl

theorem text_startWord (r : Registry) (c : Char) (following : Text) :
    (startWord r c following).1.flatMap Token.text ++ (startWord r c following).2.text = [c] := by
  simp only [startWord]
  cases h : extend? r [] c following with
  | none => rfl
  | some next => exact text_extend? h

private theorem text_extendWord (r : Registry) (word : Text) (c : Char) (following : Text) :
    (extendWord r word c following).1.flatMap Token.text ++ (extendWord r word c following).2.text =
      word ++ [c] := by
  simp only [extendWord]
  split
  · rename_i next h
    exact text_extend? h
  · simp [text_startWord]

private theorem text_extendNumeral (r : Registry) (digits : Text) (hasPoint : Bool) (c : Char)
    (following : Text) :
    (extendNumeral r digits hasPoint c following).1.flatMap Token.text ++
      (extendNumeral r digits hasPoint c following).2.text = digits ++ [c] := by
  simp only [extendNumeral]
  repeat' split
  all_goals simp_all [Token.text, text_startWord]

/-- Reading a character keeps the characters read so far. -/
theorem text_readChar (r : Registry) (p : Pending) (c : Char) (following : Text) :
    (readChar r p c following).1.flatMap Token.text ++ (readChar r p c following).2.text =
      p.text ++ [c] := by
  simp only [readChar]
  split
  · simp
  · split
    · exact text_extendWord ..
    · exact text_extendNumeral ..

/-- Reading goes on with the pending characters that the first character leaves. -/
theorem tokensFrom_cons (r : Registry) (p : Pending) (c : Char) (following : Text) :
    tokensFrom r p (c :: following) =
      (readChar r p c following).1 ++ tokensFrom r (readChar r p c following).2 following := rfl

/-- The tokens hold the pending characters and the characters that are read. -/
theorem text_tokensFrom (r : Registry) (p : Pending) (t : Text) :
    (tokensFrom r p t).flatMap Token.text = p.text ++ t := by
  induction t generalizing p with
  | nil => simp [tokensFrom]
  | cons c following ih =>
    have h := congrArg (· ++ following) (text_readChar r p c following)
    simpa [tokensFrom_cons, ih] using h

/-- **The tokens of a text make up the text.** -/
theorem text_tokens (r : Registry) (t : Text) : (tokens r t).flatMap Token.text = t :=
  text_tokensFrom r .none t

end Formula

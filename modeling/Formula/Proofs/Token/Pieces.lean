import Mathlib.Computability.StateTransition
import Formula.Proofs.LetterCase
import Formula.Proofs.UnknownRuns

/-!
# Words taken apart in place

A word that is no symbol is taken apart where it stands in the formula, by a loop over an offset
into the word.  The loop looks through the whole registry for symbols that the rest of the word
starts with, and takes the longest one; where there is none, it reports a character.  Whether a
function is called is seen from the formula, the other conditions from the word in lower case.

Two symbols of one length that start the same text are the same symbol, so it does not matter which
of several longest ones a search prefers (`tie`).  The loop ends where the word ends, and what it
leaves are the pieces of the word that `decompose` gives.
-/

namespace Formula

open StateTransition

section Greatest

variable {α : Type} {le : α → α → Bool}

/-- The greatest element of a list, the last one of several. -/
def greatest? (le : α → α → Bool) : List α → Option α
  | [] => none
  | a :: l => some (l.foldl (fun best b => if le best b then b else best) a)

theorem foldl_of_pairwise {a : α} {l : List α} (h : (a :: l).Pairwise (le · ·)) :
    l.foldl (fun best b => if le best b then b else best) a = (a :: l).getLast (by simp) := by
  induction l generalizing a with
  | nil => rfl
  | cons b l ih =>
    rw [List.pairwise_cons] at h
    rw [List.foldl_cons, if_pos (h.1 b List.mem_cons_self), ih h.2, List.getLast_cons_cons]

/-- In an ascending list the last element is the greatest. -/
theorem greatest?_of_pairwise {l : List α} (h : l.Pairwise (le · ·)) :
    greatest? le l = l.getLast? := by
  cases l with
  | nil => rfl
  | cons a l => rw [greatest?, foldl_of_pairwise h, List.getLast?_eq_some_getLast]

end Greatest

/-- A symbol that may be the piece at an offset of a word that stands at `start` in a text: the rest
of the word starts with it, it is not the whole word, and a function is called. -/
structure Symbol.FitsAt (text : Text) (start : Nat) (word : Text) (offset : Nat) (s : Symbol) :
    Prop where
  /-- The rest of the word starts with the symbol. -/
  starts : s.key <+: word.drop offset
  /-- At the beginning of the word it is shorter than the word. -/
  shorter : offset = 0 → s.key.length < word.length
  /-- A function is followed by an opening parenthesis, after blanks at most. -/
  called : s.isCallable = true → startsCall (text.drop (start + offset + s.key.length)) = true

/-- Symbols of one length that fit at the same offset are the same. -/
theorem Symbol.FitsAt.eq_of_length {r : Registry} {text word : Text} {start offset : Nat}
    {s t : Symbol} (hs : s.FitsAt text start word offset) (ht : t.FitsAt text start word offset)
    (hsmem : s ∈ r.symbols) (htmem : t ∈ r.symbols) (h : s.key.length = t.key.length) : s = t :=
  Registry.eq_of_key_eq hsmem htmem <|
    (List.prefix_of_prefix_length_le hs.starts ht.starts h.le).eq_of_length h

/-- A word that is being taken apart. -/
structure Cutting where
  /-- The offset of the next piece. -/
  offset : Nat
  /-- The pieces before it. -/
  pieces : List Token

namespace Cutting

/-- The greatest length of a piece.  The first one is not the whole word, which is known to be no
symbol. -/
def budget (word : Text) (offset : Nat) : Nat :=
  if offset = 0 then word.length - 1 else word.length - offset

/-- Whether a symbol is looked at for the piece at an offset. -/
def isCandidate (text : Text) (start : Nat) (word : Text) (offset : Nat) (s : Symbol) : Bool :=
  s.literal.length ≤ budget word offset && s.key.isPrefixOf (word.drop offset) &&
    (!s.isCallable || startsCall (text.lower.drop (start + offset + s.literal.length)))

/-- Symbols compared by their length, and by `tie` if it is the same. -/
def atMost (tie : Symbol → Symbol → Bool) (s t : Symbol) : Bool :=
  s.literal.length < t.literal.length || (s.literal.length == t.literal.length && tie s t)

variable (r : Registry) (tie : Symbol → Symbol → Bool) (text : Text) (start : Nat) (word : Text)

/-- The longest candidate. -/
def candidate? (offset : Nat) : Option Symbol :=
  greatest? (atMost tie) (r.symbols.filter (isCandidate text start word offset))

/-- One round of the loop, if the word is not at its end. -/
def step (c : Cutting) : Option Cutting :=
  let position := start + c.offset
  if c.offset < word.length then
    match candidate? r tie text start word c.offset with
    | some s =>
      let written := text.slice position (position + s.literal.length)
      some ⟨c.offset + s.literal.length, c.pieces ++ [.symbol s written]⟩
    | none => some ⟨c.offset + 1, c.pieces ++ (text.slice position (position + 1)).map .unknown⟩
  else none

end Cutting

/-- Pieces that tile a word from an offset to its end.  Each is the longest symbol that fits at its
offset, or a single character if none fits. -/
inductive GreedyFrom (r : Registry) (text : Text) (start : Nat) (word : Text) :
    Nat → List Token → Prop
  /-- The word is at its end. -/
  | done : GreedyFrom r text start word word.length []
  /-- The longest symbol that fits. -/
  | symbol {offset : Nat} {s : Symbol} {ts : List Token} (hs : s ∈ r.symbols)
    (hfits : s.FitsAt text start word offset)
    (hlongest : ∀ t ∈ r.symbols, t.FitsAt text start word offset → t.key.length ≤ s.key.length)
    (hts : GreedyFrom r text start word (offset + s.key.length) ts) :
    GreedyFrom r text start word offset
      (.symbol s (text.slice (start + offset) (start + offset + s.key.length)) :: ts)
  /-- A character at which no symbol fits. -/
  | unknown {offset : Nat} {c : Char} {ts : List Token} (hc : text[start + offset]? = some c)
    (hoffset : offset < word.length)
    (hnone : ∀ t ∈ r.symbols, ¬ t.FitsAt text start word offset)
    (hts : GreedyFrom r text start word (offset + 1) ts) :
    GreedyFrom r text start word offset (.unknown c :: ts)

section Between

variable {r : Registry} {tie : Symbol → Symbol → Bool} {before word after : Text}

theorem slice_between (before after : Text) {offset n : Nat} (h : offset + n ≤ word.length) :
    Text.slice (before ++ word ++ after) (before.length + offset) (before.length + offset + n) =
      (word.drop offset).take n := by
  rw [Text.slice, List.append_assoc, ← List.drop_drop, List.drop_left,
    List.drop_append_of_le_length (by omega), Nat.add_sub_cancel_left,
    List.take_append_of_le_length (by rw [List.length_drop]; omega)]

theorem drop_between {offset n : Nat} (h : offset + n ≤ word.length) :
    (before ++ word ++ after).drop (before.length + offset + n) =
      (word.drop offset).drop n ++ after := by
  rw [List.append_assoc, Nat.add_assoc, ← List.drop_drop, List.drop_left,
    List.drop_append_of_le_length h, List.drop_drop]

theorem startsCall_between {offset n : Nat} (h : offset + n ≤ word.length) :
    startsCall ((before ++ word ++ after).lower.drop (before.length + offset + n)) =
      startsCall ((word.drop offset).drop n ++ after) := by
  rw [← Text.lower_drop, drop_between h, startsCall_lower]

theorem le_of_prefix_drop {offset : Nat} (hoffset : offset ≤ word.length) {s : Symbol}
    (h : s.key <+: word.lower.drop offset) : offset + s.literal.length ≤ word.length := by
  have hlength := h.length_le
  rw [Symbol.length_key, List.length_drop, Text.length_lower] at hlength
  omega

/-- The candidates of the loop are those of `longest?`. -/
theorem isCandidate_eq {offset : Nat} (hoffset : offset ≤ word.length) (s : Symbol) :
    Cutting.isCandidate (before ++ word ++ after) before.length word.lower offset s =
      s.startsWord (Cutting.budget word.lower offset) (word.drop offset) after := by
  rw [Cutting.isCandidate, Symbol.startsWord, Text.lower_drop]
  cases hstarts : s.key.isPrefixOf (word.lower.drop offset) with
  | false => simp
  | true =>
    rw [startsCall_between (le_of_prefix_drop hoffset (List.isPrefixOf_iff_prefix.1 hstarts))]

/-- They are the symbols that fit. -/
theorem startsWord_iff_fitsAt {offset : Nat} (hoffset : offset < word.length) {s : Symbol} :
    s.startsWord (Cutting.budget word.lower offset) (word.drop offset) after = true ↔
      s.FitsAt (before ++ word ++ after) before.length word.lower offset := by
  have hbudget : s.key <+: word.lower.drop offset →
      (s.literal.length ≤ Cutting.budget word.lower offset ↔
        (offset = 0 → s.key.length < word.lower.length)) := by
    intro hstarts
    have hle := le_of_prefix_drop hoffset.le hstarts
    rw [Cutting.budget, Symbol.length_key, Text.length_lower]
    split <;> omega
  have hcalled : s.key <+: word.lower.drop offset →
      startsCall ((word.drop offset).drop s.literal.length ++ after) =
        startsCall ((before ++ word ++ after).drop (before.length + offset + s.key.length)) := by
    intro hstarts
    rw [Symbol.length_key, ← startsCall_between (le_of_prefix_drop hoffset.le hstarts),
      ← Text.lower_drop, startsCall_lower]
  rw [Symbol.startsWord, Text.lower_drop]
  simp only [Bool.and_eq_true, Bool.or_eq_true, Bool.not_eq_true', decide_eq_true_eq,
    List.isPrefixOf_iff_prefix]
  constructor
  · rintro ⟨⟨hlength, hstarts⟩, hcall⟩
    refine ⟨hstarts, (hbudget hstarts).1 hlength, fun hcallable => ?_⟩
    rw [← hcalled hstarts]
    exact hcall.resolve_left (by simp [hcallable])
  · rintro ⟨hstarts, hshorter, hcall⟩
    refine ⟨⟨(hbudget hstarts).2 hshorter, hstarts⟩, ?_⟩
    rw [hcalled hstarts]
    cases hcallable : s.isCallable with
    | false => exact .inl rfl
    | true => exact .inr (hcall hcallable)

/-- The symbols of a registry that fit come in strictly ascending length. -/
theorem pairwise_atMost (offset : Nat) :
    (r.symbols.filter (Cutting.isCandidate (before ++ word ++ after) before.length word.lower
      offset)).Pairwise (Cutting.atMost tie · ·) := by
  have hsymbols : r.symbols.Pairwise fun s t => s.key ≠ t.key ∧ s.key.length ≤ t.key.length :=
    r.distinct.and r.sorted
  refine (hsymbols.filter _).imp_of_mem fun {s t} hs ht ⟨hne, hle⟩ => ?_
  have hstarts : ∀ u ∈ r.symbols.filter (Cutting.isCandidate (before ++ word ++ after)
      before.length word.lower offset), u.key <+: word.lower.drop offset := by
    intro u hu
    have hcandidate := (List.mem_filter.1 hu).2
    simp only [Cutting.isCandidate, Bool.and_eq_true, List.isPrefixOf_iff_prefix] at hcandidate
    exact hcandidate.1.2
  have hlt : s.literal.length < t.literal.length := by
    rw [← Symbol.length_key, ← Symbol.length_key]
    refine hle.lt_of_ne fun heq => hne ?_
    exact (List.prefix_of_prefix_length_le (hstarts s hs) (hstarts t ht) heq.le).eq_of_length heq
  simp [Cutting.atMost, hlt]

/-- **The search finds the longest symbol**, whatever it prefers among symbols of one length. -/
theorem candidate?_eq_longest? {offset : Nat} (hoffset : offset ≤ word.length) :
    Cutting.candidate? r tie (before ++ word ++ after) before.length word.lower offset =
      r.longest? (Cutting.budget word.lower offset) (word.drop offset) after := by
  rw [Cutting.candidate?, greatest?_of_pairwise (pairwise_atMost offset), Registry.longest?]
  congr 1
  exact List.filter_congr fun s _ => isCandidate_eq hoffset s

theorem budget_of_pos {offset : Nat} (h : 0 < offset) :
    Cutting.budget word.lower offset = (word.drop offset).length := by
  rw [Cutting.budget, if_neg (by omega), Text.length_lower, List.length_drop]

/-- The longest symbol that the rest of a word starts with. -/
theorem longest?_spec (before : Text) {offset : Nat} (hoffset : offset < word.length) {s : Symbol}
    (h : r.longest? (Cutting.budget word.lower offset) (word.drop offset) after = some s) :
    s ∈ r.symbols ∧ s.FitsAt (before ++ word ++ after) before.length word.lower offset ∧
      (∀ t ∈ r.symbols, t.FitsAt (before ++ word ++ after) before.length word.lower offset →
        t.key.length ≤ s.key.length) ∧
      0 < s.literal.length ∧ offset + s.literal.length ≤ word.length := by
  obtain ⟨hmem, hstarts, hlongest⟩ := longest?_eq_some_iff.1 h
  have hfits : s.FitsAt (before ++ word ++ after) before.length word.lower offset :=
    (startsWord_iff_fitsAt hoffset).1 hstarts
  refine ⟨hmem, hfits, ?_, ?_, le_of_prefix_drop hoffset.le hfits.starts⟩
  · exact fun t ht htfits => hlongest t ht ((startsWord_iff_fitsAt hoffset).2 htfits)
  · rw [← Symbol.length_key]
    exact List.length_pos_iff.2 (Registry.key_ne_nil hmem)

theorem not_fitsAt_of_longest? {offset : Nat} (hoffset : offset < word.length)
    (h : r.longest? (Cutting.budget word.lower offset) (word.drop offset) after = none) :
    ∀ t ∈ r.symbols, ¬ t.FitsAt (before ++ word ++ after) before.length word.lower offset := by
  intro t ht hfits
  have hnil := List.getLast?_eq_none_iff.1 h
  exact (List.filter_eq_nil_iff.1 hnil) t ht ((startsWord_iff_fitsAt hoffset).2 hfits)

theorem pieces_of_longest? {offset : Nat} (hoffset : offset < word.length) {s : Symbol}
    (h : r.longest? (Cutting.budget word.lower offset) (word.drop offset) after = some s) :
    pieces r after (Cutting.budget word.lower offset) (word.drop offset) =
      .symbol s ((word.drop offset).take s.literal.length) ::
        pieces r after (Cutting.budget word.lower (offset + s.literal.length))
          (word.drop (offset + s.literal.length)) := by
  obtain ⟨-, -, -, hpos, -⟩ := longest?_spec [] hoffset h
  obtain ⟨n, hn⟩ := Nat.exists_eq_succ_of_ne_zero hpos.ne'
  rw [budget_of_pos (by omega : 0 < offset + s.literal.length), ← List.drop_drop]
  rw [List.drop_eq_getElem_cons hoffset] at h ⊢
  rw [pieces, h]
  simp only [hn, Nat.succ_eq_add_one, Nat.add_sub_cancel, List.drop_succ_cons]

theorem pieces_of_longest?_eq_none {offset : Nat} (hoffset : offset < word.length)
    (h : r.longest? (Cutting.budget word.lower offset) (word.drop offset) after = none) :
    pieces r after (Cutting.budget word.lower offset) (word.drop offset) =
      .unknown word[offset] :: pieces r after (Cutting.budget word.lower (offset + 1))
        (word.drop (offset + 1)) := by
  rw [budget_of_pos (Nat.succ_pos offset)]
  rw [List.drop_eq_getElem_cons hoffset] at h ⊢
  rw [pieces, h]

theorem step_of_longest? {offset : Nat} (hoffset : offset < word.length) (done : List Token)
    {s : Symbol}
    (h : r.longest? (Cutting.budget word.lower offset) (word.drop offset) after = some s) :
    Cutting.step r tie (before ++ word ++ after) before.length word.lower ⟨offset, done⟩ =
      some ⟨offset + s.literal.length,
        done ++ [.symbol s ((word.drop offset).take s.literal.length)]⟩ := by
  obtain ⟨-, -, -, -, hle⟩ := longest?_spec before hoffset h
  simp only [Cutting.step, Text.length_lower, if_pos hoffset, candidate?_eq_longest? hoffset.le, h,
    slice_between before after hle]

theorem step_of_longest?_eq_none {offset : Nat} (hoffset : offset < word.length)
    (done : List Token)
    (h : r.longest? (Cutting.budget word.lower offset) (word.drop offset) after = none) :
    Cutting.step r tie (before ++ word ++ after) before.length word.lower ⟨offset, done⟩ =
      some ⟨offset + 1, done ++ [.unknown word[offset]]⟩ := by
  simp only [Cutting.step, Text.length_lower, if_pos hoffset, candidate?_eq_longest? hoffset.le, h,
    slice_between before after (show offset + 1 ≤ word.length from hoffset)]
  rw [List.drop_eq_getElem_cons hoffset]
  rfl

/-- **The loop ends with the pieces of the word.** -/
theorem mem_eval_step (r : Registry) (tie : Symbol → Symbol → Bool) (before after : Text)
    {offset : Nat} (h : offset ≤ word.length) (done : List Token) :
    ⟨word.length, done ++ pieces r after (Cutting.budget word.lower offset) (word.drop offset)⟩ ∈
      eval (Cutting.step r tie (before ++ word ++ after) before.length word.lower)
        ⟨offset, done⟩ := by
  -- each round brings the offset closer to the end of the word
  induction hn : word.length - offset using Nat.strong_induction_on generalizing offset done with
  | _ n ih =>
    rcases h.eq_or_lt with rfl | hlt
    · rw [List.drop_length, pieces, List.append_nil]
      exact mem_eval.2 ⟨.refl, by simp [Cutting.step]⟩
    · cases hlongest : r.longest? (Cutting.budget word.lower offset) (word.drop offset) after with
      | some s =>
        obtain ⟨-, -, -, hpos, hle⟩ := longest?_spec before hlt hlongest
        have hnext := ih _ (by omega) hle
          (done ++ [.symbol s ((word.drop offset).take s.literal.length)]) rfl
        rw [reaches_eval (.single (step_of_longest? hlt done hlongest)),
          pieces_of_longest? hlt hlongest]
        simpa using hnext
      | none =>
        have hnext := ih _ (by omega) hlt (done ++ [.unknown word[offset]]) rfl
        rw [reaches_eval (.single (step_of_longest?_eq_none hlt done hlongest)),
          pieces_of_longest?_eq_none hlt hlongest]
        simpa using hnext

/-- **The pieces tile the word greedily.** -/
theorem greedyFrom_pieces (r : Registry) (before after : Text) {offset : Nat}
    (h : offset ≤ word.length) :
    GreedyFrom r (before ++ word ++ after) before.length word.lower offset
      (pieces r after (Cutting.budget word.lower offset) (word.drop offset)) := by
  induction hn : word.length - offset using Nat.strong_induction_on generalizing offset with
  | _ n ih =>
    rcases h.eq_or_lt with rfl | hlt
    · rw [List.drop_length, pieces]
      exact Text.length_lower word ▸ .done
    · cases hlongest : r.longest? (Cutting.budget word.lower offset) (word.drop offset) after with
      | some s =>
        obtain ⟨hmem, hfits, hmax, hpos, hle⟩ := longest?_spec before hlt hlongest
        rw [pieces_of_longest? hlt hlongest, ← slice_between before after hle,
          ← Symbol.length_key]
        refine .symbol hmem hfits hmax ?_
        rw [Symbol.length_key]
        exact ih _ (by omega) hle rfl
      | none =>
        rw [pieces_of_longest?_eq_none hlt hlongest]
        refine .unknown ?_ (by rwa [Text.length_lower]) (not_fitsAt_of_longest? hlt hlongest)
          (ih _ (by omega) hlt rfl)
        rw [List.append_assoc, List.getElem?_append_right (by omega), Nat.add_sub_cancel_left,
          List.getElem?_append_left hlt, List.getElem?_eq_getElem hlt]

end Between

/-! ## Parts and errors of the pieces -/

/-- The parts of the symbols among tokens of which the first one is at position `n`. -/
def partsFrom : Nat → List Token → List Part
  | _, [] => []
  | n, .symbol s t :: ts => .ofSymbol s ⟨n, t⟩ :: partsFrom (n + t.length) ts
  | n, tok :: ts => partsFrom (n + tok.text.length) ts

/-- Symbols become parts and characters become errors, in their order, and nothing else happens. -/
theorem run_greedyFrom {r : Registry} {text word : Text} {start offset : Nat} {ts : List Token}
    (h : GreedyFrom r text start word offset ts) (b : Builder) :
    b.run text ts =
      { b with
        position := b.position + (ts.flatMap Token.text).length
        items := (partsFrom b.position ts).reverse ++ b.items
        errors := b.errors ++ unknownsFrom b.position ts } := by
  induction h generalizing b with
  | done => simp [Builder.run, partsFrom, unknownsFrom]
  | symbol _ _ _ _ ih =>
    rw [Builder.run_cons, Builder.step_symbol, ih]
    simp [partsFrom, unknownsFrom, Token.text, Nat.add_assoc]
  | unknown _ _ _ _ ih =>
    rw [Builder.run_cons, ih]
    simp [Builder.step, Builder.take, Builder.report, partsFrom, unknownsFrom, Token.text,
      Nat.add_assoc, Nat.add_comm 1]

/-! ## The words of a formula -/

/-- A word in lower case is written between what stands before it and what follows. -/
theorem exists_between {text word : Text} {start : Nat} (hne : word ≠ [])
    (hword : (text.slice start (start + word.length)).lower = word) :
    ∃ before written after, text = before ++ written ++ after ∧ start = before.length ∧
      word = Text.lower written ∧ written = text.slice start (start + word.length) ∧
      after = text.drop (start + word.length) := by
  have hlength : (text.slice start (start + word.length)).length = word.length := by
    rw [← Text.length_lower, hword]
  have hpos : 0 < word.length := List.length_pos_iff.2 hne
  simp only [Text.slice, List.length_take, List.length_drop, Nat.add_sub_cancel_left] at hlength
  refine ⟨text.take start, _, _, ?_, ?_, hword.symm, rfl, rfl⟩
  · rw [Text.slice, Nat.add_sub_cancel_left, List.append_assoc, ← List.drop_drop,
      List.take_append_drop, List.take_append_drop]
  · rw [List.length_take]
    omega

/-- **Taking a word apart.**  The word is in lower case what is written from `start` on.  The loop
ends, whatever it prefers among symbols of one length, and leaves the pieces that `decompose` gives:
they tile the word, each is the longest symbol that fits at its offset, or a single character if
none fits, and no two symbols of one length fit.  The builder adds a part for each symbol and an
error for each character, at their positions. -/
theorem cutting_greedy (r : Registry) (tie : Symbol → Symbol → Bool) {text word : Text} {start : Nat}
    (hne : word ≠ []) (hword : (text.slice start (start + word.length)).lower = word) :
    ∃ ts, ⟨word.length, ts⟩ ∈ eval (Cutting.step r tie text start word) ⟨0, []⟩ ∧
      ts = decompose r (text.drop (start + word.length)) (text.slice start (start + word.length)) ∧
      GreedyFrom r text start word 0 ts ∧
      ts.flatMap Token.text = text.slice start (start + word.length) ∧
      (∀ offset, ∀ s ∈ r.symbols, ∀ t ∈ r.symbols, s.FitsAt text start word offset →
        t.FitsAt text start word offset → s.key.length = t.key.length → s = t) ∧
      ∀ b : Builder, b.position = start → b.run text ts =
        { b with
          position := start + word.length
          items := (partsFrom start ts).reverse ++ b.items
          errors := b.errors ++ unknownsFrom start ts } := by
  obtain ⟨before, written, after, htext, hstart, hlower, hwritten, hafter⟩ :=
    exists_between hne hword
  have hlength : written.length = word.length := by rw [hlower, Text.length_lower]
  have hpieces : pieces r after (Cutting.budget written.lower 0) (written.drop 0) =
      decompose r after written := by
    rw [decompose, Cutting.budget, if_pos rfl, Text.length_lower, List.drop_zero]
  have heval := mem_eval_step r tie before after (Nat.zero_le written.length) []
  have hgreedy := greedyFrom_pieces r before after (Nat.zero_le written.length)
  rw [hpieces, ← htext, ← hstart, ← hlower] at heval hgreedy
  rw [List.nil_append, hlength] at heval
  refine ⟨decompose r after written, heval, by rw [hwritten, hafter], hgreedy, ?_, ?_, ?_⟩
  · rw [text_decompose, hwritten]
  · intro offset s hs t ht hsfits htfits heq
    exact hsfits.eq_of_length htfits hs ht heq
  · intro b hb
    rw [run_greedyFrom hgreedy b, text_decompose, hlength, hb]

/-- The name of a function that is not called: two characters that are unknown, and a variable. -/
theorem cutting_greedy_max :
    "max".toList ≠ [] ∧ (Text.slice "2Max y".toList 1 4).lower = "max".toList ∧
      ∃ ts, ⟨3, ts⟩ ∈ eval (Cutting.step .standard (fun _ _ => false) "2Max y".toList 1
          "max".toList) ⟨0, []⟩ ∧
        ts.map Token.text = ["M".toList, "a".toList, "x".toList] ∧
        (partsFrom 1 ts).map Part.excerpt = [⟨3, "x".toList⟩] ∧
        unknownsFrom 1 ts = [.unknown "M".toList 1, .unknown "a".toList 2] := by
  have hne : "max".toList ≠ [] := by decide
  have hword : (Text.slice "2Max y".toList 1 4).lower = "max".toList := by decide
  obtain ⟨ts, heval, hts, -⟩ := cutting_greedy .standard (fun _ _ => false) hne hword
  refine ⟨hne, hword, ts, heval, ?_⟩
  rw [hts]
  decide +kernel

end Formula

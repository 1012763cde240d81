import Formula.Proofs.LetterCase
import Formula.Proofs.Scan.Alignment

/-!
# The scan reads the tokens

What a state of the scan stands for is a builder: the one that has been built so far, once it has
taken in the tokens of the pending word and of what is ahead of the cursor (`ahead`).  A step leaves
this builder as it is, or at least the tree, the errors and the hints that are read of it in the
end.  So the scan ends with what the tokens of the whole formula are built into.
-/

namespace Formula

variable {r : Registry} {text : Text}

namespace Scan

variable {s t : Scan}

section Words

variable {w : Word} {cursor : Nat}

/-- The tokens of a symbol that spells what is written between two positions. -/
theorem resolveAt_eq {x : Symbol} {start stop : Nat} (hstart : start ≤ stop)
    (hstop : stop ≤ text.length) (hkey : x.key = (text.slice start stop).lower) :
    resolveAt r text x start = resolve r x (text.slice start stop) (text.drop stop) := by
  have hlength : start + x.literal.length = stop := by
    have h := congrArg List.length hkey
    rw [Symbol.key, Text.length_lower, Text.length_lower, Text.length_slice hstop] at h
    omega
  rw [resolveAt, resolve, hlength, ← Text.lower_drop, startsCall_lower]
  rfl

namespace Word.Spells

variable (h : w.Spells text cursor)
include h

/-- The word is the same after a character has been added and removed. -/
theorem withText_push (c : Char) (n : Nat) :
    Word.Spells text cursor { w.push c n with text := w.text } := by
  have hstart : (w.push c n).start = w.start := if_neg h.ne_nil
  refine ⟨h.ne_nil, hstart ▸ h.start_le, ?_⟩
  simp only [hstart]
  exact h.text_eq

theorem slice_ne_nil : text.slice w.start cursor ≠ [] := by
  have hne := h.ne_nil
  rwa [h.text_eq, Ne, lower_eq_nil_iff] at hne

theorem isPlain_eq : Numeral.isPlain w.text = Numeral.isPlain (text.slice w.start cursor) := by
  rw [h.text_eq, isPlain_lower]

theorem get?_eq : r.get? w.text = r.get? (text.slice w.start cursor) := by
  rw [h.text_eq, get?_lower]

theorem stop_eq (hcursor : cursor ≤ text.length) : w.stop = cursor := by
  have hstart := h.start_le
  rw [Word.stop, h.text_eq, Text.length_lower, Text.length_slice hcursor]
  omega

theorem resolveAt_eq (hcursor : cursor ≤ text.length) {x : Symbol}
    (hx : r.get? (text.slice w.start cursor) = some x) :
    resolveAt r text x w.start = resolve r x (text.slice w.start cursor) (text.drop cursor) :=
  Scan.resolveAt_eq h.start_le hcursor (Registry.get?_eq_some_iff.1 hx).2

theorem closedTokens_eq (hcursor : cursor ≤ text.length) :
    closedTokens r text w = closeWord r (text.slice w.start cursor) (text.drop cursor) := by
  rw [closedTokens, closeWord, if_neg h.slice_ne_nil, h.stop_eq hcursor, h.isPlain_eq, h.get?_eq]
  split
  · rfl
  · cases hx : r.get? (text.slice w.start cursor) with
    | some x => exact h.resolveAt_eq hcursor hx
    | none => rfl

theorem brokenTokens_eq (hcursor : cursor ≤ text.length) :
    brokenTokens r text w cursor = breakWord r (text.slice w.start cursor) (text.drop cursor) := by
  rw [brokenTokens, breakWord, if_neg h.slice_ne_nil, h.stop_eq hcursor, h.isPlain_eq, h.get?_eq]
  cases hx : r.get? (text.slice w.start cursor) with
  | some x => exact h.resolveAt_eq hcursor hx
  | none => rfl

end Word.Spells

end Words

/-- The pending characters, as they are written. -/
def pending (text : Text) (s : Scan) : Pending :=
  if s.current.word.text = [] then .none
  else if s.current.word.inNumber then
    .numeral (text.slice s.current.word.start s.cursor) s.current.word.hasPoint
  else .word (text.slice s.current.word.start s.cursor)

/-- The position of the first of them, or of the next character. -/
def origin (s : Scan) : Nat :=
  if s.current.word.text = [] then s.cursor else s.current.word.start

/-- What will have been built at the end of the formula.  A parenthesis or a comma before the cursor
counts as ahead of it until the activation that has returned there has been replaced. -/
def ahead (r : Registry) (text : Text) (s : Scan) : Builder :=
  match s.closing? with
  | none => Builder.run text { s.built with position := s.origin }
      (tokensFrom r (s.pending text) (text.drop s.cursor))
  | some .parenthesis => Builder.run text { s.built with position := s.cursor - 1 }
      (.closing :: tokens r (text.drop s.cursor))
  | some .comma => Builder.run text { s.built with position := s.cursor - 1 }
      (.comma :: tokens r (text.drop s.cursor))
  | some .finish => { s.built with position := s.cursor }

theorem pending_of_isClear (hw : s.current.word.IsClear) : s.pending text = .none :=
  if_pos hw.1

theorem origin_of_isClear (hw : s.current.word.IsClear) : s.origin = s.cursor :=
  if_pos hw.1

/-- Nothing is pending. -/
theorem ahead_of_isClear (hloop : s.closing? = none) (hw : s.current.word.IsClear) :
    s.ahead r text = Builder.run text { s.built with position := s.cursor }
      (tokens r (text.drop s.cursor)) := by
  rw [ahead, hloop]
  simp only [pending_of_isClear hw, origin_of_isClear hw, tokens]

/-- Nothing is pending after a token of one character that has been taken in. -/
theorem ahead_of_take (b : Builder) (tok : Token) (start : Nat) (htok : tok.text.length = 1)
    (hloop : s.closing? = none) (hw : s.current.word.IsClear) (hcursor : s.cursor = start + 1)
    (hbuilt : { s.built with position := start } =
      Builder.take text { b with position := start } tok) :
    s.ahead r text = Builder.run text { b with position := start }
      (tok :: tokens r (text.drop (start + 1))) := by
  rw [ahead_of_isClear hloop hw, Builder.run_cons, Builder.step, ← hbuilt, hcursor, htok]

/-- The pending characters of a number. -/
theorem pending_of_inNumber (hs : s.current.word.Holds text s.cursor)
    (hnumber : s.current.word.inNumber = true) :
    s.pending text = .numeral (s.pending text).text s.current.word.hasPoint := by
  have hne : s.current.word.text ≠ [] := fun hnil => by simp [hs.inNumber_eq_false hnil] at hnumber
  simp only [pending, if_neg hne, hnumber, if_true, Pending.text_numeral]

/-- The pending characters of a word that is no number. -/
theorem pending_of_inNumber_eq_false (hnumber : s.current.word.inNumber = false) :
    s.pending text = .word (s.pending text).text := by
  simp only [pending, hnumber]
  split <;> rfl

/-- The characters between the origin and the cursor are pending. -/
theorem text_pending (s : Scan) : (s.pending text).text = text.slice s.origin s.cursor := by
  rw [pending, origin]
  split
  · simp [Text.slice]
  · split <;> rfl

theorem origin_le (hs : s.current.word.Holds text s.cursor) : s.origin ≤ s.cursor := by
  rw [origin]
  split
  · exact Nat.le_refl _
  · rename_i hne
    exact (hs.resolve_left fun hclear => hne hclear.1).start_le

theorem cursor_flush (s : Scan) : (s.flush r text).cursor = s.cursor := by
  rw [flush]
  split <;> rfl

theorem closing?_flush (s : Scan) : (s.flush r text).closing? = s.closing? := by
  rw [flush]
  split <;> rfl

theorem isClear_flush (hs : s.current.word.Holds text s.cursor) :
    (s.flush r text).current.word.IsClear := by
  obtain ⟨w, built, hw, hflush⟩ := exists_flush r text hs.inNumber_eq_false
  rw [hflush]
  exact hw

/-- The pending word is taken in, and the tokens after it are those that are ahead. -/
theorem run_flush (hs : Sound text s) (ts : List Token) :
    Builder.run text { (s.flush r text).built with position := s.cursor } ts =
      Builder.run text { s.built with position := s.origin }
        (closeWord r (s.pending text).text (text.drop s.cursor) ++ ts) := by
  rcases hs.word with hclear | hspells
  · rw [flush, if_pos hclear.1, pending_of_isClear hclear, origin_of_isClear hclear]
    rfl
  · have hlength : s.cursor = s.current.word.start +
        ((closedTokens r text s.current.word).flatMap Token.text).length := by
      rw [hspells.closedTokens_eq hs.cursor_le, text_closeWord, Text.length_slice hs.cursor_le]
      have hstart := hspells.start_le
      omega
    rw [flush, if_neg hspells.ne_nil, text_pending, origin, if_neg hspells.ne_nil,
      ← hspells.closedTokens_eq hs.cursor_le]
    exact Builder.run_run hlength

/-- The character under the cursor, as it is written. -/
theorem exists_toLower_eq {n : Nat} {c : Char} (hc : text.lower[n]? = some c) :
    ∃ d, d.toLower = c ∧ text[n]? = some d := by
  rw [Text.lower, List.getElem?_map, Option.map_eq_some_iff] at hc
  obtain ⟨d, hd, hdc⟩ := hc
  exact ⟨d, hdc, hd⟩

section Iterate

variable {d : Char} (hd : text[s.cursor]? = some d)
include hd

/-- A character that starts the next word stays under the cursor. -/
theorem ahead_reread (hdelimiter : isDelimiter d = false) (ht : t.closing? = none)
    (hclear : t.current.word.IsClear) (hcursor : t.cursor = s.cursor) {ts : List Token}
    (hrun : ∀ us, Builder.run text { t.built with position := s.cursor } us =
      Builder.run text { s.built with position := s.origin } (ts ++ us)) :
    t.ahead r text = Builder.run text { s.built with position := s.origin }
      (ts ++ (startWord r d (text.drop (s.cursor + 1))).1 ++
        tokensFrom r (startWord r d (text.drop (s.cursor + 1))).2 (text.drop (s.cursor + 1))) := by
  obtain ⟨hlt, rfl⟩ := List.getElem?_eq_some_iff.1 hd
  rw [ahead_of_isClear ht hclear, hcursor, hrun, List.drop_eq_getElem_cons hlt, tokens,
    tokensFrom_cons, Pending.none, readChar_word hdelimiter, extendWord_nil, List.append_assoc]

variable (hs : Sound text s)
include hs

/-- The pending characters with the next one. -/
theorem pending_append :
    (s.pending text).text ++ [d] = text.slice s.origin (s.cursor + 1) := by
  rw [text_pending, Text.slice_succ (origin_le hs.word) hd]

theorem text_push : (s.current.word.push d.toLower s.cursor).text =
    Text.lower ((s.pending text).text ++ [d]) := by
  have hc : text.lower[s.cursor]? = some d.toLower := by simp [Text.lower, hd]
  have hspells : (s.current.word.push d.toLower s.cursor).Spells text (s.cursor + 1) :=
    hs.word.grow hc rfl rfl
  rw [pending_append hd hs]
  exact hspells.text_eq

theorem startsNumeral_push :
    startsNumeral (s.current.word.push d.toLower s.cursor).text (text.lower.drop (s.cursor + 1)) =
      startsNumeral ((s.pending text).text ++ [d]) (text.drop (s.cursor + 1)) := by
  rw [text_push hd hs, ← Text.lower_drop, startsNumeral_lower]

omit hs
variable (hloop : s.closing? = none)
include hloop

/-- The next character is read after those that are pending. -/
theorem ahead_eq_readChar : s.ahead r text =
    Builder.run text { s.built with position := s.origin }
      ((readChar r (s.pending text) d (text.drop (s.cursor + 1))).1 ++
        tokensFrom r (readChar r (s.pending text) d (text.drop (s.cursor + 1))).2
          (text.drop (s.cursor + 1))) := by
  obtain ⟨hlt, rfl⟩ := List.getElem?_eq_some_iff.1 hd
  rw [ahead, hloop, List.drop_eq_getElem_cons hlt]
  rfl

/-- A delimiter comes after the word that it ends. -/
theorem ahead_eq_delimiter (hdelimiter : isDelimiter d = true) : s.ahead r text =
    Builder.run text { s.built with position := s.origin }
      (closeWord r (s.pending text).text (d :: text.drop (s.cursor + 1)) ++
        .ofDelimiter d :: tokens r (text.drop (s.cursor + 1))) := by
  rw [ahead_eq_readChar hd hloop, readChar_delimiter hdelimiter, List.append_assoc]
  rfl

include hs

/-- A word that grows. -/
theorem ahead_grow {w : Word} (htext : w.text = s.current.word.text ++ [d.toLower])
    (hstart : w.start = s.origin) : ((s.setWord w).advance).ahead r text =
      Builder.run text { s.built with position := s.origin }
        (tokensFrom r (if w.inNumber then .numeral ((s.pending text).text ++ [d]) w.hasPoint
            else .word ((s.pending text).text ++ [d])) (text.drop (s.cursor + 1))) := by
  have hne : w.text ≠ [] := by simp [htext]
  rw [ahead, pending_append hd hs, ← hstart]
  simp only [advance, setWord, hloop, origin, pending, if_neg hne]

/-- A character that is a token of its own comes after the word that it ends. -/
theorem ahead_pass (tok : Token) (htok : tok.text.length = 1) {b : Builder}
    (hbuilt : { b with position := s.cursor } =
      Builder.take text { (s.flush r text).built with position := s.cursor } tok) :
    ahead r text { s.flush r text with cursor := (s.flush r text).cursor + 1, built := b } =
      Builder.run text { s.built with position := s.origin }
        (closeWord r (s.pending text).text (d :: text.drop (s.cursor + 1)) ++
          tok :: tokens r (text.drop (s.cursor + 1))) := by
  obtain ⟨hlt, rfl⟩ := List.getElem?_eq_some_iff.1 hd
  refine (ahead_of_take (s.flush r text).built tok s.cursor htok ?_ ?_ ?_ hbuilt).trans ?_
  · exact (closing?_flush s).trans hloop
  · exact isClear_flush hs.word
  · exact congrArg (· + 1) (cursor_flush s)
  · rw [run_flush hs, List.drop_eq_getElem_cons hlt]

omit hloop in
/-- A delimiter after which the activation returns. -/
theorem ahead_leave {closing : Closing} {tok : Token}
    (hclosing : closing = .parenthesis ∧ tok = .closing ∨ closing = .comma ∧ tok = .comma) :
    (((s.flush r text).advance).leave closing).ahead r text =
      Builder.run text { s.built with position := s.origin }
        (closeWord r (s.pending text).text (d :: text.drop (s.cursor + 1)) ++
          tok :: tokens r (text.drop (s.cursor + 1))) := by
  obtain ⟨hlt, rfl⟩ := List.getElem?_eq_some_iff.1 hd
  rw [← List.drop_eq_getElem_cons hlt, ← run_flush hs]
  rcases hclosing with ⟨rfl, rfl⟩ | ⟨rfl, rfl⟩ <;>
    simp only [ahead, leave, advance, cursor_flush, Nat.add_sub_cancel]

omit hloop in
/-- An opening parenthesis, after which an activation starts. -/
theorem ahead_enter : ((s.flush r text).enter).ahead r text =
    Builder.run text { s.built with position := s.origin }
      (closeWord r (s.pending text).text (d :: text.drop (s.cursor + 1)) ++
        .opening :: tokens r (text.drop (s.cursor + 1))) := by
  obtain ⟨hlt, rfl⟩ := List.getElem?_eq_some_iff.1 hd
  rw [← List.drop_eq_getElem_cons hlt, ← run_flush hs]
  refine ahead_of_take (s.flush r text).built .opening s.cursor rfl rfl Word.isClear_empty ?_ ?_
  · exact congrArg (· + 1) (cursor_flush s)
  · simp only [enter, cursor_flush]
    exact Builder.withPosition_eq (Builder.position_take text _ .opening)

theorem ahead_extendNumber (hdelimiter : isDelimiter d = false)
    (hnumber : s.current.word.inNumber = true) :
    (s.extendNumber r text d.toLower).ahead r text = s.ahead r text := by
  have hpoint : d.toLower = '.' ↔ d = '.' := toLower_eq_iff (by decide)
  rw [ahead_eq_readChar hd hloop, pending_of_inNumber hs.word hnumber, readChar_numeral hdelimiter]
  simp only [extendNumber, extendNumeral, isDigit_toLower, hpoint]
  split
  · rw [ahead_grow hd hs hloop rfl rfl]
    simp only [Word.push, hnumber, if_true, List.nil_append]
  · split
    · rename_i hd'
      split
      · refine (ahead_pass hd hs hloop .repeatedPoint rfl rfl).trans ?_
        rw [List.append_assoc]
        rfl
      · rw [ahead_grow hd hs hloop (by rw [hd']; rfl) rfl]
        simp only [Word.push, hnumber, if_true, List.nil_append]
    · obtain ⟨hlt, hd'⟩ := List.getElem?_eq_some_iff.1 hd
      refine ahead_reread hd hdelimiter ((closing?_flush s).trans hloop)
        (isClear_flush hs.word) (cursor_flush s) fun us => ?_
      rw [run_flush hs, List.drop_eq_getElem_cons hlt, hd']

/-- A word that is no number grows. -/
theorem ahead_push (hnumber : s.current.word.inNumber = false) :
    ((s.setWord (s.current.word.push d.toLower s.cursor)).advance).ahead r text =
      Builder.run text { s.built with position := s.origin }
        (tokensFrom r (.word ((s.pending text).text ++ [d])) (text.drop (s.cursor + 1))) := by
  have hword : (s.current.word.push d.toLower s.cursor).inNumber = false := hnumber
  rw [ahead_grow hd hs hloop rfl rfl, hword, if_neg Bool.false_ne_true]

/-- A word that cannot be read on is taken in without the character, which is unknown if there is no
such word. -/
theorem ahead_backOff (hdelimiter : isDelimiter d = false)
    (hnone : extend? r (s.pending text).text d (text.drop (s.cursor + 1)) = none) :
    ((s.setWord (s.current.word.push d.toLower s.cursor)).backOff r text).ahead r text =
      Builder.run text { s.built with position := s.origin }
        (breakWord r (s.pending text).text (d :: text.drop (s.cursor + 1)) ++
          (startWord r d (text.drop (s.cursor + 1))).1 ++
          tokensFrom r (startWord r d (text.drop (s.cursor + 1))).2 (text.drop (s.cursor + 1))) := by
  obtain ⟨hlt, rfl⟩ := List.getElem?_eq_some_iff.1 hd
  have hdrop : (s.current.word.push text[s.cursor].toLower s.cursor).text.dropLast =
      s.current.word.text := List.dropLast_concat
  rcases hs.word with hclear | hspells
  · have hunknown : startWord r text[s.cursor] (text.drop (s.cursor + 1)) =
        ([.unknown text[s.cursor]], .none) := by
      rw [pending_of_isClear hclear, Pending.text_none] at hnone
      rw [startWord, hnone]
      rfl
    have hslice : text.slice s.cursor (s.cursor + 1) = [text[s.cursor]] := by
      rw [Text.slice_succ (Nat.le_refl _) hd]
      simp [Text.slice]
    rw [pending_of_isClear hclear, origin_of_isClear hclear, hunknown]
    simp only [backOff, setWord, hdrop, if_pos hclear.1, hslice]
    refine (ahead_of_take s.built (.unknown text[s.cursor]) s.cursor rfl ?_ ?_ ?_ ?_).trans ?_
    · exact hloop
    · exact Word.isClear_clear _
    · rfl
    · rfl
    · rfl
  · have hword := hspells.withText_push text[s.cursor].toLower s.cursor
    have hbroken := hword.brokenTokens_eq (r := r) hs.cursor_le
    have hlength : s.cursor = s.origin + ((breakWord r (text.slice s.origin s.cursor)
        (text.drop s.cursor)).flatMap Token.text).length := by
      have hle := origin_le hs.word
      rw [text_breakWord, Text.length_slice hs.cursor_le]
      omega
    simp only [backOff, setWord, hdrop, if_neg hspells.ne_nil, hbroken]
    rw [← List.drop_eq_getElem_cons hlt, text_pending]
    refine ahead_reread hd hdelimiter ?_ ?_ ?_ fun us => Builder.run_run hlength
    · exact hloop
    · exact Word.isClear_clear _
    · rfl

/-- The symbol that a word spells is taken in at once if it is no start of another one. -/
theorem ahead_found {w : Word} (hw : w = s.current.word.push d.toLower s.cursor) {x : Symbol}
    (hkey : x.key = w.text) :
    (((s.setWord w.clear).advance).emit text w.start (resolveAt r text x w.start)).ahead r text =
      Builder.run text { s.built with position := s.origin }
        (resolve r x ((s.pending text).text ++ [d]) (text.drop (s.cursor + 1)) ++
          tokens r (text.drop (s.cursor + 1))) := by
  obtain rfl := hw
  have hle := origin_le hs.word
  have hstop : s.cursor + 1 ≤ text.length := (List.getElem?_eq_some_iff.1 hd).1
  rw [text_push hd hs] at hkey
  rw [pending_append hd hs] at hkey ⊢
  have hresolve := resolveAt_eq (r := r) (hle.trans (Nat.le_succ _)) hstop hkey
  have hlength : s.cursor + 1 = s.origin +
      ((resolveAt r text x s.origin).flatMap Token.text).length := by
    rw [hresolve, text_resolve, Text.length_slice hstop]
    omega
  rw [← hresolve]
  refine (ahead_of_isClear ?_ ?_).trans ?_
  · exact hloop
  · exact Word.isClear_clear _
  · exact Builder.run_run hlength

theorem ahead_extendWord (hdelimiter : isDelimiter d = false)
    (hnumber : s.current.word.inNumber = false) :
    (s.extendWord r text d.toLower).ahead r text = s.ahead r text := by
  have hpoint : d.toLower = '.' ↔ d = '.' := toLower_eq_iff (by decide)
  have hlonger := text_push hd hs
  rw [ahead_eq_readChar hd hloop, pending_of_inNumber_eq_false hnumber, readChar_word hdelimiter]
  simp only [extendWord, Formula.extendWord]
  -- no symbol starts with the longer word, or one does, or several
  rcases hfound : r.startingWith (s.current.word.push d.toLower s.cursor).text with
    _ | ⟨found, _ | ⟨other, more⟩⟩
  · simp only [startsNumeral_push hd hs]
    split
    · rename_i hnumeral
      have hextend : extend? r (s.pending text).text d (text.drop (s.cursor + 1)) =
          some ([], .numeral ((s.pending text).text ++ [d]) (d = '.')) := by
        simp only [extend?, ← hlonger, hfound, if_pos hnumeral]
      rw [ahead_grow hd hs hloop rfl rfl]
      simp only [hextend, if_true, hpoint, List.nil_append]
    · rename_i hnumeral
      have hextend : extend? r (s.pending text).text d (text.drop (s.cursor + 1)) = none := by
        simp only [extend?, ← hlonger, hfound, if_neg hnumeral]
      rw [ahead_backOff hd hs hloop hdelimiter hextend]
      simp only [hextend]
  · simp only
    split
    · rename_i hkey
      have hextend : extend? r (s.pending text).text d (text.drop (s.cursor + 1)) =
          some (resolve r found ((s.pending text).text ++ [d]) (text.drop (s.cursor + 1)),
            .none) := by
        simp only [extend?, ← hlonger, hfound, if_pos hkey]
      rw [ahead_found hd hs hloop rfl hkey]
      simp only [hextend, tokens]
    · rename_i hkey
      have hextend : extend? r (s.pending text).text d (text.drop (s.cursor + 1)) =
          some ([], .word ((s.pending text).text ++ [d])) := by
        simp only [extend?, ← hlonger, hfound, if_neg hkey]
      rw [ahead_push hd hs hloop hnumber]
      simp only [hextend, List.nil_append]
  · have hextend : extend? r (s.pending text).text d (text.drop (s.cursor + 1)) =
        some ([], .word ((s.pending text).text ++ [d])) := by
      simp only [extend?, ← hlonger, hfound]
    simp only
    rw [ahead_push hd hs hloop hnumber]
    simp only [hextend, List.nil_append]

/-- **An iteration leaves what will have been built as it is.** -/
theorem ahead_iterate (ha : s.IsAligned) :
    (s.iterate r text d.toLower).ahead r text = s.ahead r text := by
  have hflush := (beside_flush r text s).isAligned ha
  -- the loop looks at characters in lower case, which are the same delimiters
  have hsame {e : Char} (he : e.toNat < 65) : d.toLower = e ↔ d = e := toLower_eq_iff he
  simp only [iterate, hsame (show ')'.toNat < 65 by decide), hsame (show '('.toNat < 65 by decide),
    hsame (show ','.toNat < 65 by decide), isBlank_toLower]
  split
  · rename_i hclosing
    subst hclosing
    rw [ahead_eq_delimiter hd hloop (by decide)]
    split
    · exact ahead_leave hd hs (.inl ⟨rfl, rfl⟩)
    · rename_i hdepth
      have hnil : s.callers = [] := hs.nested.callers_eq_nil (Nat.eq_zero_of_not_pos hdepth)
      have hframes := hflush.frames_eq_nil ((beside_flush r text s).callers.trans hnil)
      exact ahead_pass hd hs hloop .closing rfl (Builder.take_closing_nil hframes _).symm
  · split
    · rename_i hopening
      subst hopening
      rw [ahead_eq_delimiter hd hloop (by decide)]
      exact ahead_enter hd hs
    · split
      · rename_i hcomma
        subst hcomma
        rw [ahead_eq_delimiter hd hloop (by decide)]
        split
        · exact ahead_leave hd hs (.inr ⟨rfl, rfl⟩)
        · rename_i hscope
          have hgroup := hflush.bracket_head ((beside_flush r text s).scope ▸ hscope)
          exact ahead_pass hd hs hloop .comma rfl (Builder.take_comma_group hgroup _).symm
      · split
        · rename_i hclosing hopening hcomma hblank
          rw [ahead_eq_delimiter hd hloop (isDelimiter_of_isBlank hblank), Token.ofDelimiter,
            if_neg hopening, if_neg hclosing, if_neg hcomma]
          exact ahead_pass hd hs hloop (.blank d) rfl rfl
        · rename_i hclosing hopening hcomma hblank
          have hdelimiter : isDelimiter d = false := by
            simp [isDelimiter, hclosing, hopening, hcomma, hblank]
          split
          · rename_i hnumber
            exact ahead_extendNumber hd hs hloop hdelimiter hnumber
          · rename_i hnumber
            exact ahead_extendWord hd hs hloop hdelimiter (Bool.eq_false_of_not_eq_true hnumber)

end Iterate

/-! ## Activations that return -/

/-- What is read of a formula, when a builder has taken in its tokens. -/
def outcome (text : Text) (b : Builder) : List Part × List ParseError × List Hint :=
  (b.finish text, b.allErrors, b.hints)

/-- A parenthesis that is not closed is closed and reported at the end of the formula. -/
theorem outcome_closeUnfinished (n : Nat) (b : Builder) :
    outcome text { closeUnfinished text n b with position := n } =
      outcome text { b with position := n } := by
  rw [closeUnfinished]
  split
  · rfl
  · rename_i f outer hframes
    simp only [outcome, Builder.finish, Builder.allErrors, Builder.report, hframes,
      Builder.closeAll, Builder.unclosed, List.map_cons, List.append_assoc, List.singleton_append]

/-- **What will have been built is read alike** when an activation has returned and another one goes
on. -/
theorem outcome_resume (hs : Sound text s) {closing : Closing} {caller : Activation}
    {outer : List Activation} (hclosing : s.closing? = some closing)
    (hcallers : s.callers = caller :: outer) :
    outcome text ((s.resume text closing caller outer).ahead r text) =
      outcome text (s.ahead r text) := by
  have hfits := hs.closing closing hclosing
  have hclear : caller.word.IsClear := hs.waiting caller (by rw [hcallers]; exact List.mem_cons_self)
  cases closing with
  | parenthesis =>
    -- the parenthesis is the character before the cursor
    have hcursor : s.cursor = s.cursor - 1 + 1 := (Nat.sub_add_cancel hfits.1).symm
    refine congrArg (outcome text) ?_
    calc (s.resume text .parenthesis caller outer).ahead r text
        = Builder.run text { s.built with position := s.cursor - 1 }
            (.closing :: tokens r (text.drop (s.cursor - 1 + 1))) :=
          ahead_of_take s.built .closing (s.cursor - 1) rfl rfl hclear hcursor
            (Builder.withPosition_eq (Builder.position_take text _ .closing))
      _ = s.ahead r text := by rw [ahead, hclosing, ← hcursor]
  | comma =>
    have hcursor : s.cursor = s.cursor - 1 + 1 := (Nat.sub_add_cancel hfits.1).symm
    refine congrArg (outcome text) ?_
    calc (s.resume text .comma caller outer).ahead r text
        = Builder.run text { s.built with position := s.cursor - 1 }
            (.comma :: tokens r (text.drop (s.cursor - 1 + 1))) :=
          ahead_of_take s.built .comma (s.cursor - 1) rfl rfl Word.isClear_empty hcursor
            (Builder.withPosition_eq (Builder.position_take text _ .comma))
      _ = s.ahead r text := by rw [ahead, hclosing, ← hcursor]
  | finish =>
    have hend : s.cursor = text.length := hfits
    have hahead : (s.resume text .finish caller outer).ahead r text =
        { closeUnfinished text s.cursor s.built with position := s.cursor } := by
      refine (ahead_of_isClear rfl hclear).trans ?_
      simp only [resume, hend, List.drop_length]
      rfl
    rw [hahead, outcome_closeUnfinished, ahead, hclosing]

/-! ## Whole formulas -/

/-- The activation returns at the end of the formula. -/
theorem ahead_finish (hs : Sound text s) (hloop : s.closing? = none) (hend : text.length ≤ s.cursor) :
    ((s.flush r text).leave .finish).ahead r text = s.ahead r text := by
  have hdrop : text.drop s.cursor = [] := List.drop_eq_nil_of_le hend
  calc ((s.flush r text).leave .finish).ahead r text
      = Builder.run text { (s.flush r text).built with position := s.cursor } [] := by
        simp only [ahead, leave, cursor_flush]
        rfl
    _ = s.ahead r text := by
        rw [run_flush hs, ahead, hloop, hdrop, List.append_nil]
        rfl

/-- **A step leaves what is read of the formula as it is.** -/
theorem outcome_step (hs : Sound text s) (ha : s.IsAligned)
    (h : s.step r text = some t) :
    outcome text (t.ahead r text) = outcome text (s.ahead r text) := by
  rw [step] at h
  split at h
  · rename_i hloop
    split at h
    · rename_i c hc
      obtain rfl := Option.some.inj h
      obtain ⟨d, rfl, hd⟩ := exists_toLower_eq hc
      rw [ahead_iterate hd hs hloop ha]
    · rename_i hend
      obtain rfl := Option.some.inj h
      rw [ahead_finish hs hloop (by simpa using hend)]
  · rename_i hclosing hcallers
    obtain rfl := Option.some.inj h
    exact outcome_resume hs hclosing hcallers
  · cases h

/-- What will have been read at the end is what the tokens of the formula are built into. -/
theorem outcome_of_reaches (h : StateTransition.Reaches (step r text) start s) :
    s.IsAligned ∧
      outcome text (s.ahead r text) = outcome text (Builder.empty.run text (tokens r text)) := by
  induction h with
  | refl => exact ⟨.whole, rfl⟩
  | tail hreaches hstep ih =>
    have hs := sound_of_reaches hreaches
    exact ⟨hs.isAligned_step hstep ih.1, (outcome_step hs ih.1 hstep).trans ih.2⟩

/-- **The scan reads the formula.** -/
theorem result_eq_parse (h : StateTransition.Reaches (step r text) start s)
    (hclosing : s.closing? = some .finish) (hcallers : s.callers = []) :
    s.result r text = parse r text := by
  obtain ⟨ha, houtcome⟩ := outcome_of_reaches h
  have hframes : s.built.frames = [] := ha.frames_eq_nil hcallers
  have hahead : s.ahead r text = { s.built with position := s.cursor } := by
    rw [ahead, hclosing]
  rw [hahead, outcome, outcome, Prod.mk.injEq, Prod.mk.injEq] at houtcome
  obtain ⟨hitems, herrors, hhints⟩ := houtcome
  rw [result, parse, ← hitems, ← herrors, ← hhints]
  simp only [Builder.finish, Builder.allErrors, Builder.closeAll, Builder.unclosed, hframes,
    List.map_nil, List.append_nil]

end Scan

end Formula

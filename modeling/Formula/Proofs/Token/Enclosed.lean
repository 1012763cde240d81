import Formula.Proofs.Token.Congruence

/-!
# Tokens between parentheses and commas

Reading starts afresh after a parenthesis or a comma, and a closing parenthesis or a comma after a
text has no influence on the words in it.  So the tokens between two such marks are those of the
text between them.

The mark after the text must not be an opening parenthesis, which would make a call of a function
name at the end.
-/

namespace Formula

/-- Parentheses and commas. -/
def Token.isMark : Token → Bool
  | opening | closing | comma => true
  | _ => false

variable {r : Registry}

theorem Token.exists_of_isMark {tok : Token} (h : tok.isMark = true) :
    ∃ c, tok.text = [c] ∧ isDelimiter c = true := by
  cases tok with
  | opening => exact ⟨'(', rfl, by decide⟩
  | closing => exact ⟨')', rfl, by decide⟩
  | comma => exact ⟨',', rfl, by decide⟩
  | _ => cases h

/-- A text without a delimiter has no mark among its tokens. -/
theorem isMark_eq_false_of_solid {ts : List Token} (h : Solid (ts.flatMap Token.text)) :
    ∀ tok ∈ ts, tok.isMark = false := by
  intro tok htok
  by_contra hmark
  rw [Bool.not_eq_false] at hmark
  obtain ⟨c, hc, hdelimiter⟩ := Token.exists_of_isMark hmark
  have hmem : c ∈ ts.flatMap Token.text := List.mem_flatMap.2 ⟨tok, htok, by simp [hc]⟩
  rw [h c hmem] at hdelimiter
  cases hdelimiter

theorem isMark_eq_false_of_mem_closeWord {word following : Text} (hw : Solid word) :
    ∀ tok ∈ closeWord r word following, tok.isMark = false :=
  isMark_eq_false_of_solid (by rwa [text_closeWord])

/-- A mark is completed only by its own character, as the last token. -/
theorem eq_nil_of_readChar_mark {p : Pending} (hp : Solid p.text) {c : Char} {following : Text}
    {before after : List Token} {d : Token} (hd : d.isMark = true)
    (h : (readChar r p c following).1 = before ++ d :: after) :
    after = [] ∧ (readChar r p c following).2 = .none := by
  by_cases hc : isDelimiter c = true
  · rw [readChar_delimiter hc] at h ⊢
    rcases List.eq_nil_or_concat after with rfl | ⟨init, last, rfl⟩
    · exact ⟨rfl, rfl⟩
    · rw [List.concat_eq_append] at h
      have hinit : closeWord r p.text (c :: following) = before ++ d :: init := by
        exact (List.append_inj' (h.trans (List.append_assoc before (d :: init) [last]).symm) rfl).1
      have hmem : d ∈ closeWord r p.text (c :: following) := by simp [hinit]
      rw [isMark_eq_false_of_mem_closeWord hp d hmem] at hd
      cases hd
  · rw [Bool.not_eq_true] at hc
    have hsolid : Solid ((readChar r p c following).1.flatMap Token.text) := by
      have hall : Solid (p.text ++ [c]) := hp.append (by simpa [Solid] using hc)
      rw [← text_readChar r p c following] at hall
      exact fun e he => hall e (List.mem_append_left _ he)
    rw [isMark_eq_false_of_solid hsolid d (by simp [h])] at hd
    cases hd

theorem eq_tokens_of_tokensFrom {p : Pending} (hp : Solid p.text) {t : Text}
    {before after : List Token} {d : Token} (hd : d.isMark = true)
    (h : tokensFrom r p t = before ++ d :: after) : after = tokens r (after.flatMap Token.text) := by
  induction t generalizing p before with
  | nil =>
    have hmem : d ∈ closeWord r p.text [] := by
      rw [tokensFrom] at h
      simp [h]
    rw [isMark_eq_false_of_mem_closeWord hp d hmem] at hd
    cases hd
  | cons c following ih =>
    have hsolid := ((reads_fits r).readChar hp c following).2
    rw [tokensFrom_cons] at h
    rcases List.append_eq_append_iff.1 h with ⟨rest, rfl, hrest⟩ | ⟨rest, hfirst, hrest⟩
    · exact ih hsolid hrest
    · cases rest with
      | nil =>
        have hfollowing : tokensFrom r (readChar r p c following).2 following = [] ++ d :: after :=
          hrest.symm
        exact ih hsolid hfollowing
      | cons e rest =>
        obtain ⟨rfl, hafter⟩ := List.cons.inj hrest
        obtain ⟨rfl, hnone⟩ := eq_nil_of_readChar_mark hp hd hfirst
        have hfollowing : after = tokensFrom r .none following := hnone ▸ hafter
        rw [hfollowing, text_tokensFrom]
        rfl

/-- **Reading starts afresh after a parenthesis or a comma.** -/
theorem eq_tokens_of_mark {t : Text} {before after : List Token} {d : Token}
    (hd : d.isMark = true) (h : tokens r t = before ++ d :: after) :
    after = tokens r (after.flatMap Token.text) :=
  eq_tokens_of_tokensFrom (by simp [Solid]) hd h

/-- **Reading ends before a closing parenthesis or a comma as at the end of the formula.** -/
theorem tokensFrom_append_mark {c : Char} (hc : c = ')' ∨ c = ',') (p : Pending) (s rest : Text) :
    tokensFrom r p (s ++ c :: rest) = tokensFrom r p s ++ .ofDelimiter c :: tokens r rest := by
  have hlook : ∀ s : Text, Lookahead (s ++ c :: rest) s := by
    intro s
    rcases hc with rfl | rfl
    · exact lookahead_append_cons (by decide) (by decide) (by decide) s rest
    · exact lookahead_append_cons (by decide) (by decide) (by decide) s rest
  have hdelimiter : isDelimiter c = true := by
    rcases hc with rfl | rfl <;> decide
  induction s generalizing p with
  | nil =>
    have hclose := closeWord_congr (.refl r p.text) (hlook []) (List.Subset.refl p.text)
    rw [List.nil_append, tokensFrom_cons, readChar_delimiter hdelimiter, tokensFrom, ← hclose]
    simp [tokens]
  | cons d s ih =>
    have hp : p.text ⊆ p.text ++ [d] := List.subset_append_left _ _
    have hread := readChar_congr (.refl r (p.text ++ [d])) (hlook s) hp (c := d) (by simp)
    rw [List.cons_append, tokensFrom_cons, tokensFrom_cons, hread, ih, List.append_assoc]

/-- **The tokens between two marks**, the second of which is no opening parenthesis or the end of the
formula, are those of the text between them. -/
theorem eq_tokens_between {t : Text} {before mid after : List Token} {d : Token}
    (hd : d.isMark = true) (h : tokens r t = before ++ d :: (mid ++ after))
    (hafter : ∀ tok ∈ after.head?, tok = .closing ∨ tok = .comma) :
    tokens r (mid.flatMap Token.text) = mid := by
  have hrest := eq_tokens_of_mark hd h
  cases after with
  | nil =>
    rw [List.append_nil] at hrest
    exact hrest.symm
  | cons e after =>
    have he : e.isMark = true := by
      rcases hafter e rfl with rfl | rfl <;> rfl
    have hsplit : tokens r t = (before ++ d :: mid) ++ e :: after := by
      rw [h, List.append_assoc, List.cons_append]
    have hlast : after = tokens r (after.flatMap Token.text) := eq_tokens_of_mark he hsplit
    obtain ⟨c, hc, htext, hofDelimiter⟩ :
        ∃ c, (c = ')' ∨ c = ',') ∧ e.text = [c] ∧ Token.ofDelimiter c = e := by
      rcases hafter e rfl with rfl | rfl
      · exact ⟨')', .inl rfl, rfl, rfl⟩
      · exact ⟨',', .inr rfl, rfl, rfl⟩
    rw [List.flatMap_append, List.flatMap_cons, htext, List.singleton_append, tokens,
      tokensFrom_append_mark hc, hofDelimiter, ← hlast] at hrest
    exact (List.append_cancel_right hrest).symm

end Formula

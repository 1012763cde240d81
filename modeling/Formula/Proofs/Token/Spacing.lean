import Formula.Proofs.Token.Congruence

/-!
# Blanks between words

A word is ended by a delimiter, and looks at nothing after it but for an opening parenthesis or a
digit.  So if a blank is replaced by other blanks, the tokens around it stay the same.  It may even
be left out where no word touches it, or one at one side only.
-/

namespace Formula

/-- Whether two texts may be joined without a blank between them: the first one ends with a
delimiter, or the second one starts with a delimiter, or one of them is empty. -/
def Loose (s v : Text) : Prop :=
  s.getLast?.all isDelimiter = true ∨ endsWord v = true

variable {r : Registry} {s u v gap : Text} {b : Char}

/-- **A text is read alike before texts that end a word alike.** -/
theorem exists_tokensFrom_append (hu : endsWord u = true) (hv : endsWord v = true)
    (hlook : Lookahead u v) (p : Pending) (s : Text) :
    ∃ ts, ts.flatMap Token.text = p.text ++ s ∧
      tokensFrom r p (s ++ u) = ts ++ tokensFrom r .none u ∧
      tokensFrom r p (s ++ v) = ts ++ tokensFrom r .none v := by
  induction s generalizing p with
  | nil =>
    have hclose := closeWord_congr (.refl r p.text) hlook (List.Subset.refl p.text)
    refine ⟨closeWord r p.text u, ?_, tokensFrom_of_endsWord hu p, ?_⟩
    · rw [text_closeWord, List.append_nil]
    · rw [List.nil_append, tokensFrom_of_endsWord hv, hclose]
  | cons c s ih =>
    have hp : p.text ⊆ p.text ++ [c] := List.subset_append_left _ _
    have hread : readChar r p c (s ++ u) = readChar r p c (s ++ v) :=
      readChar_congr (.refl r (p.text ++ [c])) (hlook.append s) hp (by simp)
    have htext := text_readChar r p c (s ++ u)
    obtain ⟨ts, hts, hu, hv⟩ := ih (readChar r p c (s ++ u)).2
    refine ⟨(readChar r p c (s ++ u)).1 ++ ts, ?_, ?_, ?_⟩
    · rw [List.flatMap_append, hts, ← List.append_assoc, htext, List.append_assoc]
      rfl
    · rw [List.cons_append, tokensFrom_cons, hu, List.append_assoc]
    · rw [List.cons_append, tokensFrom_cons, ← hread, hv, List.append_assoc]

theorem startsCall_append_blanks (hgap : ∀ c ∈ gap, isBlank c = true) :
    startsCall (gap ++ v) = startsCall v := by
  rw [startsCall, startsCall, List.dropWhile_append_of_pos hgap]

theorem isDigit_of_isDelimiter {c : Char} (hc : isDelimiter c = true) : c.isDigit = false := by
  rw [Bool.eq_false_iff]
  intro hdigit
  obtain ⟨h, h'⟩ := (isDigit_iff c).1 hdigit
  rw [isDelimiter_eq_false h (by omega)] at hc
  cases hc

theorem isDigit_head_of_endsWord (hv : endsWord v = true) : v.head?.any Char.isDigit = false := by
  cases v with
  | nil => rfl
  | cons c v => exact isDigit_of_isDelimiter (by simpa [endsWord] using hv)

theorem tokensFrom_append_blanks (hgap : ∀ c ∈ gap, isBlank c = true) :
    tokensFrom r .none (gap ++ v) = gap.map .blank ++ tokensFrom r .none v := by
  induction gap with
  | nil => rfl
  | cons c gap ih =>
    obtain ⟨hc, hgap⟩ := List.forall_mem_cons.1 hgap
    rw [List.cons_append, tokensFrom_delimiter (isDelimiter_of_isBlank hc), ih hgap,
      ofDelimiter_of_isBlank hc]
    rfl

theorem endsWord_append_blanks (hgap : ∀ c ∈ gap, isBlank c = true) (hne : gap ≠ []) (v : Text) :
    endsWord (gap ++ v) = true := by
  obtain ⟨c, gap, rfl⟩ := List.exists_cons_of_ne_nil hne
  simpa [endsWord] using isDelimiter_of_isBlank (hgap c List.mem_cons_self)

/-- **A blank that is replaced** by other blanks, or left out where it is not needed. -/
theorem exists_tokens_respaced (r : Registry) (hb : isBlank b = true)
    (hgap : ∀ c ∈ gap, isBlank c = true) (hloose : gap = [] → Loose s v) :
    ∃ ts, ts.flatMap Token.text = s ∧ tokens r (s ++ b :: v) = ts ++ .blank b :: tokens r v ∧
      tokens r (s ++ (gap ++ v)) = ts ++ (gap.map .blank ++ tokens r v) := by
  have hdelimiter := isDelimiter_of_isBlank hb
  have hblank : tokensFrom r .none (b :: v) = .blank b :: tokens r v := by
    rw [tokensFrom_delimiter hdelimiter, ofDelimiter_of_isBlank hb]
    rfl
  have hgaps : tokensFrom r .none (gap ++ v) = gap.map .blank ++ tokens r v :=
    tokensFrom_append_blanks hgap
  have hcalls : startsCall (b :: v) = startsCall (gap ++ v) := by
    rw [startsCall_cons, hb, if_pos rfl, startsCall_append_blanks hgap]
  by_cases hends : endsWord (gap ++ v) = true
  · have hlook : Lookahead (b :: v) (gap ++ v) := by
      refine ⟨hcalls, ?_⟩
      rw [isDigit_head_of_endsWord hends, List.head?_cons]
      exact isDigit_of_isDelimiter hdelimiter
    obtain ⟨ts, hts, hbefore, hafter⟩ := exists_tokensFrom_append (r := r)
      (by simpa [endsWord] using hdelimiter) hends hlook .none s
    exact ⟨ts, hts, by rw [tokens, hbefore, hblank], by rw [tokens, hafter, hgaps]⟩
  · obtain rfl : gap = [] := by
      by_contra hne
      exact hends (endsWord_append_blanks hgap hne v)
    have hs : s.getLast?.all isDelimiter = true := (hloose rfl).resolve_right hends
    rcases List.eq_nil_or_concat s with rfl | ⟨s, d, rfl⟩
    · exact ⟨[], rfl, hblank, hgaps⟩
    · -- The word before the delimiter is ended by it, whatever comes after it.
      rw [List.concat_eq_append] at hs ⊢
      have hd : isDelimiter d = true := by simpa using hs
      have hlook : Lookahead (d :: b :: v) (d :: ([] ++ v)) := by
        refine ⟨?_, rfl⟩
        rw [startsCall_cons d, startsCall_cons d, hcalls]
      obtain ⟨ts, hts, hbefore, hafter⟩ := exists_tokensFrom_append (r := r)
        (by simpa [endsWord] using hd) (by simpa [endsWord] using hd) hlook .none s
      rw [tokensFrom_delimiter hd, hblank] at hbefore
      rw [tokensFrom_delimiter hd, hgaps] at hafter
      refine ⟨ts ++ [.ofDelimiter d], ?_, ?_, ?_⟩
      · rw [List.flatMap_append, hts]
        simp
      · rw [tokens, List.append_assoc, List.append_assoc]
        exact hbefore
      · rw [tokens, List.append_assoc, List.append_assoc]
        exact hafter

end Formula

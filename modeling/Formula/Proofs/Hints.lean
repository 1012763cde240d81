import Formula.Proofs.Places
import Formula.Proofs.UnknownRuns

/-!
# A name that is not called is an error

A function name that is not called is taken apart into other symbols, and a hint says so.  A name that
came apart into known symbols would change the meaning of the formula without an error.  With the
standard symbols this cannot happen: no literal is the start of another one, so nothing can be read
where the name begins, and its first character is unknown (`Token.Fits.isUnknown_of_uncalled`).

This looks at the characters only, not at how a name is taken apart: the token where the name begins
and the name are written at the same position, so one of them is the start of the other.
-/

namespace Formula

variable {r : Registry} {following name more : Text} {tok : Token} {ts : List Token}

/-- Literals that are words, and that cannot be mistaken for numbers or for one another. -/
structure Registry.IsSeparated (r : Registry) : Prop where
  /-- No literal starts like a number. -/
  leavesNumerals : r.LeavesNumerals
  /-- No literal has a delimiter. -/
  solid : ∀ s ∈ r.symbols, Solid s.literal
  /-- No literal is the start of another one. -/
  startingWith : ∀ s ∈ r.symbols, r.startingWith s.key = [s]

theorem isSeparated_standard : Registry.standard.IsSeparated where
  leavesNumerals := leavesNumerals_standard
  solid _ hs := solid_standard hs
  startingWith _ hs := startingWith_standard hs

theorem Registry.IsSeparated.eq_of_prefix (hr : r.IsSeparated) {s t : Symbol}
    (hs : s ∈ r.symbols) (ht : t ∈ r.symbols) (h : s.key <+: t.key) : s = t := by
  have hmem : t ∈ r.startingWith s.key := mem_startingWith ht h
  rw [hr.startingWith s hs] at hmem
  exact (List.mem_singleton.1 hmem).symm

/-- A symbol that is written where a name begins is the name. -/
theorem Registry.IsSeparated.eq_name (hr : r.IsSeparated) {s t : Symbol} (hs : s ∈ r.symbols)
    (ht : t ∈ r.symbols) {w : Text} (hw : w.lower = s.key) (hname : name.lower = t.key)
    (htext : w ++ following = name ++ more) : s = t ∧ following = more := by
  have hwprefix : w <+: name ++ more := ⟨following, htext⟩
  have hst : s = t := by
    rcases List.prefix_or_prefix_of_prefix hwprefix (List.prefix_append name more) with h | h
    · refine hr.eq_of_prefix hs ht ?_
      rw [← hw, ← hname]
      exact h.map _
    · refine (hr.eq_of_prefix ht hs ?_).symm
      rw [← hw, ← hname]
      exact h.map _
  have hlength : w.length = name.length := by
    rw [← Text.length_lower w, hw, hst, ← hname, Text.length_lower]
  exact ⟨hst, (List.append_inj htext hlength).2⟩

/-- **Nothing can be read where a name begins** that is not called. -/
theorem Token.Fits.isUnknown_of_uncalled (htok : tok.Fits r following) (hr : r.IsSeparated)
    (hname : (Token.uncalled name).LeavesUncalled r (tok.text ++ following))
    (hhint : tok.isHint = false) : tok.isUnknown = true := by
  obtain ⟨⟨f, hf, hlower⟩, more, htext, hmore⟩ := hname
  have hne : name ≠ [] := Registry.ne_nil_of_lower hf hlower
  have hhead : tok.text.head? = name.head? := by
    rw [← List.head?_append_of_ne_nil _ (htok.text_ne_nil hhint), htext,
      List.head?_append_of_ne_nil _ hne]
  have hnumeral : continuesNumeral tok.text = false := by
    rw [continuesNumeral, hhead]
    exact continuesNumeral_eq_false hr.leavesNumerals hf (hlower ▸ List.prefix_rfl)
  have hword : endsWord tok.text = false := by
    have hsolid : Solid name := by
      rw [← solid_lower, hlower, solid_lower]
      exact hr.solid _ hf
    rw [endsWord, hhead]
    cases name with
    | nil => exact absurd rfl hne
    | cons c w => exact hsolid c List.mem_cons_self
  cases tok with
  | unknown c => rfl
  | uncalled n => cases hhint
  | opening | closing | comma => cases hword
  | repeatedPoint => cases hnumeral
  | blank c =>
    have hc : endsWord [c] = true := isDelimiter_of_isBlank htok
    rw [Token.text, hc] at hword
    cases hword
  | number n =>
    rw [Token.text, continuesNumeral_of_isPlain htok] at hnumeral
    cases hnumeral
  | symbol s w =>
    -- It would be the name itself, which is a symbol before a call only.
    obtain ⟨hs, hw, -, hcall⟩ := htok
    obtain ⟨rfl, rfl⟩ := hr.eq_name hs hf hw hlower htext
    rw [hcall rfl] at hmore
    cases hmore

/-- So the first token of the name is an unknown character.  Other hints may stand before it. -/
theorem exists_unknown_of_uncalled (hr : r.IsSeparated) (hts : InContext (Token.Fits r) [] ts)
    (hname : (Token.uncalled name).LeavesUncalled r (ts.flatMap Token.text ++ [])) (n : Nat) :
    ∃ e ∈ unknownsFrom n ts, e.start = n := by
  induction ts with
  | nil =>
    obtain ⟨⟨f, hf, hlower⟩, more, htext, -⟩ := hname
    exact absurd (List.append_eq_nil_iff.1 htext.symm).1 (Registry.ne_nil_of_lower hf hlower)
  | cons tok ts ih =>
    obtain ⟨htok, hrest⟩ := hts
    cases hhint : tok.isHint with
    | true =>
      cases tok with
      | uncalled m => exact ih hrest hname
      | _ => cases hhint
    | false =>
      rw [List.flatMap_cons, List.append_assoc] at hname
      have hunknown := htok.isUnknown_of_uncalled hr hname hhint
      cases tok with
      | unknown c => exact ⟨_, List.mem_cons_self, rfl⟩
      | _ => cases hunknown

/-- The hints that tokens leave of which the first one is at position `n`. -/
def hintsFrom : Nat → List Token → List Hint
  | _, [] => []
  | n, .uncalled name :: ts => ⟨name, n⟩ :: hintsFrom n ts
  | n, tok :: ts => hintsFrom (n + tok.text.length) ts

theorem mem_unknownsFrom_cons {n : Nat} {e : ParseError}
    (h : e ∈ unknownsFrom (n + tok.text.length) ts) : e ∈ unknownsFrom n (tok :: ts) := by
  cases tok with
  | unknown c => exact List.mem_cons_of_mem _ h
  | _ => exact h

/-- **A hint is followed by an unknown character** at the same position. -/
theorem exists_unknown_of_mem_hintsFrom (hr : r.IsSeparated)
    (hfits : InContext (Token.Fits r) [] ts) (huncalled : InContext (Token.LeavesUncalled r) [] ts)
    {n : Nat} {h : Hint} (hh : h ∈ hintsFrom n ts) :
    ∃ e ∈ unknownsFrom n ts, e.start = h.start := by
  induction ts generalizing n with
  | nil => cases hh
  | cons tok ts ih =>
    obtain ⟨-, hfits⟩ := hfits
    obtain ⟨hname, huncalled⟩ := huncalled
    have hlater (hmem : h ∈ hintsFrom (n + tok.text.length) ts) :
        ∃ e ∈ unknownsFrom n (tok :: ts), e.start = h.start := by
      obtain ⟨e, he, hstart⟩ := ih hfits huncalled hmem
      exact ⟨e, mem_unknownsFrom_cons he, hstart⟩
    cases tok with
    | uncalled name =>
      rcases List.mem_cons.1 hh with rfl | hmem
      · exact exists_unknown_of_uncalled hr hfits hname n
      · exact hlater hmem
    | _ => exact hlater hh

/-- **The hints that the builder gives** are those of the tokens. -/
theorem hints_run {text : Text} (b : Builder) (ts : List Token) :
    (b.run text ts).hints = b.hints ++ hintsFrom b.position ts := by
  induction ts generalizing b with
  | nil => exact (List.append_nil _).symm
  | cons tok ts ih =>
    rw [Builder.run_cons, ih, Builder.hints_step, Builder.position_step, List.append_assoc]
    cases tok <;> rfl

/-- **Every hint stands at an unknown character.** -/
theorem isUnknownAt_of_mem_hints (hr : r.IsSeparated) {text : Text} {h : Hint}
    (hh : h ∈ (parse r text).hints) : (parse r text).isUnknownAt h.start = true := by
  have hhints : (parse r text).hints = hintsFrom 0 (tokens r text) := hints_run .empty _
  rw [hhints] at hh
  exact (isUnknownAt_parse r text h.start).2
    (exists_unknown_of_mem_hintsFrom hr (fits_tokens r text) (leavesUncalled_tokens r text) hh)

/-- **No hint without an error on the name**, with the standard symbols.  The first character of a
name that is not called belongs to an unknown identifier, so a formula without errors leaves no
hints. -/
theorem hints_parse_standard (text : Text) :
    (∀ h ∈ (parse .standard text).hints, 0 < h.length ∧ h.start + h.length ≤ text.length ∧
      ∃ e ∈ (parse .standard text).errors, ∃ identifier,
        e.cause = .unknownIdentifier identifier ∧ e.start ≤ h.start ∧ h.start < e.stop) ∧
    ((parse .standard text).hints ≠ [] → (parse .standard text).errors ≠ []) ∧
    ((parse .standard text).isClean = true → (parse .standard text).hints = []) := by
  have herror : ∀ h ∈ (parse .standard text).hints, ∃ e ∈ (parse .standard text).errors,
      ∃ identifier, e.cause = .unknownIdentifier identifier ∧
        e.start ≤ h.start ∧ h.start < e.stop := by
    intro h hh
    obtain ⟨e, he, hcovers⟩ :=
      List.any_eq_true.1 (isUnknownAt_of_mem_hints isSeparated_standard hh)
    obtain ⟨hidentifier, hcovers⟩ := Bool.and_eq_true_iff.1 hcovers
    obtain ⟨identifier, hcause⟩ := ParseError.isSome_identifier?_iff.1 hidentifier
    exact ⟨e, he, identifier, hcause, ParseError.covers_eq_true_iff.1 hcovers⟩
  have herrors : (parse .standard text).hints ≠ [] → (parse .standard text).errors ≠ [] := by
    intro hne
    obtain ⟨h, hh⟩ := List.exists_mem_of_ne_nil _ hne
    obtain ⟨e, he, -⟩ := herror h hh
    exact List.ne_nil_of_mem he
  refine ⟨fun h hh => ⟨?_, ?_, herror h hh⟩, herrors, fun hclean => ?_⟩
  · obtain ⟨⟨f, hf, hlower⟩, -, -⟩ := (Builder.pointed_tokens .standard text).hints h hh
    exact List.length_pos_of_ne_nil (Registry.ne_nil_of_lower hf hlower)
  · exact ((Builder.pointed_tokens .standard text).hints h hh).stands.1
  · by_contra hne
    exact herrors hne (List.isEmpty_iff.1 hclean)

/-- A name before a variable leaves a hint and an error, and a call leaves neither. -/
theorem hints_parse_standard_sine :
    (parse .standard "2sinx".toList).hints = [⟨"sin".toList, 1⟩] ∧
      (∃ e ∈ (parse .standard "2sinx".toList).errors, ∃ identifier,
        e.cause = .unknownIdentifier identifier ∧ e.start ≤ 1 ∧ 1 < e.stop) ∧
      (parse .standard "2sinx".toList).errors ≠ [] ∧
      (parse .standard "2sin(x)".toList).hints = [] := by
  have hhints : (parse .standard "2sinx".toList).hints = [⟨"sin".toList, 1⟩] := by decide +kernel
  have hmem : ⟨"sin".toList, 1⟩ ∈ (parse .standard "2sinx".toList).hints := by
    rw [hhints]
    exact List.mem_cons_self
  obtain ⟨herror, herrors, -⟩ := hints_parse_standard "2sinx".toList
  refine ⟨hhints, (herror _ hmem).2.2, herrors (List.ne_nil_of_mem hmem), ?_⟩
  exact (hints_parse_standard "2sin(x)".toList).2.2 (by decide +kernel)

end Formula

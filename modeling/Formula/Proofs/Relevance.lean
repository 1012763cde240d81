import Formula.Compile
import Formula.Proofs.Token.Congruence

/-!
# The symbols that matter for a formula

A symbol can be found in a formula only if its first character occurs there.  Registries with the
same symbols of this kind, registered in any order, read the formula alike.
-/

namespace Formula

variable {r r' : Registry} {text : Text}

theorem tokensFrom_congr (h : r.AgreeOn r' text) {p : Pending} (hp : p.text ⊆ text) {t : Text}
    (ht : t ⊆ text) : tokensFrom r p t = tokensFrom r' p t := by
  induction t generalizing p with
  | nil => rw [tokensFrom, tokensFrom, closeWord_congr h (.refl _) hp]
  | cons c following ih =>
    obtain ⟨hc, hfollowing⟩ := List.cons_subset.1 ht
    have hpending : (readChar r p c following).2.text ⊆ text := by
      have hsplit := text_readChar r p c following
      intro d hd
      have hmem : d ∈ p.text ++ [c] := hsplit ▸ List.mem_append_right _ hd
      exact List.append_subset.2 ⟨hp, List.cons_subset.2 ⟨hc, List.nil_subset _⟩⟩ hmem
    rw [tokensFrom_cons, tokensFrom_cons, ih hpending hfollowing, readChar_congr h (.refl _) hp hc]

/-- **The tokens of a formula depend only on the symbols that may begin in it.** -/
theorem tokens_congr (h : r.AgreeOn r' text) : tokens r text = tokens r' text :=
  tokensFrom_congr h (List.nil_subset _) (List.Subset.refl _)

/-- A compiled formula depends on the registry through the operator between neighbouring values
only. -/
theorem compile_congr {p q : Parse} (hitems : p.items = q.items) (herrors : p.errors = q.errors)
    (hmul : p.registry.multiplication? = q.registry.multiplication?) : compile p = compile q := by
  have htable : SymbolTable.ofParse p = SymbolTable.ofParse q := by
    simp only [SymbolTable.ofParse, Parse.freeVariables, hitems, hmul]
  rw [compile, compile, hitems, herrors, htable]

/-- **Reading depends only on the symbols that may begin in the formula.**  Registries that have the
same ones, registered in any order, give the same tree, the same errors and the same hints, and if
they also have the same multiplication, the formula is compiled to the same result. -/
theorem parse_congr (r r' : Registry) (text : Text) (h : r.AgreeOn r' text) :
    (parse r text).items = (parse r' text).items ∧
    (parse r text).errors = (parse r' text).errors ∧
    (parse r text).hints = (parse r' text).hints ∧
    (r.multiplication? = r'.multiplication? →
      compile (parse r text) = compile (parse r' text)) := by
  have htokens := tokens_congr h
  have hitems : (parse r text).items = (parse r' text).items := by simp only [parse, htokens]
  have herrors : (parse r text).errors = (parse r' text).errors := by simp only [parse, htokens]
  refine ⟨hitems, herrors, by simp only [parse, htokens], ?_⟩
  intro hmul
  exact compile_congr hitems herrors hmul

/-- The standard symbols in reverse order, after one that does not occur. -/
theorem parse_congr_reverse : ∃ r', Registry.ofSymbols (.free ['q'] :: standardSymbols.reverse) =
      .ok r' ∧ Registry.standard.AgreeOn r' "Sinx 2(y)mi".toList ∧
    (parse .standard "Sinx 2(y)mi".toList).items = (parse r' "Sinx 2(y)mi".toList).items ∧
    (parse .standard "Sinx 2(y)mi".toList).errors = (parse r' "Sinx 2(y)mi".toList).errors ∧
    (parse .standard "Sinx 2(y)mi".toList).hints = (parse r' "Sinx 2(y)mi".toList).hints ∧
    (Registry.standard.multiplication? = r'.multiplication? →
      compile (parse .standard "Sinx 2(y)mi".toList) =
        compile (parse r' "Sinx 2(y)mi".toList)) := by
  have hok : (Registry.ofSymbols (.free ['q'] :: standardSymbols.reverse)).isOk = true := by
    decide +kernel
  cases hr' : Registry.ofSymbols (.free ['q'] :: standardSymbols.reverse) with
  | error e => rw [hr'] at hok; cases hok
  | ok r' =>
    have hagree : Registry.standard.AgreeOn r' "Sinx 2(y)mi".toList := by
      intro s hs
      rw [Registry.mem_standard, Registry.mem_ofSymbols hr', List.mem_cons, List.mem_reverse]
      refine ⟨.inr, ?_⟩
      rintro (rfl | hmem)
      · obtain ⟨c, hc, d, hd, hcd⟩ := hs
        obtain rfl : 'q' = c := by simpa [Symbol.literal] using hc
        have hq : "Sinx 2(y)mi".toList.all (fun d => 'q'.toLower ≠ d.toLower) = true := by decide
        exact absurd hcd (of_decide_eq_true (List.all_eq_true.1 hq d hd))
      · exact hmem
    exact ⟨r', rfl, hagree, parse_congr _ _ _ hagree⟩

end Formula

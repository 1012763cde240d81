import Formula.Proofs.Registry.Standard
import Formula.Proofs.Token.Separation

/-!
# Tokens of the standard symbols

No standard literal starts like a number, and none is the start of another one, so every standard
symbol can be told from what follows it.
-/

namespace Formula

theorem leavesNumerals_standard : Registry.standard.LeavesNumerals := by
  have h : standardSymbols.all (fun s => s.literal.head?.all fun c => !c.isDigit && c ≠ '.') =
      true := by decide +kernel
  intro s hs c hc
  have hall := List.all_eq_true.1 h s (Registry.mem_standard.1 hs)
  have hhead := (Option.all_eq_true _ _).1 hall c hc
  simpa using hhead

theorem solid_standard {s : Symbol} (hs : s ∈ Registry.standard.symbols) : Solid s.literal := by
  have h : standardSymbols.all (fun s => decide (Solid s.literal)) = true := by decide +kernel
  simpa using List.all_eq_true.1 h s (Registry.mem_standard.1 hs)

theorem startingWith_standard {s : Symbol} (hs : s ∈ Registry.standard.symbols) :
    Registry.standard.startingWith s.key = [s] := by
  have h : standardSymbols.all (fun s => standardSymbols.all fun t =>
      !s.key.isPrefixOf t.key || s.key == t.key) = true := by decide +kernel
  refine startingWith_key_eq_singleton hs ?_
  intro t ht hprefix
  have hpair := List.all_eq_true.1 (List.all_eq_true.1 h s (Registry.mem_standard.1 hs)) t
    (Registry.mem_standard.1 ht)
  have hstart : s.key.isPrefixOf t.key = true := List.isPrefixOf_iff_prefix.2 hprefix
  simpa [hstart] using hpair

end Formula

import Formula.Proofs.Grammar.Completion

/-!
# Scopes from the front

The first token of a scope says what the rest of it is, and so does the first token of those that
complete all open scopes, as long as no calls are open.
-/

namespace Formula

variable {g : Grammar} {last : Last} {tok : Token} {ts : List Token}

namespace Scope

theorem of_nil (h : Scope g last []) : last.isComplete = true := by
  cases h with
  | nil hlast => exact hlast

theorem of_blank {c : Char} (h : Scope g last (.blank c :: ts)) : Scope g last ts := by
  cases h with
  | silent htok rest => exact rest

theorem of_number {n : Text} (h : Scope g last (.number n :: ts)) : Scope g .value ts := by
  cases h with
  | silent htok => cases htok
  | number rest => exact rest

theorem of_constant {literal expression w : Text}
    (h : Scope g last (.symbol (.constant literal expression) w :: ts)) : Scope g .value ts := by
  cases h with
  | silent htok => cases htok
  | constant rest => exact rest

theorem of_free {literal w : Text} (h : Scope g last (.symbol (.free literal) w :: ts)) :
    Scope g .value ts := by
  cases h with
  | silent htok => cases htok
  | free rest => exact rest

theorem of_operator {op : Operator} {w : Text} (h : Scope g last (.symbol (.operator op) w :: ts)) :
    Scope g (.operator (g.needsRight op)) ts ∧
      (g.needsLeft op = true → last.isValue = true) := by
  cases h with
  | silent htok => cases htok
  | operator hleft rest => exact ⟨rest, hleft⟩

theorem of_opening (h : Scope g last (.opening :: ts)) :
    ∃ inner rest, ts = inner ++ [Token.closing] ++ rest ∧ Scope g .nothing inner ∧
      Scope g .value rest := by
  cases h with
  | silent htok => cases htok
  | group hinner rest => exact ⟨_, _, rfl, hinner, rest⟩

/-- No scope begins with what ends one, or with what could not be read. -/
theorem not_cons (htok : tok = .closing ∨ tok = .comma ∨ tok.isReadable = false) :
    ¬ Scope g last (tok :: ts) := by
  intro h
  rcases htok with rfl | rfl | hread
  · cases h with
    | silent htok => cases htok
  · cases h with
    | silent htok => cases htok
  · rw [h.isReadable tok List.mem_cons_self] at hread
    cases hread

end Scope

/-- Whether all open parentheses begin groups. -/
def OnlyGroups (frames : List Frame) : Prop := ∀ f ∈ frames, f.bracket = .group

namespace Completes

variable {frames : List Frame}

/-- A token that does not leave the innermost scope begins what is left of it. -/
theorem exists_scope (h : Completes frames last (tok :: ts)) (hgroups : OnlyGroups frames)
    (hclosing : tok ≠ .closing) : ∃ us, Scope .declared last (tok :: us) ∧
      ∀ last', Scope .declared last' us → Completes frames last' ts := by
  match frames, h with
  | [], h => exact ⟨ts, h, fun _ hts => hts⟩
  | ⟨.group, _, _⟩ :: outer, h =>
    obtain ⟨inner, rest, heq, hinner, hrest⟩ := h
    cases inner with
    | nil => exact absurd (List.cons.inj heq).1 hclosing
    | cons t inner =>
      obtain ⟨rfl, rfl⟩ := List.cons.inj heq
      exact ⟨inner, hinner, fun _ hnext => ⟨inner, rest, rfl, hnext, hrest⟩⟩
  | ⟨.call _ _ _ _, _, _⟩ :: _, _ => cases hgroups _ List.mem_cons_self

/-- A parenthesis that opens a group. -/
theorem opening (h : Completes frames last (.opening :: ts)) (hgroups : OnlyGroups frames)
    (position : Nat) (before : List Part) :
    Completes (⟨.group, position, before⟩ :: frames) .nothing ts := by
  match frames, h with
  | [], h => exact h.of_opening
  | ⟨.group, _, _⟩ :: outer, h =>
    obtain ⟨scope, rest, heq, hscope, hrest⟩ := h
    cases scope with
    | nil => cases (List.cons.inj heq).1
    | cons t scope =>
      obtain ⟨rfl, rfl⟩ := List.cons.inj heq
      obtain ⟨inner, more, rfl, hinner, hmore⟩ := hscope.of_opening
      exact ⟨inner, more ++ [Token.closing] ++ rest, by simp, hinner, more, rest, rfl, hmore, hrest⟩
  | ⟨.call _ _ _ _, _, _⟩ :: _, _ => cases hgroups _ List.mem_cons_self

/-- A parenthesis that closes a group. -/
theorem closing (h : Completes frames last (.closing :: ts)) (hgroups : OnlyGroups frames) :
    ∃ position before outer, frames = ⟨.group, position, before⟩ :: outer ∧
      last.isComplete = true ∧ Completes outer .value ts := by
  match frames, h with
  | [], h => exact absurd h (Scope.not_cons (.inl rfl))
  | ⟨.group, position, before⟩ :: outer, h =>
    obtain ⟨scope, rest, heq, hscope, hrest⟩ := h
    cases scope with
    | nil =>
      obtain rfl := (List.cons.inj heq).2
      exact ⟨position, before, outer, rfl, hscope.of_nil, hrest⟩
    | cons t scope =>
      obtain ⟨rfl, -⟩ := List.cons.inj heq
      exact absurd hscope (Scope.not_cons (.inl rfl))
  | ⟨.call _ _ _ _, _, _⟩ :: _, _ => cases hgroups _ List.mem_cons_self

/-- At the end, nothing is open. -/
theorem of_nil (h : Completes frames last []) (hgroups : OnlyGroups frames) :
    frames = [] ∧ last.isComplete = true := by
  match frames, h with
  | [], h => exact ⟨rfl, Scope.of_nil h⟩
  | ⟨.group, _, _⟩ :: outer, h =>
    obtain ⟨inner, rest, heq, -, -⟩ := h
    simp at heq
  | ⟨.call _ _ _ _, _, _⟩ :: _, _ => cases hgroups _ List.mem_cons_self

/-- What ends no group and could not be read completes nothing. -/
theorem not_cons (hgroups : OnlyGroups frames) (htok : tok = .comma ∨ tok.isReadable = false) :
    ¬ Completes frames last (tok :: ts) := by
  intro h
  have hclosing : tok ≠ .closing := by
    rintro rfl
    rcases htok with htok | htok <;> cases htok
  obtain ⟨us, hus, -⟩ := h.exists_scope hgroups hclosing
  exact Scope.not_cons (.inr htok) hus

end Completes

end Formula

import Formula.Token.Basic
import Mathlib.Data.List.TakeDrop
import Mathlib.Tactic.Common

/-!
# The grammar of formulas

A formula is a list of tokens that nests in *scopes*: the whole formula, the inside of a group, and
each slot of a call.  In a scope stand values and operators, with blanks between them.  A scope is
read from left to right, and what may come next depends on what stands last in it.

Which operators need an operand and how many arguments a function takes is left to a `Grammar`, so
that the rules can be taken from the declarations of the symbols or written down for a given list of
symbols.  A scope keeps its tokens when the rules are exchanged for rules that agree on its symbols
(`Scope.transfer`).
-/

namespace Formula

/-- The operands that operators need and the numbers of arguments that functions take. -/
structure Grammar where
  /-- Whether an operator needs a value before it. -/
  needsLeft : Operator → Bool
  /-- Whether an operator needs something after it. -/
  needsRight : Operator → Bool
  /-- Whether a function takes a number of arguments. -/
  takes : Operation → Nat → Bool

/-- The number of arguments that slots supply, given which of them are blank: none if there is a
single slot and it is blank. -/
def slotCount : List Bool → Nat
  | [true] => 0
  | blanks => blanks.length

/-- Whether a function may be called with slots of which some are blank: only a single slot may be,
and the function takes as many arguments as are supplied. -/
def Grammar.Allows (g : Grammar) (f : Operation) (blanks : List Bool) : Prop :=
  (blanks.length ≤ 1 ∨ ∀ blank ∈ blanks, blank = false) ∧ g.takes f (slotCount blanks) = true

/-- Whether a token leaves no trace in a tree. -/
def Token.isSilent : Token → Bool
  | blank _ | uncalled _ => true
  | _ => false

/-- Whether a list of tokens leaves no trace in a tree. -/
def isSilent (ts : List Token) : Bool := ts.all Token.isSilent

theorem isSilent_append (ss ts : List Token) :
    isSilent (ss ++ ts) = (isSilent ss && isSilent ts) := List.all_append

/-- The tokens of slots, of which there is at least one, with commas between them. -/
def commaJoin (first : List Token) (more : List (List Token)) : List Token :=
  first ++ more.flatMap (.comma :: ·)

/-- What stands last in a scope. -/
inductive Last
  /-- Nothing. -/
  | nothing
  /-- Anything but an operator. -/
  | value
  /-- An operator, and whether it still needs something after it. -/
  | operator (lacking : Bool)
  deriving DecidableEq, Repr

namespace Last

/-- Whether a value stands last. -/
def isValue : Last → Bool
  | value => true
  | _ => false

/-- Whether nothing stands in a scope yet. -/
def isNothing : Last → Bool
  | nothing => true
  | _ => false

/-- Whether a scope may end. -/
def isComplete : Last → Bool
  | operator lacking => !lacking
  | _ => true

end Last

/-- The tokens that may complete a scope, given what stands last in it so far. -/
inductive Scope (g : Grammar) : Last → List Token → Prop
  /-- The scope ends. -/
  | nil {last : Last} (hlast : last.isComplete = true) : Scope g last []
  /-- A blank. -/
  | silent {last : Last} {tok : Token} {ts : List Token} (htok : tok.isSilent = true)
    (rest : Scope g last ts) : Scope g last (tok :: ts)
  /-- A number. -/
  | number {last : Last} {n : Text} {ts : List Token} (rest : Scope g .value ts) :
    Scope g last (.number n :: ts)
  /-- A constant. -/
  | constant {last : Last} {literal expression w : Text} {ts : List Token}
    (rest : Scope g .value ts) : Scope g last (.symbol (.constant literal expression) w :: ts)
  /-- A free variable. -/
  | free {last : Last} {literal w : Text} {ts : List Token} (rest : Scope g .value ts) :
    Scope g last (.symbol (.free literal) w :: ts)
  /-- An operator. -/
  | operator {last : Last} {op : Operator} {w : Text} {ts : List Token}
    (hleft : g.needsLeft op = true → last.isValue = true)
    (rest : Scope g (.operator (g.needsRight op)) ts) :
    Scope g last (.symbol (.operator op) w :: ts)
  /-- A scope in parentheses. -/
  | group {last : Last} {inner ts : List Token} (hinner : Scope g .nothing inner)
    (rest : Scope g .value ts) : Scope g last ([Token.opening] ++ inner ++ [Token.closing] ++ ts)
  /-- A function name and its slots, each of which is a scope. -/
  | call {last : Last} {f : Operation} {w : Text} {gap first ts : List Token}
    {more : List (List Token)} (hgap : isSilent gap = true)
    (hslots : ∀ slot ∈ first :: more, Scope g .nothing slot)
    (hallows : g.Allows f ((first :: more).map isSilent)) (rest : Scope g .value ts) :
    Scope g last ([Token.symbol (.function f) w] ++ gap ++ [Token.opening] ++
      commaJoin first more ++ [Token.closing] ++ ts)

/-- Whether a token stands for characters that could be read. -/
def Token.isReadable : Token → Bool
  | unknown _ | repeatedPoint => false
  | _ => true

/-- In a scope, all characters could be read. -/
theorem Scope.isReadable {g : Grammar} {last : Last} {ts : List Token} (h : Scope g last ts) :
    ∀ tok ∈ ts, tok.isReadable = true := by
  have hsilent : ∀ tok : Token, tok.isSilent = true → tok.isReadable = true := by
    intro tok htok
    cases tok with
    | unknown | repeatedPoint => cases htok
    | _ => rfl
  induction h with
  | nil => simp
  | silent htok rest ih => exact List.forall_mem_cons.2 ⟨hsilent _ htok, ih⟩
  | number rest ih => exact List.forall_mem_cons.2 ⟨rfl, ih⟩
  | constant rest ih => exact List.forall_mem_cons.2 ⟨rfl, ih⟩
  | free rest ih => exact List.forall_mem_cons.2 ⟨rfl, ih⟩
  | operator hleft rest ih => exact List.forall_mem_cons.2 ⟨rfl, ih⟩
  | group hinner rest ihinner ih =>
    simp only [List.forall_mem_append, List.forall_mem_singleton]
    exact ⟨⟨⟨rfl, ihinner⟩, rfl⟩, ih⟩
  | @call last f w gap first ts more hgap hslots hallows rest ihslots ih =>
    have hjoin : ∀ tok ∈ commaJoin first more, tok.isReadable = true := by
      refine List.forall_mem_append.2 ⟨ihslots first List.mem_cons_self, ?_⟩
      intro tok htok
      obtain ⟨slot, hslot, htok⟩ := List.mem_flatMap.1 htok
      rcases List.mem_cons.1 htok with rfl | htok
      · rfl
      · exact ihslots slot (List.mem_cons_of_mem _ hslot) tok htok
    have hgaps : ∀ tok ∈ gap, tok.isReadable = true := fun tok htok =>
      hsilent tok (List.all_eq_true.1 hgap tok htok)
    simp only [List.forall_mem_append, List.forall_mem_singleton]
    exact ⟨⟨⟨⟨⟨rfl, hgaps⟩, rfl⟩, hjoin⟩, rfl⟩, ih⟩

/-- Whether two grammars have the same rules for a symbol. -/
def Grammar.AgreeOn (g g' : Grammar) : Symbol → Prop
  | .operator op => g.needsLeft op = g'.needsLeft op ∧ g.needsRight op = g'.needsRight op
  | .function f => ∀ n, g.takes f n = g'.takes f n
  | _ => True

/-- Whether a token is a hint. -/
def Token.isHint : Token → Bool
  | uncalled _ => true
  | _ => false

/-- A list of tokens without the hints. -/
def withoutHints (ts : List Token) : List Token := ts.filter (!·.isHint)

@[simp] theorem withoutHints_append (ss ts : List Token) :
    withoutHints (ss ++ ts) = withoutHints ss ++ withoutHints ts := List.filter_append ..

theorem isSilent_withoutHints (ts : List Token) : isSilent (withoutHints ts) = isSilent ts := by
  induction ts with
  | nil => rfl
  | cons tok ts ih =>
    have hcons : isSilent (tok :: ts) = (tok.isSilent && isSilent ts) := rfl
    cases tok with
    | uncalled name => exact ih
    | _ =>
      rw [hcons, ← ih]
      rfl

theorem withoutHints_commaJoin (first : List Token) (more : List (List Token)) :
    withoutHints (commaJoin first more) =
      commaJoin (withoutHints first) (more.map withoutHints) := by
  have hmore : withoutHints (more.flatMap (.comma :: ·)) =
      (more.map withoutHints).flatMap (.comma :: ·) := by
    induction more with
    | nil => rfl
    | cons slot more ih =>
      rw [List.flatMap_cons, withoutHints_append, ih, List.map_cons, List.flatMap_cons]
      rfl
  rw [commaJoin, withoutHints_append, hmore, commaJoin]

/-- **The rules of a scope may be exchanged** for rules that agree on its symbols, and its hints may
be left out. -/
theorem Scope.transfer {g g' : Grammar} {last : Last} {ts : List Token} (h : Scope g last ts)
    (hagree : ∀ s w, Token.symbol s w ∈ ts → g.AgreeOn g' s) :
    Scope g' last (withoutHints ts) := by
  induction h with
  | nil hlast => exact .nil hlast
  | @silent last tok ts htok rest ih =>
    have hrest := ih fun s w hs => hagree s w (List.mem_cons_of_mem _ hs)
    cases tok with
    | blank c => exact .silent rfl hrest
    | uncalled name => exact hrest
    | opening | closing | comma | number | symbol | unknown | repeatedPoint => cases htok
  | number rest ih => exact .number (ih fun s w hs => hagree s w (List.mem_cons_of_mem _ hs))
  | constant rest ih => exact .constant (ih fun s w hs => hagree s w (List.mem_cons_of_mem _ hs))
  | free rest ih => exact .free (ih fun s w hs => hagree s w (List.mem_cons_of_mem _ hs))
  | operator hleft rest ih =>
    obtain ⟨hl, hr⟩ := hagree _ _ List.mem_cons_self
    rw [hl] at hleft
    rw [hr] at ih
    exact .operator hleft (ih fun s w hs => hagree s w (List.mem_cons_of_mem _ hs))
  | group hinner rest ihinner ih =>
    simp only [withoutHints_append]
    refine .group (ihinner fun s w hs => hagree s w ?_) (ih fun s w hs => hagree s w ?_)
    · simp [hs]
    · simp [hs]
  | @call last f w gap first ts more hgap hslots hallows rest ihslots ih =>
    simp only [withoutHints_append, withoutHints_commaJoin]
    have htakes : ∀ n, g.takes f n = g'.takes f n := hagree (.function f) w (by simp)
    have hslot : ∀ slot ∈ first :: more, ∀ tok ∈ slot, tok ∈ commaJoin first more := by
      intro slot hslot tok htok
      rcases List.mem_cons.1 hslot with rfl | hslot
      · exact List.mem_append_left _ htok
      · exact List.mem_append_right _
          (List.mem_flatMap.2 ⟨slot, hslot, List.mem_cons_of_mem _ htok⟩)
    refine .call ((isSilent_withoutHints gap).trans hgap) ?_ ?_ (ih fun s w hs => hagree s w ?_)
    · intro slot hmem
      rw [← List.map_cons] at hmem
      obtain ⟨slot', hslot', rfl⟩ := List.mem_map.1 hmem
      refine ihslots slot' hslot' fun s w hs => hagree s w ?_
      have hjoin := hslot slot' hslot' _ hs
      simp [hjoin]
    · have hblanks : (withoutHints first :: more.map withoutHints).map isSilent =
          (first :: more).map isSilent := by
        simp [Function.comp_def, isSilent_withoutHints]
      rw [hblanks]
      exact ⟨hallows.1, htakes _ ▸ hallows.2⟩
    · simp [hs]

end Formula

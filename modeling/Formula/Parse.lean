import Formula.Distinct
import Formula.Token.Lexer
import Formula.Part.Builder
import Formula.Part.Operands
import Formula.Part.Outline

/-!
# Reading a formula

A formula is cut into tokens, the tokens are built into a tree, and the tree is searched for
missing operands and arguments.  Reading never fails: what is wrong is listed with the tree, errors
of the tokens first.
-/

namespace Formula

/-- A formula that has been read. -/
structure Parse where
  /-- The symbols that it was read with. -/
  registry : Registry
  /-- The formula. -/
  text : Text
  /-- The sibling list of the whole formula. -/
  items : List Part
  /-- What is wrong. -/
  errors : List ParseError
  /-- What might have been meant otherwise. -/
  hints : List Hint

/-- The positions of unknown characters. -/
def unknownPositions (errors : List ParseError) : List Nat :=
  (errors.filter (·.identifier?.isSome)).map (·.start)

/-- Read a formula. -/
def parse (r : Registry) (text : Text) : Parse :=
  let b := Builder.empty.run text (tokens r text)
  let items := b.finish text
  let found := b.allErrors
  { registry := r
    text := text
    items := items
    errors := collapse (found ++ argumentErrors (unknownPositions found) text.length items)
    hints := b.hints }

namespace Parse

/-- Whether nothing is wrong. -/
def isClean (p : Parse) : Bool := p.errors.isEmpty

/-- The whole formula as a group. -/
def root (p : Parse) : Part := .group ⟨0, p.text⟩ p.items

/-- The free variables in the order of their first occurrence. -/
def freeVariables (p : Parse) : List Text :=
  distinctBy id ((walkAll p.items).filterMap Part.freeName?)

end Parse

/-- All characters of a formula are taken in. -/
theorem position_run_tokens (r : Registry) (text : Text) :
    (Builder.empty.run text (tokens r text)).position = text.length := by
  rw [Builder.position_run, text_tokens]
  exact Nat.zero_add _

end Formula

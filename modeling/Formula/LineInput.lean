import Formula.Cluster.Basic

/-!
# Lines typed in

The standard input of a session is a sequence of lines.  A backspace in a line takes back the
cluster before it that has not been taken back yet; at the start of a line it does nothing.

How many bytes a backspace takes is noted in a single byte when a cluster is typed, so of a cluster
of 256 bytes or more only a part is taken.  A part that would end inside a character cannot be
taken, and then the line cannot be edited.

Editing is no part of the program, which only sees the lines that come of it.  The command line
supplies what is defined here; nothing else depends on it.
-/

namespace Formula

/-- The lines of a text, where `current` has been read of the first one, the last character first.
A line break ends a line. -/
def linesFrom (current : Text) : Text → List Text
  | [] => if current = [] then [] else [current.reverse]
  | c :: rest =>
    if c = '\n' then current.reverse :: linesFrom [] rest else linesFrom (c :: current) rest

/-- A text, its last character first, without `n` bytes at its end, unless that would part a
character. -/
def dropBytes (n : Nat) : Text → Option Text
  | [] => if n = 0 then some [] else none
  | c :: t =>
    if n = 0 then some (c :: t)
    else if c.utf8Size ≤ n then dropBytes (n - c.utf8Size) t
    else none

/-- A line while it is typed. -/
structure TypedLine where
  /-- The characters, the last one first. -/
  reversed : Text
  /-- How many bytes each backspace takes that may follow. -/
  sizes : List Nat

namespace TypedLine

/-- Nothing typed. -/
def empty : TypedLine := ⟨[], []⟩

/-- What has been typed. -/
def text (l : TypedLine) : Text := l.reversed.reverse

/-- A cluster typed at the end. -/
def append (l : TypedLine) (cluster : Text) : TypedLine :=
  ⟨cluster.reverse ++ l.reversed, utf8Length cluster % 256 :: l.sizes⟩

/-- The last cluster taken back. -/
def erase (l : TypedLine) : Option TypedLine :=
  match l.sizes with
  | [] => some l
  | n :: sizes => (dropBytes n l.reversed).map fun t => ⟨t, sizes⟩

/-- A cluster or a backspace typed. -/
def type (l : TypedLine) (cluster : Text) : Option TypedLine :=
  if cluster = ['\x08'] then l.erase else some (l.append cluster)

end TypedLine

/-- A line after its backspaces, if it can be edited. -/
def editLine (t : Text) : Option Text :=
  (t.clusters.foldlM TypedLine.type .empty).map TypedLine.text

end Formula

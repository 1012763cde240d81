import Formula.Cluster.Ranges
import Formula.Text

/-!
# Clusters: what a reader takes for one character

A text falls into extended grapheme clusters, by the rules of the Unicode standard.  A cluster ends
where the next character does not join it, and whether it does depends on the classes of the
characters in the cluster and on that of the next one, on nothing before the cluster.
-/

namespace Formula

/-- What a character does to the cluster that it stands in. -/
inductive BreakClass
  /-- A carriage return. -/
  | carriageReturn
  /-- A line feed. -/
  | lineFeed
  /-- Another character that stands alone. -/
  | control
  /-- A mark that extends what is before it. -/
  | mark
  /-- A mark that also links two consonants. -/
  | linker
  /-- The mark that keeps consonants apart. -/
  | nonJoiner
  /-- The mark that joins two pictures. -/
  | joiner
  /-- A mark with a width of its own. -/
  | spacingMark
  /-- A sign that belongs to what is after it. -/
  | prepended
  /-- A consonant that can be linked. -/
  | consonant
  /-- A picture that can be joined. -/
  | pictograph
  /-- A regional indicator, half of a flag. -/
  | regional
  /-- A leading consonant of a Hangul syllable. -/
  | leading
  /-- A vowel of a Hangul syllable. -/
  | vowel
  /-- A trailing consonant of a Hangul syllable. -/
  | trailing
  /-- A Hangul syllable without a trailing consonant. -/
  | openSyllable
  /-- A Hangul syllable with a trailing consonant. -/
  | closedSyllable
  /-- Any other character. -/
  | other
  deriving DecidableEq, Repr

namespace BreakClass

/-- The class of a character. -/
def ofChar (c : Char) : BreakClass :=
  let n := c.toNat
  if n = 0x0D then carriageReturn
  else if n = 0x0A then lineFeed
  else if n = 0x200C then nonJoiner
  else if n = 0x200D then joiner
  else if 0x1F1E6 ≤ n && n ≤ 0x1F1FF then regional
  else if (0x1100 ≤ n && n ≤ 0x115F) || (0xA960 ≤ n && n ≤ 0xA97C) then leading
  else if (0x1160 ≤ n && n ≤ 0x11A7) || (0xD7B0 ≤ n && n ≤ 0xD7C6) || n = 0x16D63 ||
    (0x16D67 ≤ n && n ≤ 0x16D6A) then vowel
  else if (0x11A8 ≤ n && n ≤ 0x11FF) || (0xD7CB ≤ n && n ≤ 0xD7FB) then trailing
  else if 0xAC00 ≤ n && n ≤ 0xD7A3 then
    if (n - 0xAC00) % 28 = 0 then openSyllable else closedSyllable
  else if controlRanges.contains n then control
  else if markRanges.contains n then mark
  else if linkerRanges.contains n then linker
  else if spacingMarkRanges.contains n then spacingMark
  else if prependedRanges.contains n then prepended
  else if consonantRanges.contains n then consonant
  else if pictographRanges.contains n then pictograph
  else other

/-- Whether two neighbours are in one cluster whatever is before them. -/
def adjoins (before after : BreakClass) : Bool :=
  match before, after with
  | carriageReturn, lineFeed => true
  | carriageReturn, _ | lineFeed, _ | control, _ => false
  | _, carriageReturn | _, lineFeed | _, control => false
  | _, mark | _, linker | _, nonJoiner | _, joiner | _, spacingMark => true
  | prepended, _ => true
  | leading, leading | leading, vowel | leading, openSyllable | leading, closedSyllable => true
  | openSyllable, vowel | openSyllable, trailing => true
  | vowel, vowel | vowel, trailing => true
  | closedSyllable, trailing | trailing, trailing => true
  | _, _ => false

/-- Whether a cluster, its last character first, ends with a consonant and marks of which one is a
linker. -/
def endsLinked (cluster : List BreakClass) : Bool :=
  let isLink (k : BreakClass) : Bool := k = mark || k = linker || k = joiner
  (cluster.takeWhile isLink).contains linker &&
    (cluster.dropWhile isLink).head? = some consonant

/-- Whether a cluster, its last character first, ends with a picture, marks and a joiner. -/
def endsJoined : List BreakClass → Bool
  | joiner :: cluster =>
    (cluster.dropWhile fun k => k = mark || k = linker || k = nonJoiner).head? = some pictograph
  | _ => false

/-- Whether a cluster, its last character first, ends with half of a flag. -/
def endsHalved (cluster : List BreakClass) : Bool :=
  (cluster.takeWhile (· = regional)).length % 2 = 1

/-- Whether a character belongs to the cluster before it, of which the last character is the first
in the list.  Every character can begin a cluster. -/
def joins (cluster : List BreakClass) (next : BreakClass) : Bool :=
  match cluster with
  | [] => true
  | last :: _ =>
    last.adjoins next ||
      match next with
      | consonant => endsLinked cluster
      | pictograph => endsJoined cluster
      | regional => endsHalved cluster
      | _ => false

end BreakClass

namespace Text

/-- The clusters of a text, where `current` has been read of the first one, the last character
first. -/
def clustersFrom (current : List (Char × BreakClass)) : Text → List Text
  | [] => if current.isEmpty then [] else [(current.map (·.1)).reverse]
  | c :: t =>
    let next := BreakClass.ofChar c
    if BreakClass.joins (current.map (·.2)) next then clustersFrom ((c, next) :: current) t
    else (current.map (·.1)).reverse :: clustersFrom [(c, next)] t

/-- The clusters of a text. -/
def clusters (t : Text) : List Text :=
  clustersFrom [] t

end Text

end Formula

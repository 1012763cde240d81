import Formula.Proofs.Part.Leaves
import Formula.Proofs.Part.Operands

/-!
# Every character is read once

The parts of a tree that are no groups and the errors of what could not be read share the characters
of a formula among them: each character that is no delimiter belongs to exactly one of them, and no
delimiter belongs to any.

While the builder takes in tokens, this is so for the characters that have been taken in.  The
invariant is `Tiles`.  A token without a delimiter adds one leaf or one error that covers its own
characters, and a number that joins a minus sign covers the sign as well.
-/

namespace Formula

/-- Whether a position belongs to an excerpt. -/
def Excerpt.covers (e : Excerpt) (n : Nat) : Bool :=
  e.start ≤ n && n < e.stop

/-- Whether a position belongs to what an error is about. -/
def ParseError.covers (e : ParseError) (n : Nat) : Bool :=
  e.start ≤ n && n < e.stop

/-- Whether an error is about characters that could not be read. -/
def ParseError.isLexical (e : ParseError) : Bool :=
  match e.cause with
  | .unknownIdentifier _ | .repeatedPoint => true
  | _ => false

/-- Whether a part is a group. -/
def Part.isGroup : Part → Bool
  | group _ _ => true
  | _ => false

/-- The parts of a tree that are no groups, in the order in which they start. -/
def spelledParts (items : List Part) : List Part :=
  (walkAll items).filter (!·.isGroup)

/-- One if there is a character at a position that is no delimiter. -/
def solidCount (t : Text) (n : Nat) : Nat :=
  if (t[n]?).any (!isDelimiter ·) then 1 else 0

theorem covers_eq_true_iff {e : Excerpt} {n : Nat} :
    e.covers n = true ↔ e.start ≤ n ∧ n < e.start + e.text.length := by
  rw [Excerpt.covers, Bool.and_eq_true, decide_eq_true_eq, decide_eq_true_eq, Excerpt.stop]

theorem ParseError.covers_eq_true_iff {e : ParseError} {n : Nat} :
    e.covers n = true ↔ e.start ≤ n ∧ n < e.start + e.length := by
  rw [ParseError.covers, Bool.and_eq_true, decide_eq_true_eq, decide_eq_true_eq, ParseError.stop]

theorem solidCount_append {t : Text} (ht : Solid t) (read : Text) (n : Nat) :
    solidCount (read ++ t) n =
      solidCount read n + if (Excerpt.mk read.length t).covers n then 1 else 0 := by
  simp only [solidCount, covers_eq_true_iff]
  by_cases hn : n < read.length
  · have hnot : ¬ (read.length ≤ n ∧ n < read.length + t.length) := by omega
    rw [List.getElem?_append_left hn, if_neg hnot, Nat.add_zero]
  · have hread : read[n]? = none := List.getElem?_eq_none (by omega)
    rw [List.getElem?_append_right (by omega), hread]
    by_cases hlt : n - read.length < t.length
    · have hin : read.length ≤ n ∧ n < read.length + t.length := by omega
      have hsolid := ht _ (List.getElem_mem hlt)
      rw [List.getElem?_eq_getElem hlt, if_pos hin]
      simp [hsolid]
    · have hout : ¬ (read.length ≤ n ∧ n < read.length + t.length) := by omega
      rw [List.getElem?_eq_none (by omega), if_neg hout, Nat.add_zero]

theorem solidCount_append_delimiter {c : Char} (hc : isDelimiter c = true) (read : Text)
    (n : Nat) : solidCount (read ++ [c]) n = solidCount read n := by
  simp only [solidCount]
  rcases Nat.lt_trichotomy n read.length with hn | rfl | hn
  · rw [List.getElem?_append_left hn]
  · simp [hc]
  · have hlen : (read ++ [c]).length ≤ n := by
      rw [List.length_append]
      exact hn
    rw [List.getElem?_eq_none hlen, List.getElem?_eq_none (by omega)]

/-- Leaves and errors that share the characters of a text among them. -/
structure Tiles (read : Text) (ls : List Leaf) (errors : List ParseError) : Prop where
  /-- Each character that is no delimiter belongs to one leaf or error. -/
  once : ∀ n, ls.countP (·.excerpt.covers n) +
    errors.countP (fun e => e.isLexical && e.covers n) = solidCount read n
  /-- The leaves stand one after another. -/
  ordered : ls.Pairwise fun l m => l.excerpt.stop ≤ m.excerpt.start
  /-- No leaf is empty, and all stand in the text. -/
  inside : ∀ l ∈ ls, l.excerpt.start < l.excerpt.stop ∧ l.excerpt.stop ≤ read.length

namespace Tiles

variable {read : Text} {ls : List Leaf} {errors : List ParseError}

theorem nil : Tiles [] [] [] where
  once n := by simp [solidCount]
  ordered := .nil
  inside := by simp

/-- A delimiter belongs to nothing. -/
theorem delimiter (h : Tiles read ls errors) {c : Char} (hc : isDelimiter c = true) :
    Tiles (read ++ [c]) ls errors where
  once n := by rw [h.once, solidCount_append_delimiter hc]
  ordered := h.ordered
  inside l hl := by
    obtain ⟨hstart, hstop⟩ := h.inside l hl
    rw [List.length_append]
    exact ⟨hstart, by omega⟩

/-- Errors of other kinds do not count. -/
theorem report (h : Tiles read ls errors) {e : ParseError} (he : e.isLexical = false) :
    Tiles read ls (errors ++ [e]) where
  once n := by simpa [he] using h.once n
  ordered := h.ordered
  inside := h.inside

/-- Characters that are read as a leaf. -/
theorem leaf (h : Tiles read ls errors) {l : Leaf} {t : Text}
    (hl : l.excerpt = ⟨read.length, t⟩) (ht : Solid t) (hne : t ≠ []) :
    Tiles (read ++ t) (ls ++ [l]) errors where
  once n := by
    have honce := h.once n
    rw [solidCount_append ht, ← hl, ← honce, List.countP_append, List.countP_singleton]
    omega
  ordered := by
    refine List.pairwise_append.2 ⟨h.ordered, List.pairwise_singleton .., ?_⟩
    intro m hm l' hl'
    obtain rfl := List.mem_singleton.1 hl'
    rw [hl]
    exact (h.inside m hm).2
  inside m hm := by
    have hlen : 0 < t.length := List.length_pos_iff.2 hne
    rw [List.length_append]
    rcases List.mem_append.1 hm with hm | hm
    · obtain ⟨hstart, hstop⟩ := h.inside m hm
      exact ⟨hstart, by omega⟩
    · obtain rfl := List.mem_singleton.1 hm
      simp only [hl, Excerpt.stop]
      omega

/-- Characters that join the last leaf. -/
theorem join {last l : Leaf} {t : Text} (h : Tiles read (ls ++ [last]) errors)
    (hstart : l.excerpt.start = last.excerpt.start)
    (htext : l.excerpt.text = last.excerpt.text ++ t)
    (htouch : last.excerpt.stop = read.length) (ht : Solid t) :
    Tiles (read ++ t) (ls ++ [l]) errors where
  once n := by
    have hone := h.once n
    have hsplit : (if l.excerpt.covers n then 1 else 0) =
        (if last.excerpt.covers n then 1 else 0) +
          if (Excerpt.mk read.length t).covers n then 1 else 0 := by
      simp only [Excerpt.stop] at htouch
      simp only [covers_eq_true_iff, hstart, htext, List.length_append]
      repeat' split
      all_goals omega
    rw [List.countP_append, List.countP_singleton] at hone ⊢
    rw [solidCount_append ht, hsplit, ← hone]
    omega
  ordered := by
    obtain ⟨hls, -, hlast⟩ := List.pairwise_append.1 h.ordered
    refine List.pairwise_append.2 ⟨hls, List.pairwise_singleton .., ?_⟩
    intro m hm l' hl'
    obtain rfl := List.mem_singleton.1 hl'
    rw [hstart]
    exact hlast m hm _ List.mem_cons_self
  inside m hm := by
    rw [List.length_append]
    rcases List.mem_append.1 hm with hm | hm
    · obtain ⟨hlt, hle⟩ := h.inside m (List.mem_append_left _ hm)
      exact ⟨hlt, by omega⟩
    · obtain rfl := List.mem_singleton.1 hm
      obtain ⟨hlt, -⟩ := h.inside last (List.mem_append_right _ List.mem_cons_self)
      simp only [Excerpt.stop, hstart, htext, List.length_append] at htouch hlt ⊢
      omega

/-- Characters that could not be read. -/
theorem lexical (h : Tiles read ls errors) {e : ParseError} {t : Text}
    (he : e.isLexical = true) (hstart : e.start = read.length) (hlength : e.length = t.length)
    (ht : Solid t) : Tiles (read ++ t) ls (errors ++ [e]) where
  once n := by
    have hone := h.once n
    have hcovers : e.covers n = (Excerpt.mk read.length t).covers n := by
      rw [Bool.eq_iff_iff, covers_eq_true_iff, ParseError.covers_eq_true_iff, hstart, hlength]
    rw [solidCount_append ht, ← hone, List.countP_append, List.countP_singleton, he, hcovers,
      Bool.true_and]
    omega
  ordered := h.ordered
  inside m hm := by
    obtain ⟨hlt, hle⟩ := h.inside m hm
    rw [List.length_append]
    exact ⟨hlt, by omega⟩

end Tiles

namespace Builder

variable {text : Text} {r : Registry}

/-- What a token at `position` does to the errors. -/
inductive ErrorStep (position : Nat) : Token → List ParseError → List ParseError → Prop
  /-- An unknown character. -/
  | unknown (c : Char) (es : List ParseError) :
    ErrorStep position (.unknown c) es (es ++ [.unknown [c] position])
  /-- A second point. -/
  | repeatedPoint (es : List ParseError) :
    ErrorStep position .repeatedPoint es (es ++ [⟨.repeatedPoint, position, 1⟩])
  /-- A parenthesis that closes nothing. -/
  | unmatchedClosing (es : List ParseError) :
    ErrorStep position .closing es (es ++ [⟨.unmatchedClosing, position, 1⟩])
  /-- A comma outside of a call. -/
  | misplacedComma (es : List ParseError) :
    ErrorStep position .comma es (es ++ [⟨.misplacedComma, position, 1⟩])
  /-- Nothing is wrong with a token that could be read. -/
  | other (tok : Token) (es : List ParseError) (hunknown : ∀ c, tok ≠ .unknown c)
    (hpoint : tok ≠ .repeatedPoint) : ErrorStep position tok es es

/-- **Each step of the builder is an `ErrorStep`.** -/
theorem errorStep_step (b : Builder) (tok : Token) :
    ErrorStep b.position tok b.errors (b.step text tok).errors := by
  change ErrorStep b.position tok b.errors (b.take text tok).errors
  cases tok with
  | unknown c => exact .unknown ..
  | repeatedPoint => exact .repeatedPoint ..
  | opening =>
    have h : b.openBracket.errors = b.errors := by
      rw [openBracket]
      split <;> rfl
    rw [take, h]
    exact .other _ _ (by simp) (by simp)
  | closing =>
    rw [take, closeBracket]
    split
    · exact .unmatchedClosing ..
    · exact .other _ _ (by simp) (by simp)
  | comma =>
    rw [take, separate]
    split
    · exact .other _ _ (by simp) (by simp)
    · exact .misplacedComma ..
  | blank => exact .other _ _ (by simp) (by simp)
  | number => exact .other _ _ (by simp) (by simp)
  | symbol => exact .other _ _ (by simp) (by simp)
  | uncalled => exact .other _ _ (by simp) (by simp)

/-- The characters of a fitting token are shared among leaves and errors as well. -/
theorem tiles_of_steps {read following : Text} {tok : Token} {ls ls' : List Leaf}
    {es es' : List ParseError} (h : Tiles read ls es) (hfits : tok.Fits r following)
    (hls : LeafStep read.length tok ls ls') (hes : ErrorStep read.length tok es es') :
    Tiles (read ++ tok.text) ls' es' := by
  cases hls with
  | number t =>
    cases hes
    exact h.leaf rfl (Numeral.solid_of_isPlain hfits) (Numeral.ne_nil_of_isPlain hfits)
  | signed t ls op sign hop htouch =>
    cases hes
    exact h.join rfl rfl htouch (Numeral.solid_of_isPlain hfits)
  | symbol s t =>
    cases hes
    obtain ⟨hmem, hkey, hsolid, -⟩ := hfits
    exact h.leaf rfl hsolid (Registry.ne_nil_of_lower hmem hkey)
  | other =>
    cases hes with
    | unknown c =>
      have hc : Solid [c] := by
        intro d hd
        obtain rfl := List.mem_singleton.1 hd
        exact hfits
      exact h.lexical rfl rfl rfl hc
    | repeatedPoint =>
      have hpoint : Solid ['.'] := by decide
      exact h.lexical rfl rfl rfl hpoint
    | unmatchedClosing =>
      have hc : isDelimiter ')' = true := by decide
      exact (h.delimiter hc).report rfl
    | misplacedComma =>
      have hc : isDelimiter ',' = true := by decide
      exact (h.delimiter hc).report rfl
    | other =>
      cases tok with
      | blank c => exact h.delimiter (isDelimiter_of_isBlank hfits)
      | opening =>
        have hc : isDelimiter '(' = true := by decide
        exact h.delimiter hc
      | closing =>
        have hc : isDelimiter ')' = true := by decide
        exact h.delimiter hc
      | comma =>
        have hc : isDelimiter ',' = true := by decide
        exact h.delimiter hc
      | uncalled => simpa [Token.text] using h
      | number | symbol | unknown | repeatedPoint => simp_all

/-- **The builder keeps the invariant.** -/
theorem tiles_run {read : Text} {ts : List Token} (b : Builder)
    (hfits : InContext (Token.Fits r) [] ts) (hpos : b.position = read.length)
    (h : Tiles read b.leaves b.errors) :
    Tiles (read ++ ts.flatMap Token.text) (b.run text ts).leaves (b.run text ts).errors := by
  induction ts generalizing b read with
  | nil =>
    rw [List.flatMap_nil, List.append_nil]
    exact h
  | cons tok ts ih =>
    have hstep : Tiles (read ++ tok.text) (b.step text tok).leaves (b.step text tok).errors :=
      tiles_of_steps h hfits.1 (hpos ▸ leafStep_step b tok) (hpos ▸ errorStep_step b tok)
    have hposition : (b.step text tok).position = (read ++ tok.text).length := by
      rw [position_step, hpos, List.length_append]
    rw [run_cons, List.flatMap_cons, ← List.append_assoc]
    exact ih _ hfits.2 hposition hstep

end Builder

/-- Two errors that are joined cover what the joined error covers. -/
theorem covers_join? {a b c : ParseError} (h : a.join? b = some c) (n : Nat) :
    (if c.isLexical && c.covers n then 1 else 0) =
      (if a.isLexical && a.covers n then 1 else 0) +
        if b.isLexical && b.covers n then 1 else 0 := by
  obtain ⟨acause, astart, alength⟩ := a
  obtain ⟨bcause, bstart, blength⟩ := b
  simp only [ParseError.join?] at h
  split at h
  · rename_i s t
    split at h
    · rename_i htouch
      obtain rfl := Option.some.inj h
      simp only [ParseError.stop] at htouch
      simp only [ParseError.isLexical, Bool.true_and, ParseError.covers_eq_true_iff]
      repeat' split
      all_goals omega
    · cases h
  · cases h

/-- **Joining errors keeps the positions that they cover.** -/
theorem countP_collapse (errors : List ParseError) (n : Nat) :
    (collapse errors).countP (fun e => e.isLexical && e.covers n) =
      errors.countP fun e => e.isLexical && e.covers n := by
  refine collapse_induction (P := fun errors joined =>
    joined.countP (fun e => e.isLexical && e.covers n) =
      errors.countP fun e => e.isLexical && e.covers n) rfl ?_ ?_ errors
  · intro e rest joined ih
    rw [List.countP_cons, ih, ← List.countP_cons]
  · intro a b c rest joined hjoin ih
    rw [ih, List.countP_cons, covers_join? hjoin n, List.countP_cons, List.countP_cons]
    omega

/-! ## Whole formulas -/

/-- The parts that are no groups are the leaves. -/
theorem map_excerpt_leaves (items : List Part) :
    (leaves items).map Leaf.excerpt = (spelledParts items).map Part.excerpt := by
  rw [leaves, spelledParts]
  induction walkAll items with
  | nil => rfl
  | cons p ps ih =>
    cases p with
    | group e items => simpa [Part.leaf?, Part.isGroup, List.filterMap_cons] using ih
    | _ => simp [Part.leaf?, Part.isGroup, Part.excerpt, ih]

theorem not_isLexical_of_concernsArguments {e : ParseError} (h : e.concernsArguments = true) :
    e.isLexical = false := by
  obtain ⟨cause, start, length⟩ := e
  cases cause <;> first | rfl | cases h

/-- The errors that are found after the last token are about no characters. -/
theorem countP_errors_parse (r : Registry) (text : Text) (n : Nat) :
    (parse r text).errors.countP (fun e => e.isLexical && e.covers n) =
      (Builder.empty.run text (tokens r text)).errors.countP
        fun e => e.isLexical && e.covers n := by
  simp only [parse, countP_collapse, Builder.allErrors, List.countP_append]
  have hunclosed : (Builder.unclosed (Builder.empty.run text (tokens r text)).frames).countP
      (fun e => e.isLexical && e.covers n) = 0 := by
    rw [List.countP_eq_zero]
    intro e he
    obtain ⟨f, -, rfl⟩ := List.mem_map.1 he
    simp [ParseError.isLexical]
  have harguments : ∀ (positions : List Nat) (stop : Nat) (items : List Part),
      (argumentErrors positions stop items).countP (fun e => e.isLexical && e.covers n) = 0 := by
    intro positions stop items
    rw [List.countP_eq_zero]
    intro e he
    have hargument := concernsArguments_of_mem_argumentErrors e he
    simp [not_isLexical_of_concernsArguments hargument]
  rw [hunclosed, harguments]
  rfl

section Parse

variable (r : Registry) (text : Text)

/-- The leaves of a formula and the errors of its builder share its characters among them. -/
theorem tiles_parse : Tiles text (leaves (parse r text).items)
    (Builder.empty.run text (tokens r text)).errors := by
  have h : Tiles ([] ++ (tokens r text).flatMap Token.text)
      (Builder.empty.run text (tokens r text)).leaves
      (Builder.empty.run text (tokens r text)).errors :=
    Builder.tiles_run _ (fits_tokens r text) rfl Tiles.nil
  rwa [text_tokens, List.nil_append, ← leaves_parse] at h

/-- A character that is no delimiter belongs to one part or error, and the others to none. -/
theorem countP_covers_parse (n : Nat) :
    (spelledParts (parse r text).items).countP (·.excerpt.covers n) +
      (parse r text).errors.countP (fun e => e.isLexical && e.covers n) = solidCount text n := by
  have hcount : (spelledParts (parse r text).items).countP (·.excerpt.covers n) =
      (leaves (parse r text).items).countP (·.excerpt.covers n) := by
    have h := congrArg (List.countP (·.covers n)) (map_excerpt_leaves (parse r text).items)
    rw [List.countP_map, List.countP_map] at h
    exact h.symm
  rw [hcount, countP_errors_parse, (tiles_parse r text).once]

/-- A part that is no group is not empty and stands in the formula. -/
theorem inside_spelledParts : ∀ p ∈ spelledParts (parse r text).items,
    p.start < p.stop ∧ p.stop ≤ text.length := by
  intro p hp
  have hmem : p.excerpt ∈ (leaves (parse r text).items).map Leaf.excerpt := by
    rw [map_excerpt_leaves]
    exact List.mem_map_of_mem hp
  obtain ⟨l, hl, heq⟩ := List.mem_map.1 hmem
  have hlt := (tiles_parse r text).inside l hl
  rw [heq] at hlt
  exact hlt

/-- The parts that are no groups stand one after another. -/
theorem pairwise_spelledParts : (spelledParts (parse r text).items).Pairwise
    fun p q => p.start < q.start ∧ p.stop ≤ q.start := by
  have hordered : (spelledParts (parse r text).items).Pairwise fun p q => p.stop ≤ q.start := by
    have h : ((leaves (parse r text).items).map Leaf.excerpt).Pairwise
        fun d e => d.stop ≤ e.start := List.pairwise_map.2 (tiles_parse r text).ordered
    rw [map_excerpt_leaves] at h
    exact List.pairwise_map.1 h
  apply hordered.imp_of_mem
  intro p q hp hq hle
  have hlt := (inside_spelledParts r text p hp).1
  constructor
  · omega
  · exact hle

end Parse

/-! ## Single characters -/

section Character

variable {r : Registry} {text : Text} {n : Nat}

theorem solidCount_eq_one_iff :
    solidCount text n = 1 ↔ ∃ c, text[n]? = some c ∧ isDelimiter c = false := by
  cases h : text[n]? with
  | none => simp [solidCount, h]
  | some c => simp [solidCount, h]

/-- A character that is no delimiter belongs to a part or to an error. -/
theorem exists_covers {c : Char} (hc : text[n]? = some c) (hsolid : isDelimiter c = false) :
    (∃ p ∈ spelledParts (parse r text).items, p.excerpt.covers n = true) ∨
      ∃ e ∈ (parse r text).errors, e.isLexical = true ∧ e.covers n = true := by
  have hsum := countP_covers_parse r text n
  rw [solidCount_eq_one_iff.2 ⟨c, hc, hsolid⟩] at hsum
  rcases Nat.add_eq_one_iff.1 hsum with ⟨-, herrors⟩ | ⟨hparts, -⟩
  · obtain ⟨e, he, hcovers⟩ :=
      List.countP_pos_iff.1 (Nat.lt_of_lt_of_eq Nat.zero_lt_one herrors.symm)
    rw [Bool.and_eq_true] at hcovers
    exact .inr ⟨e, he, hcovers⟩
  · exact .inl (List.countP_pos_iff.1 (Nat.lt_of_lt_of_eq Nat.zero_lt_one hparts.symm))

section Covered

variable {e : ParseError} (he : e ∈ (parse r text).errors) (hlexical : e.isLexical = true)
  (hcovers : e.covers n = true)

include he hlexical hcovers

/-- A character of an error is counted once, for the error. -/
theorem countP_of_covers : solidCount text n = 1 ∧
    (spelledParts (parse r text).items).countP (·.excerpt.covers n) = 0 ∧
      (parse r text).errors.countP (fun e => e.isLexical && e.covers n) = 1 := by
  have hsum := countP_covers_parse r text n
  have hpos : 0 < (parse r text).errors.countP fun e => e.isLexical && e.covers n :=
    List.countP_pos_iff.2 ⟨e, he, by rw [hlexical, hcovers]; rfl⟩
  have hle : solidCount text n ≤ 1 := by
    rw [solidCount]
    split <;> decide
  omega

/-- A character of an error belongs to no part. -/
theorem covers_eq_false_of_covers :
    ∀ p ∈ spelledParts (parse r text).items, p.excerpt.covers n = false := by
  obtain ⟨-, hparts, -⟩ := countP_of_covers he hlexical hcovers
  intro p hp
  simpa using List.countP_eq_zero.1 hparts p hp

/-- A character of an error belongs to no other error. -/
theorem eq_of_covers {f : ParseError} (hf : f ∈ (parse r text).errors)
    (hflexical : f.isLexical = true) (hfcovers : f.covers n = true) : f = e := by
  obtain ⟨-, -, hone⟩ := countP_of_covers he hlexical hcovers
  rw [List.countP_eq_length_filter] at hone
  obtain ⟨g, hg⟩ := List.length_eq_one_iff.1 hone
  have hmem : ∀ {f : ParseError}, f ∈ (parse r text).errors → f.isLexical = true →
      f.covers n = true → f = g := by
    intro f hf hflexical hfcovers
    have hfilter : f ∈ (parse r text).errors.filter fun e => e.isLexical && e.covers n :=
      List.mem_filter.2 ⟨hf, by rw [hflexical, hfcovers]; rfl⟩
    rw [hg] at hfilter
    exact List.mem_singleton.1 hfilter
  rw [hmem hf hflexical hfcovers, hmem he hlexical hcovers]

end Covered

end Character

/-- **Every character of a formula is read once.**  The tokens make up the formula, and the builder
takes in all of it.  A character that is no blank, parenthesis or comma belongs to one part that is
no group or to one error about what could not be read; the other characters belong to none.  These
parts stand one after another, in the order in which the tree is walked. -/
theorem tiling_parse (r : Registry) (text : Text) :
    (tokens r text).flatMap Token.text = text ∧
    (Builder.empty.run text (tokens r text)).position = text.length ∧
    (∀ n, (spelledParts (parse r text).items).countP (·.excerpt.covers n) +
      (parse r text).errors.countP (fun e => e.isLexical && e.covers n) = solidCount text n) ∧
    (spelledParts (parse r text).items).Pairwise
      (fun p q => p.start < q.start ∧ p.stop ≤ q.start) ∧
    ∀ p ∈ spelledParts (parse r text).items, p.start < p.stop ∧ p.stop ≤ text.length :=
  ⟨text_tokens r text, position_run_tokens r text, countP_covers_parse r text,
    pairwise_spelledParts r text, inside_spelledParts r text⟩

end Formula

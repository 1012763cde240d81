import Formula.Proofs.Places
import Formula.Proofs.Slots.Building

/-!
# Arguments are counted by the commas

The arguments of a call are counted by what is written in its parentheses: one more than there are
commas at that level, or none if there is no comma and nothing in the parentheses is read.  A slot is
empty if nothing in it is read, which is so of blanks, and of characters that could not be read as
well.  Calls are reported by this count, and empty slots if there is a comma.

The builder makes the slots (`Builder.slotted_tokens`).  That a slot with a part is not passed over
follows from the characters being shared among parts and errors (`covers_eq_false_of_covers`): a
part covers its first character, which is no blank and in no error.
-/

namespace Formula

variable {text : Text} {r : Registry}

instance (text : Text) (errors : List ParseError) (n : Nat) : Decidable (UnreadAt text errors n) :=
  inferInstanceAs (Decidable (_ ∨ _))

instance (text : Text) (errors : List ParseError) (a b : Nat) :
    Decidable (Unread text errors a b) :=
  inferInstanceAs (Decidable (∀ n, n < b → a ≤ n → UnreadAt text errors n))

/-- The number of arguments in the parentheses from `o` to `c`: one more than there are commas, or
none if there is no comma and nothing in the parentheses is read. -/
def writtenArguments (text : Text) (errors : List ParseError) (o c : Nat) : Nat :=
  if separators text o = [] ∧ Unread text errors (o + 1) c then 0
  else (separators text o).length + 1

theorem Builder.closeAll_ne_nil (f : Frame) (stop : Nat) (items : List Part) (frames : List Frame) :
    closeAll text stop items (f :: frames) ≠ [] := by
  induction frames generalizing items f with
  | nil =>
    obtain ⟨bracket, position, before⟩ := f
    cases bracket <;> exact List.cons_ne_nil _ _
  | cons g frames ih => exact ih g _

/-- Every call of a formula is slotted. -/
theorem slotted_parse {p : Part} (h : p ∈ walkAll (parse r text).items) :
    p.Slotted text (Builder.empty.run text (tokens r text)).errors := by
  have hslotted := Builder.slotted_tokens r text
  have hlaid := Builder.laid_tokens r text
  rcases Builder.mem_walkAll_finish h with hpart | ⟨inner, f, outer, hframes, hclose⟩
  · exact hslotted.parts p hpart
  · have hmem : f ∈ (Builder.empty.run text (tokens r text)).frames :=
      hframes ▸ List.mem_append_right _ List.mem_cons_self
    obtain ⟨hf, hinner⟩ := hlaid.frames f hmem
    refine slotted_of_close (hslotted.frames f hmem) hf hinner
      (Nat.le_of_eq hlaid.follows.position) rfl ?_ hclose
    intro hnil n hn
    cases inner with
    | nil => exact hslotted.current hnil f (by rw [hframes]; rfl) n hn
    | cons g inner => exact absurd hnil (Builder.closeAll_ne_nil g _ _ inner)

/-- The same characters are passed over when all errors have been found and joined. -/
theorem unreadAt_parse_iff {n : Nat} : UnreadAt text (parse r text).errors n ↔
    UnreadAt text (Builder.empty.run text (tokens r text)).errors n := by
  have hcount := countP_errors_parse r text n
  have hexists : ∀ errors : List ParseError,
      (∃ e ∈ errors, e.isLexical = true ∧ e.covers n = true) ↔
        0 < errors.countP fun e => e.isLexical && e.covers n := by
    intro errors
    simp [List.countP_pos_iff]
  rw [UnreadAt, UnreadAt, hexists, hexists, hcount]

theorem unread_parse_iff {a b : Nat} : Unread text (parse r text).errors a b ↔
    Unread text (Builder.empty.run text (tokens r text)).errors a b :=
  forall₃_congr fun _ _ _ => unreadAt_parse_iff

/-- A part that is no group is a leaf. -/
theorem exists_leaf?_of_isGroup {p : Part} (hp : p.isGroup = false) :
    ∃ l, p.leaf? = some l ∧ l.excerpt = p.excerpt := by
  cases p with
  | group => cases hp
  | number | operator | constant | free | call => exact ⟨_, rfl, rfl⟩

/-- No part is empty. -/
theorem start_lt_stop {p : Part} (h : p ∈ walkAll (parse r text).items) : p.start < p.stop := by
  cases hgroup : p.isGroup with
  | true =>
    have hformed := formed_of_mem_walkAll h
    cases p with
    | group e items =>
      obtain ⟨c, hends, hstop, -⟩ := hformed
      have hlt := hends.lt
      change e.start < e.stop
      omega
    | number | operator | constant | free | call => cases hgroup
  | false =>
    exact (inside_spelledParts r text p (List.mem_filter.2 ⟨h, by simp [hgroup]⟩)).1

/-- A part starts with a character that is not blank. -/
theorem exists_start {p : Part} (h : p ∈ walkAll (parse r text).items) :
    ∃ c, text[p.start]? = some c ∧ isBlank c = false := by
  cases hgroup : p.isGroup with
  | true =>
    cases p with
    | group e items =>
      obtain ⟨c, ⟨hopening, -⟩, -⟩ := laid_parse h
      exact ⟨'(', hopening, by decide⟩
    | number | operator | constant | free | call => cases hgroup
  | false =>
    obtain ⟨l, hl, hexcerpt⟩ := exists_leaf?_of_isGroup hgroup
    have hword := isWord_leaves r text l (List.mem_filterMap.2 ⟨p, h, hl⟩)
    rw [hexcerpt] at hword
    obtain ⟨c, rest, htext⟩ := List.exists_cons_of_ne_nil hword.ne_nil
    obtain ⟨read, more, heq, hstart⟩ := standsIn_iff.1 hword.stands
    refine ⟨c, ?_, ?_⟩
    · rw [Part.start, hstart, heq, htext]
      simp
    · have hsolid := hword.solid c (by rw [htext]; exact List.mem_cons_self)
      by_contra hblank
      rw [isDelimiter_of_isBlank (by simpa using hblank)] at hsolid
      cases hsolid

/-- The first character of a part could be read. -/
theorem countP_errors_start {p : Part} (h : p ∈ walkAll (parse r text).items) :
    (parse r text).errors.countP (fun e => e.isLexical && e.covers p.start) = 0 := by
  rw [List.countP_eq_zero]
  intro e he hboth
  obtain ⟨hlexical, hcovers⟩ := Bool.and_eq_true_iff.1 hboth
  cases hgroup : p.isGroup with
  | true =>
    cases p with
    | group e items =>
      obtain ⟨o, ⟨hopening, -⟩, -⟩ := laid_parse h
      obtain ⟨c, hc, hsolid⟩ :=
        solidCount_eq_one_iff.1 (countP_of_covers he hlexical hcovers).1
      obtain rfl := Option.some.inj (hopening.symm.trans hc)
      revert hsolid
      decide
    | number | operator | constant | free | call => cases hgroup
  | false =>
    have hmem : p ∈ spelledParts (parse r text).items := List.mem_filter.2 ⟨h, by simp [hgroup]⟩
    have hpart : p.excerpt.covers p.start = true := by
      rw [Excerpt.covers, Bool.and_eq_true, decide_eq_true_eq, decide_eq_true_eq]
      exact ⟨Nat.le_refl _, start_lt_stop h⟩
    rw [covers_eq_false_of_covers he hlexical hcovers p hmem] at hpart
    cases hpart

/-- A part is not passed over. -/
theorem not_unreadAt_start {p : Part} (h : p ∈ walkAll (parse r text).items) :
    ¬ UnreadAt text (parse r text).errors p.start := by
  rintro (hblank | ⟨e, he, hlexical, hcovers⟩)
  · obtain ⟨c, hc, hnot⟩ := exists_start h
    rw [hc, Option.any_some, hnot] at hblank
    cases hblank
  · have hzero := countP_errors_start h
    rw [List.countP_eq_zero] at hzero
    exact hzero e he (by rw [hlexical, hcovers]; rfl)

section Call

variable {f : Operation} {name : Excerpt} {slots : List Slot}

/-- **A slot is empty just if nothing in it is read.** -/
theorem isEmpty_iff_unread (h : .call f name slots ∈ walkAll (parse r text).items) {s : Slot}
    (hs : s ∈ slots) : s.isEmpty = true ↔
      Unread text (parse r text).errors s.excerpt.start s.excerpt.stop := by
  constructor
  · intro hempty
    exact unread_parse_iff.2 ((slotted_parse h).2 s hs hempty)
  · intro hunread
    obtain ⟨e, items⟩ := s
    cases items with
    | nil => rfl
    | cons p items =>
      obtain ⟨-, -, -, -, -, hinside⟩ := formed_of_mem_walkAll h
      have hp : p ∈ walkAll (parse r text).items := by
        obtain ⟨l, hl, hmem⟩ := mem_walkAll_iff.1 h
        exact mem_walkAll_iff.2 ⟨_, hl.slot hmem hs, List.mem_cons_self⟩
      obtain ⟨row, hrow, hwritten⟩ := exists_row p 0 (operandCount false (!items.isEmpty))
      have hrows : row ∈ rowsOf 0 false (p :: items) := by
        rw [rowsOf]
        exact List.mem_append_left _ hrow
      obtain ⟨hstart, hstop⟩ := hinside _ hs row hrows
      rw [hwritten] at hstart hstop
      have hlt := start_lt_stop hp
      exact absurd (hunread p.start (Nat.lt_of_lt_of_le hlt hstop) hstart) (not_unreadAt_start hp)

/-! ## Counting -/

theorem suppliedArguments_concat (init : List Slot) (last : Slot) :
    suppliedArguments (init ++ [last]) =
      if init = [] ∧ last.isEmpty = true then 0 else init.length + 1 := by
  cases init with
  | nil => simp [suppliedArguments]
  | cons s init => cases init <;> simp [suppliedArguments]

/-- The slots of a call fill its parentheses, with the commas at that level between them. -/
theorem separators_of_mem_walkAll (h : .call f name slots ∈ walkAll (parse r text).items) :
    ∃ o c, name.LeadsTo text o ∧ EndsAt text o c ∧ SlotsFill text (o + 1) c slots ∧
      slots.dropLast.map (·.excerpt.stop) = separators text o := by
  obtain ⟨o, c, hname, hends, hfill, -⟩ := formed_of_mem_walkAll h
  obtain ⟨first, hfirst, hstart⟩ := hfill.head_getLast.1
  refine ⟨o, c, hname, hends, hfill, (slotted_parse h).1 o ?_⟩
  rw [hfirst, Option.map_some, hstart]

/-- **Arguments are counted by the commas.** -/
theorem suppliedArguments_eq (h : .call f name slots ∈ walkAll (parse r text).items) {o c : Nat}
    (hfill : SlotsFill text (o + 1) c slots)
    (hstops : slots.dropLast.map (·.excerpt.stop) = separators text o) :
    suppliedArguments slots = writtenArguments text (parse r text).errors o c := by
  obtain ⟨init, last, rfl, hupto, hlast⟩ := hfill
  have hempty := isEmpty_iff_unread h (List.mem_append_right init (List.mem_singleton_self last))
  rw [List.dropLast_concat] at hstops
  have hlength : init.length = (separators text o).length := by rw [← hstops, List.length_map]
  have hnone : init = [] ∧ last.isEmpty = true ↔
      separators text o = [] ∧ Unread text (parse r text).errors (o + 1) c := by
    rw [← hstops, List.map_eq_nil_iff, hempty, hlast]
    refine and_congr_right fun hinit => ?_
    subst hinit
    have hstart : o + 1 = last.excerpt.start := hupto
    rw [hstart]
  rw [suppliedArguments_concat, writtenArguments, if_congr hnone rfl rfl, hlength]

end Call

/-! ## What is reported -/

/-- What is reported of arguments is what is wrong with the calls. -/
theorem mem_errors_call_iff {e : ParseError} (he : e.concernsArguments = true)
    (hoperator : ∀ signature, e.cause ≠ .operatorArguments signature) :
    e ∈ (parse r text).errors ↔
      ∃ f name slots, .call f name slots ∈ walkAll (parse r text).items ∧
        e ∈ callErrors f name slots := by
  have hidentifier : e.identifier?.isSome = false := by
    obtain ⟨cause, start, length⟩ := e
    cases cause with
    | unknownIdentifier => cases he
    | _ => rfl
  have hmem : e ∈ (parse r text).errors ↔
      e ∈ argumentErrors
        (unknownPositions (Builder.empty.run text (tokens r text)).allErrors) text.length
        (parse r text).items := by
    simp only [parse]
    rw [mem_collapse_iff hidentifier, List.mem_append, or_iff_right]
    · intro hfound
      rw [(isMarked_allErrors r text e hfound).not_concernsArguments] at he
      cases he
  rw [hmem]
  constructor
  · intro h
    obtain ⟨p, hp, hcauses⟩ := exists_causes_of_mem_argumentErrors h
    cases hcauses with
    | operator op e => exact absurd rfl (hoperator _)
    | call h => exact ⟨_, _, _, hp, h⟩
  · rintro ⟨f, name, slots, hp, h⟩
    exact callErrors_subset_argumentErrors hp h

theorem accepts_eq_false_iff {s : Signature} {n : Nat} :
    s.accepts n = false ↔ n < s.required ∨ ∃ m, s.maximum? = some m ∧ m < n := by
  rw [Signature.accepts]
  cases s.maximum? <;> simp [← Bool.not_eq_true, imp_iff_not_or]

/-- **How arguments are counted, and what is reported of them.**  The slots of a call fill its
parentheses, with the commas at that level between them, and its row in the outline records the
number of arguments that is written.  A slot is reported to be empty just if there are several and
nothing in this one is read, and a call is reported just if it supplies too few or too many
arguments. -/
theorem slots_parse (r : Registry) (text : Text) :
    (∀ f name slots, .call f name slots ∈ walkAll (parse r text).items → ∃ o c,
      name.LeadsTo text o ∧ EndsAt text o c ∧ SlotsFill text (o + 1) c slots ∧
      slots.dropLast.map (·.excerpt.stop) = separators text o ∧
      suppliedArguments slots = writtenArguments text (parse r text).errors o c ∧
      ∃ depth, ⟨depth, .function, name, some f.literal, some (suppliedArguments slots),
        slots.length⟩ ∈ rowsOf 0 false (parse r text).items) ∧
    (∀ n length, ⟨.emptyArgument, n, length⟩ ∈ (parse r text).errors ↔
      ∃ f name slots, .call f name slots ∈ walkAll (parse r text).items ∧ 1 < slots.length ∧
        ∃ s ∈ slots, Unread text (parse r text).errors s.excerpt.start s.excerpt.stop ∧
          n = s.excerpt.start ∧ length = s.excerpt.length) ∧
    ∀ signature count n length,
      ⟨.functionArguments signature count, n, length⟩ ∈ (parse r text).errors ↔
        ∃ f name slots, .call f name slots ∈ walkAll (parse r text).items ∧
          signature = f.signature ∧ count = suppliedArguments slots ∧ n = name.start ∧
          length = name.length ∧
          (count < signature.required ∨ ∃ m, signature.maximum? = some m ∧ m < count) := by
  refine ⟨?_, ?_, ?_⟩
  · intro f name slots h
    obtain ⟨o, c, hname, hends, hfill, hstops⟩ := separators_of_mem_walkAll h
    obtain ⟨depth, operands, hrows⟩ := exists_rows_of_mem_walkAll h
    rw [Part.rows] at hrows
    exact ⟨o, c, hname, hends, hfill, hstops, suppliedArguments_eq h hfill hstops, depth,
      hrows List.mem_cons_self⟩
  · intro n length
    rw [mem_errors_call_iff rfl (by simp)]
    refine exists_congr fun f => exists_congr fun name => exists_congr fun slots =>
      and_congr_right fun h => ?_
    rw [mem_callErrors_iff]
    constructor
    · rintro (⟨hlength, s, hs, hempty, heq⟩ | ⟨-, heq⟩)
      · obtain ⟨-, rfl, rfl⟩ := ParseError.mk.inj heq
        exact ⟨hlength, s, hs, (isEmpty_iff_unread h hs).1 hempty, rfl, rfl⟩
      · cases heq
    · rintro ⟨hlength, s, hs, hunread, rfl, rfl⟩
      exact .inl ⟨hlength, s, hs, (isEmpty_iff_unread h hs).2 hunread, rfl⟩
  · intro signature count n length
    rw [mem_errors_call_iff rfl (by simp)]
    refine exists_congr fun f => exists_congr fun name => exists_congr fun slots =>
      and_congr_right fun h => ?_
    rw [mem_callErrors_iff, ← accepts_eq_false_iff]
    constructor
    · rintro (⟨-, s, -, -, heq⟩ | ⟨haccepts, heq⟩)
      · cases heq
      · obtain ⟨hcause, rfl, rfl⟩ := ParseError.mk.inj heq
        obtain ⟨rfl, rfl⟩ := ParseError.Cause.functionArguments.inj hcause
        exact ⟨rfl, rfl, rfl, rfl, haccepts⟩
    · rintro ⟨rfl, rfl, rfl, rfl, haccepts⟩
      exact .inr ⟨haccepts, rfl⟩

/-- A slot that is reported to be empty may hold text, which then could not be read. -/
theorem not_forall_isBlank_of_emptyArgument :
    ¬ ∀ (r : Registry) (text : Text), ∀ e ∈ (parse r text).errors, e.cause = .emptyArgument →
      ∀ c ∈ text.slice e.start e.stop, isBlank c = true := by
  intro h
  have hmem : ⟨.emptyArgument, 6, 1⟩ ∈ (parse .standard "max(1,@)".toList).errors := by
    decide +kernel
  have hblank := h .standard "max(1,@)".toList _ hmem rfl '@' (by decide)
  revert hblank
  decide

end Formula

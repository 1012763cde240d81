import Formula.Proofs.Composition
import Formula.Proofs.Grammar.Standard
import Formula.Proofs.Variation.Building

/-!
# Negative numbers

A number with a minus sign is the first part of its sibling list, and no list begins with a minus
sign that a number touches: the two have become one part.  This is so in every list of a tree,
whatever is wrong with the formula.

A list grows at its end, so what stands first stays there once something comes after it.  The
builder has to be followed for the whole formula only: as reading is compositional, every other list
is the list of a formula as well, further to the right.
-/

namespace Formula

/-- Where minus signs belong to the numbers of a sibling list, and where they do not. -/
structure SignsJoined (items : List Part) : Prop where
  /-- A number with a sign is the first part, and a number follows the sign. -/
  signed : ∀ (i : Nat) (e : Excerpt) (t : Text), items[i]? = some (.number e) → e.text = '-' :: t →
    i = 0 ∧ IsNumeral t
  /-- All other numbers are written without a sign. -/
  plain : ∀ e : Excerpt, .number e ∈ items → e.text.head? ≠ some '-' → IsNumeral e.text
  /-- A minus sign at the beginning does not touch a number. -/
  apart : ∀ (op : Operator) (sign e : Excerpt) (rest : List Part),
    items = .operator op sign :: .number e :: rest → op.literal = ['-'] → sign.stop ≠ e.start

/-- A number without a sign does not begin with one. -/
theorem head?_ne_of_isPlain {t : Text} (h : Numeral.isPlain t = true) : t.head? ≠ some '-' := by
  intro hhead
  have hminus : '-' ∈ t := List.mem_of_mem_head? hhead
  obtain ⟨ds, fs, hdigits, hshape⟩ := isNumeral_iff.2 h
  have hnot : '-' ∉ ds ++ fs := by
    intro hmem
    cases hdigits '-' hmem
  rw [List.mem_append, not_or] at hnot
  rcases hshape with ⟨-, rfl | rfl⟩ | ⟨-, rfl⟩
  · exact hnot.1 hminus
  · simp [hnot.1, hnot.2] at hminus
  · simp [hnot.2] at hminus

theorem signsJoined_nil : SignsJoined [] where
  signed i e t h := by simp at h
  plain e h := by cases h
  apart op sign e rest h := by cases h

/-- A number with a sign is alone in its list at first. -/
theorem signsJoined_negative {e : Excerpt} {t : Text} (he : e.text = '-' :: t)
    (ht : Numeral.isPlain t = true) : SignsJoined [.number e] where
  signed i f u h hf := by
    have hi : i < 1 := (List.getElem?_eq_some_iff.1 h).1
    obtain rfl : i = 0 := by omega
    obtain rfl : e = f := Part.number.inj (Option.some.inj h)
    obtain rfl : u = t := (List.cons.inj (hf.symm.trans he)).2
    exact ⟨rfl, isNumeral_iff.2 ht⟩
  plain f h hf := by
    obtain rfl := Part.number.inj (List.mem_singleton.1 h)
    rw [he] at hf
    exact absurd rfl hf
  apart op sign f rest h := by cases h

namespace SignsJoined

variable {xs ys : List Part} {p : Part}

theorem of_append (h : SignsJoined (xs ++ ys)) : SignsJoined xs where
  signed i e t hi :=
    h.signed i e t (by rw [List.getElem?_append_left (List.getElem?_eq_some_iff.1 hi).1, hi])
  plain e he := h.plain e (List.mem_append_left _ he)
  apart op sign e rest hxs := by
    refine h.apart op sign e (rest ++ ys) ?_
    rw [hxs, List.cons_append, List.cons_append]

/-- A part more, which may be a number without a sign if it touches no lone minus sign. -/
theorem concat (h : SignsJoined xs)
    (hp : ∀ e, p = .number e → Numeral.isPlain e.text = true ∧ ¬ Builder.Joins e.start xs) :
    SignsJoined (xs ++ [p]) where
  signed i e t hi ht := by
    rcases Nat.lt_or_ge i xs.length with hlt | hge
    · rw [List.getElem?_append_left hlt] at hi
      exact h.signed i e t hi ht
    · have hlt := (List.getElem?_eq_some_iff.1 hi).1
      rw [List.length_append, List.length_singleton] at hlt
      obtain rfl : i = xs.length := by omega
      rw [List.getElem?_concat_length] at hi
      have hhead := head?_ne_of_isPlain (hp e (Option.some.inj hi)).1
      rw [ht] at hhead
      exact absurd rfl hhead
  plain e he hhead := by
    rcases List.mem_append.1 he with he | he
    · exact h.plain e he hhead
    · exact isNumeral_iff.2 (hp e (List.mem_singleton.1 he).symm).1
  apart op sign e rest hxs hop htouch := by
    cases xs with
    | nil => cases hxs
    | cons q xs =>
      obtain ⟨rfl, hrest⟩ := List.cons.inj hxs
      cases xs with
      | nil =>
        obtain rfl := (List.cons.inj hrest).1
        exact (hp e rfl).2 ⟨op, sign, rfl, hop, htouch⟩
      | cons q xs =>
        obtain ⟨rfl, -⟩ := List.cons.inj hrest
        exact h.apart op sign e xs rfl hop htouch

/-- **A list further to the right.** -/
theorem shift {items : List Part} (h : SignsJoined items) (d : Nat) :
    SignsJoined (shiftAll d items) := by
  have hnumber : ∀ (p : Part) (e : Excerpt), p.shift d = .number e →
      ∃ f, p = .number f ∧ e = f.shift d := by
    intro p e hp
    cases p with
    | number f =>
      rw [Part.shift] at hp
      exact ⟨f, rfl, (Part.number.inj hp).symm⟩
    | _ =>
      rw [Part.shift] at hp
      cases hp
  have hoperator : ∀ (p : Part) (op : Operator) (e : Excerpt), p.shift d = .operator op e →
      ∃ f, p = .operator op f ∧ e = f.shift d := by
    intro p op e hp
    cases p with
    | operator op' f =>
      rw [Part.shift] at hp
      obtain ⟨rfl, rfl⟩ := Part.operator.inj hp
      exact ⟨f, rfl, rfl⟩
    | _ =>
      rw [Part.shift] at hp
      cases hp
  have hmap : shiftAll d items = items.map (Part.shift d) := by
    rw [← relabelAll_rightward, relabelAll_eq_map, funext relabel_rightward]
  rw [hmap]
  refine ⟨?_, ?_, ?_⟩
  · intro i e t hi ht
    rw [List.getElem?_map, Option.map_eq_some_iff] at hi
    obtain ⟨p, hp, hshift⟩ := hi
    obtain ⟨f, rfl, rfl⟩ := hnumber p e hshift
    exact h.signed i f t hp ht
  · intro e he hhead
    obtain ⟨p, hp, hshift⟩ := List.mem_map.1 he
    obtain ⟨f, rfl, rfl⟩ := hnumber p e hshift
    exact h.plain f hp hhead
  · intro op sign e rest hitems hop htouch
    obtain ⟨p, tail, rfl, hp, htail⟩ := List.map_eq_cons_iff.1 hitems
    obtain ⟨q, tail, rfl, hq, -⟩ := List.map_eq_cons_iff.1 htail
    obtain ⟨f, rfl, rfl⟩ := hoperator p op sign hp
    obtain ⟨g, rfl, rfl⟩ := hnumber q e hq
    refine h.apart op f g tail rfl hop ?_
    simp only [Excerpt.shift, Excerpt.stop] at htouch ⊢
    omega

end SignsJoined

/-! ## The builder -/

namespace Builder

variable {text : Text} {b : Builder} {r : Registry}

/-- The signs of the lists that are being built, each with the last part first. -/
structure SignsJoined (b : Builder) : Prop where
  /-- The innermost list. -/
  items : Formula.SignsJoined b.items.reverse
  /-- The lists before open parentheses. -/
  frames : ∀ f ∈ b.frames, Formula.SignsJoined f.before.reverse

/-- A parenthesis that is closed adds a part that is no number. -/
theorem signsJoined_close {f : Frame} {items : List Part} {inner outer : Nat}
    (h : Formula.SignsJoined f.before.reverse) :
    Formula.SignsJoined (close text f items inner outer).reverse := by
  obtain ⟨bracket, position, before⟩ := f
  cases bracket with
  | group =>
    rw [close, List.reverse_cons]
    exact h.concat fun e he => by cases he
  | call =>
    rw [close, List.reverse_cons]
    exact h.concat fun e he => by cases he

/-- A number that is added, whether it joins a sign or not. -/
theorem signsJoined_push {items : List Part} {n : Text} {position : Nat}
    (h : Formula.SignsJoined items.reverse) (hn : Numeral.isPlain n = true)
    (hsign : ∀ op sign, items = [.operator op sign] → op.literal = ['-'] → sign.text = ['-']) :
    Formula.SignsJoined (push (.number ⟨position, n⟩) items).reverse := by
  rcases push_number_or ⟨position, n⟩ items with ⟨op, sign, hitems, hop, -, hpush⟩ | ⟨hnot, hpush⟩
  · rw [hpush]
    exact signsJoined_negative (t := n) (by simp [hsign op sign hitems hop]) hn
  · rw [hpush, List.reverse_cons]
    refine h.concat fun e he => ?_
    obtain rfl := Part.number.inj he
    refine ⟨hn, ?_⟩
    rintro ⟨op, sign, hitems, hop, htouch⟩
    exact hnot ⟨op, sign, by simpa using congrArg List.reverse hitems, hop, htouch⟩

/-- **A token keeps the signs as they are.** -/
theorem SignsJoined.step {tok : Token} {following : Text} (h : b.SignsJoined)
    (hfits : tok.Fits r following) (hgenuine : ∀ l ∈ b.leaves, l.Genuine r) :
    (b.step text tok).SignsJoined := by
  obtain ⟨hitems, hframes⟩ := h
  cases tok with
  | blank | unknown | repeatedPoint | uncalled => exact ⟨hitems, hframes⟩
  | number n =>
    refine ⟨signsJoined_push hitems hfits ?_, hframes⟩
    intro op sign hlone hop
    have hleaf := hgenuine (.symbol (.operator op) sign) (by simp [leaves, hlone])
    refine eq_singleton_of_lower (by decide) (hleaf.2.trans ?_)
    simp [Symbol.key, Symbol.literal, hop]
  | symbol s w =>
    rw [step_symbol]
    refine ⟨?_, hframes⟩
    rw [List.reverse_cons]
    exact hitems.concat fun e he => by cases s <;> cases he
  | opening =>
    have hbefore : Formula.SignsJoined (b.items.drop 1).reverse := by
      rw [← List.take_append_drop 1 b.items, List.reverse_append] at hitems
      exact hitems.of_append
    rw [Builder.step, take, openBracket]
    split
    · rename_i f name before hcall
      rw [hcall] at hbefore
      exact ⟨signsJoined_nil, List.forall_mem_cons.2 ⟨hbefore, hframes⟩⟩
    · exact ⟨signsJoined_nil, List.forall_mem_cons.2 ⟨hitems, hframes⟩⟩
  | closing =>
    rw [Builder.step, take, closeBracket]
    split
    · exact ⟨hitems, hframes⟩
    · rename_i f outer heq
      obtain ⟨hf, houter⟩ := List.forall_mem_cons.1 (heq ▸ hframes)
      exact ⟨signsJoined_close hf, houter⟩
  | comma =>
    rw [Builder.step, take, separate]
    split
    · rename_i f name slots slotStart opened before outer heq
      obtain ⟨hf, houter⟩ := List.forall_mem_cons.1 (heq ▸ hframes)
      exact ⟨signsJoined_nil, List.forall_mem_cons.2 ⟨hf, houter⟩⟩
    · exact ⟨hitems, hframes⟩

theorem signsJoined_run {ts : List Token} {after : Text} (h : b.SignsJoined)
    (hfits : InContext (Token.Fits r) after ts) (hgenuine : ∀ l ∈ b.leaves, l.Genuine r) :
    (b.run text ts).SignsJoined := by
  induction ts generalizing b with
  | nil => exact h
  | cons tok ts ih =>
    rw [run_cons]
    exact ih (h.step hfits.1 hgenuine) hfits.2
      (genuine_leafStep (leafStep_step b tok) hfits.1 hgenuine)

/-- Parentheses that are closed at the end. -/
theorem signsJoined_finish (h : b.SignsJoined) : Formula.SignsJoined (b.finish text) := by
  obtain ⟨position, items, frames, errors, hints⟩ := b
  obtain ⟨hitems, hframes⟩ := h
  simp only [finish]
  induction frames generalizing items with
  | nil => exact hitems
  | cons f outer ih =>
    obtain ⟨hf, houter⟩ := List.forall_mem_cons.1 hframes
    exact ih _ (signsJoined_close hf) houter

end Builder

/-! ## Whole formulas -/

/-- The signs in the list that is the whole formula. -/
theorem signsJoined_items (r : Registry) (text : Text) : SignsJoined (parse r text).items := by
  have hempty : Builder.empty.SignsJoined := ⟨signsJoined_nil, by simp [Builder.empty]⟩
  have hleaves : ∀ l ∈ Builder.empty.leaves, l.Genuine r := by
    intro l hl
    cases hl
  exact Builder.signsJoined_finish
    (Builder.signsJoined_run hempty (fits_tokens r text) hleaves)

/-- **Where minus signs belong to numbers.**  In every sibling list of a formula, a number with a
minus sign is the first part, all other numbers are written without a sign, and a minus sign that
stands first does not touch a number. -/
theorem signsJoined_parse (r : Registry) (text : Text) (l : List Part)
    (hl : SiblingList (parse r text).items l) : SignsJoined l := by
  -- a list in a group or in a slot is the list of the text inside, moved to its place
  have hinside : ∀ {t : Text} {start : Nat} {items : List Part}, ReadsAs r t start items →
      SignsJoined items := by
    intro t start items h
    rw [h.parts]
    exact (signsJoined_items r t).shift start
  cases hl with
  | whole => exact signsJoined_items r text
  | group hlist hmem => exact hinside (readsAs_of_group (mem_walkAll_iff.2 ⟨_, hlist, hmem⟩)).2
  | slot hlist hmem hs =>
    exact hinside (readsAs_of_slot (mem_walkAll_iff.2 ⟨_, hlist, hmem⟩) _ hs)

/-- A group that begins with a negative number, in a formula that begins with a sign that stands
apart. -/
theorem signsJoined_parse_group :
    ∃ l, SiblingList (parse .standard "- 5(-.5+-3)".toList).items l ∧
      (walkAll l).map Part.excerpt =
        [⟨4, "-.5".toList⟩, ⟨7, "+".toList⟩, ⟨8, "-".toList⟩, ⟨9, "3".toList⟩] ∧
      SignsJoined l := by
  have hexcerpts : ((walkAll (parse .standard "- 5(-.5+-3)".toList).items).filter
      Part.isGroup).map (fun p => p.walk.map Part.excerpt) =
        [[⟨3, "(-.5+-3)".toList⟩, ⟨4, "-.5".toList⟩, ⟨7, "+".toList⟩, ⟨8, "-".toList⟩,
          ⟨9, "3".toList⟩]] := by decide +kernel
  obtain ⟨p, hp, hwalk⟩ := List.map_eq_singleton_iff.1 hexcerpts
  have hmem : p ∈ [p] := List.mem_cons_self
  rw [← hp, List.mem_filter] at hmem
  cases p with
  | group e items =>
    obtain ⟨l, hl, hgroup⟩ := mem_walkAll_iff.1 hmem.1
    have hlist := hl.group hgroup
    rw [Part.walk, List.map_cons] at hwalk
    exact ⟨items, hlist, (List.cons.inj hwalk).2, signsJoined_parse .standard _ items hlist⟩
  | _ => cases hmem.2

end Formula

import Formula.Proofs.Part.Leaves

/-!
# The sibling lists of a tree

A tree is made of sibling lists: the formula itself, the list in each group, and the list in each
slot of a call.  What holds of the formula, and passes from a list to the lists in its parts, holds
of all of them, by induction on `SiblingList`.
-/

namespace Formula

/-- A sibling list of a formula with the given parts. -/
inductive SiblingList (items : List Part) : List Part → Prop
  /-- The formula itself. -/
  | whole : SiblingList items items
  /-- The list in a group. -/
  | group {l inner : List Part} {e : Excerpt} :
    SiblingList items l → .group e inner ∈ l → SiblingList items inner
  /-- The list in a slot of a call. -/
  | slot {l : List Part} {f : Operation} {name : Excerpt} {slots : List Slot} {s : Slot} :
    SiblingList items l → .call f name slots ∈ l → s ∈ slots → SiblingList items s.items

theorem SiblingList.of_append {xs ys l : List Part} (h : SiblingList (xs ++ ys) l) :
    l = xs ++ ys ∨ SiblingList xs l ∨ SiblingList ys l := by
  induction h with
  | whole => exact .inl rfl
  | group _ hmem ih =>
    rcases ih with rfl | hxs | hys
    · rcases List.mem_append.1 hmem with hmem | hmem
      · exact .inr (.inl (.group .whole hmem))
      · exact .inr (.inr (.group .whole hmem))
    · exact .inr (.inl (hxs.group hmem))
    · exact .inr (.inr (hys.group hmem))
  | slot _ hmem hs ih =>
    rcases ih with rfl | hxs | hys
    · rcases List.mem_append.1 hmem with hmem | hmem
      · exact .inr (.inl (.slot .whole hmem hs))
      · exact .inr (.inr (.slot .whole hmem hs))
    · exact .inr (.inl (hxs.slot hmem hs))
    · exact .inr (.inr (hys.slot hmem hs))

/-- The lists of a part by itself. -/
theorem SiblingList.of_singleton {p : Part} {l : List Part} (h : SiblingList [p] l) :
    l = [p] ∨ (∃ e inner, p = .group e inner ∧ SiblingList inner l) ∨
      ∃ f name slots s, p = .call f name slots ∧ s ∈ slots ∧ SiblingList s.items l := by
  induction h with
  | whole => exact .inl rfl
  | group _ hmem ih =>
    rcases ih with rfl | ⟨e, inner, rfl, hl⟩ | ⟨f, name, slots, s, rfl, hs, hl⟩
    · obtain rfl := List.mem_singleton.1 hmem
      exact .inr (.inl ⟨_, _, rfl, .whole⟩)
    · exact .inr (.inl ⟨e, inner, rfl, hl.group hmem⟩)
    · exact .inr (.inr ⟨f, name, slots, s, rfl, hs, hl.group hmem⟩)
  | slot _ hmem hs ih =>
    rcases ih with rfl | ⟨e, inner, rfl, hl⟩ | ⟨f, name, slots, s, rfl, hs', hl⟩
    · obtain rfl := List.mem_singleton.1 hmem
      exact .inr (.inr ⟨_, _, _, _, rfl, hs, .whole⟩)
    · exact .inr (.inl ⟨e, inner, rfl, hl.slot hmem hs⟩)
    · exact .inr (.inr ⟨f, name, slots, s, rfl, hs', hl.slot hmem hs⟩)

/-- Induction on parts: a group or a call satisfies a statement if all parts of its lists do. -/
@[elab_as_elim]
theorem Part.induction {motive : Part → Prop}
    (number : ∀ e, motive (.number e))
    (operator : ∀ op e, motive (.operator op e))
    (constant : ∀ literal expression e, motive (.constant literal expression e))
    (free : ∀ literal e, motive (.free literal e))
    (group : ∀ e items, (∀ p ∈ items, motive p) → motive (.group e items))
    (call : ∀ f e slots, (∀ s ∈ slots, ∀ p ∈ s.items, motive p) → motive (.call f e slots)) :
    ∀ p, motive p :=
  @Part.rec motive (fun s => ∀ p ∈ s.items, motive p) (fun items => ∀ p ∈ items, motive p)
    (fun slots => ∀ s ∈ slots, ∀ p ∈ s.items, motive p)
    number operator constant free group call (fun _ _ ih => ih) (by simp)
    (fun _ _ hp hps => List.forall_mem_cons.2 ⟨hp, hps⟩) (by simp)
    (fun _ _ hs hss => List.forall_mem_cons.2 ⟨hs, hss⟩)

theorem mem_walk_self (p : Part) : p ∈ p.walk := by
  cases p <;> simp [Part.walk]

theorem mem_walkAll {q : Part} {ps : List Part} : q ∈ walkAll ps ↔ ∃ p ∈ ps, q ∈ p.walk := by
  induction ps with
  | nil => simp [walkAll]
  | cons p ps ih => simp [walkAll_cons, ih]

theorem mem_walkSlots {q : Part} {slots : List Slot} :
    q ∈ walkSlots slots ↔ ∃ s ∈ slots, q ∈ walkAll s.items := by
  induction slots with
  | nil => simp [walkSlots]
  | cons s slots ih => simp [walkSlots_cons, ih]

section Walk

variable {items : List Part} {q : Part}

/-- A part inside an element of a sibling list is an element of one. -/
theorem exists_siblingList_of_mem_walk (p : Part) {l : List Part} (hl : SiblingList items l)
    (hp : p ∈ l) (hq : q ∈ p.walk) : ∃ l, SiblingList items l ∧ q ∈ l := by
  induction p using Part.induction generalizing l with
  | group e inner ih =>
    rw [Part.walk, List.mem_cons, mem_walkAll] at hq
    rcases hq with rfl | ⟨p, hinner, hq⟩
    · exact ⟨l, hl, hp⟩
    · exact ih p hinner (hl.group hp) hinner hq
  | call f name slots ih =>
    rw [Part.walk, List.mem_cons, mem_walkSlots] at hq
    rcases hq with rfl | ⟨s, hs, hq⟩
    · exact ⟨l, hl, hp⟩
    · obtain ⟨p, hinner, hq⟩ := mem_walkAll.1 hq
      exact ih s hs p hinner (hl.slot hp hs) hinner hq
  | number | operator | constant | free => exact ⟨l, hl, by simp_all [Part.walk]⟩

theorem SiblingList.walkAll_subset {l : List Part} (hl : SiblingList items l) :
    walkAll l ⊆ walkAll items := by
  induction hl with
  | whole => exact List.Subset.refl _
  | @group l inner e _ hmem ih =>
    intro x hx
    refine ih (mem_walkAll.2 ⟨_, hmem, ?_⟩)
    rw [Part.walk]
    exact List.mem_cons_of_mem _ hx
  | @slot l f name slots s _ hmem hs ih =>
    intro x hx
    refine ih (mem_walkAll.2 ⟨_, hmem, ?_⟩)
    rw [Part.walk]
    exact List.mem_cons_of_mem _ (mem_walkSlots.2 ⟨s, hs, hx⟩)

/-- **The parts of a formula are the elements of its sibling lists.** -/
theorem mem_walkAll_iff : q ∈ walkAll items ↔ ∃ l, SiblingList items l ∧ q ∈ l := by
  constructor
  · intro hq
    obtain ⟨p, hp, hq⟩ := mem_walkAll.1 hq
    exact exists_siblingList_of_mem_walk p .whole hp hq
  · rintro ⟨l, hl, hq⟩
    exact hl.walkAll_subset (mem_walkAll.2 ⟨q, hq, mem_walk_self q⟩)

end Walk

end Formula

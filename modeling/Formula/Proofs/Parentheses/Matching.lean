import Formula.Text
import Mathlib.Data.List.Induction
import Mathlib.Data.List.Nodup
import Mathlib.Tactic.Common

/-!
# Matching parentheses

The parentheses of a text are matched from left to right with a stack: an opening parenthesis is put
on the stack, and a closing one is paired with the parenthesis on top of it.  A closing parenthesis
that finds the stack empty is *stray*, and what is left on the stack at the end is never closed.

The parentheses of a text are balanced if no beginning of it has more closing parentheses than
opening ones, and the whole text has as many of each.
-/

namespace Formula

/-- The parentheses of a text that has been read. -/
structure Matching where
  /-- The opening ones that are not closed, the last one first. -/
  opened : List Nat
  /-- The closing ones that close nothing. -/
  stray : List Nat
  /-- The pairs, in the order in which they are closed. -/
  pairs : List (Nat × Nat)

namespace Matching

/-- Nothing read. -/
def empty : Matching := ⟨[], [], []⟩

/-- The matching after the character `c`, which stands at position `n`. -/
def read (m : Matching) (n : Nat) (c : Char) : Matching :=
  if c = '(' then { m with opened := n :: m.opened }
  else if c = ')' then
    match m.opened with
    | [] => { m with stray := m.stray ++ [n] }
    | o :: outer => { m with opened := outer, pairs := m.pairs ++ [(o, n)] }
  else m

/-- The matching after a text that starts at position `n`. -/
def readFrom (m : Matching) (n : Nat) : Text → Matching
  | [] => m
  | c :: t => (m.read n c).readFrom (n + 1) t

/-- The parentheses of a text, matched. -/
def of (t : Text) : Matching := empty.readFrom 0 t

theorem read_opening (m : Matching) (n : Nat) :
    m.read n '(' = { m with opened := n :: m.opened } := rfl

theorem read_stray {m : Matching} (h : m.opened = []) (n : Nat) :
    m.read n ')' = { m with stray := m.stray ++ [n] } := by
  simp [read, h]

theorem read_pair {m : Matching} {o : Nat} {outer : List Nat} (h : m.opened = o :: outer) (n : Nat) :
    m.read n ')' = { m with opened := outer, pairs := m.pairs ++ [(o, n)] } := by
  simp [read, h]

theorem read_other (m : Matching) (n : Nat) {c : Char} (hopening : c ≠ '(') (hclosing : c ≠ ')') :
    m.read n c = m := by
  simp [read, hopening, hclosing]

theorem readFrom_append (m : Matching) (n : Nat) (s t : Text) :
    m.readFrom n (s ++ t) = (m.readFrom n s).readFrom (n + s.length) t := by
  induction s generalizing m n with
  | nil => rfl
  | cons c s ih =>
    rw [List.cons_append, readFrom, readFrom, ih, List.length_cons, Nat.add_right_comm, Nat.add_assoc]

theorem of_append (s t : Text) : of (s ++ t) = (of s).readFrom s.length t := by
  rw [of, readFrom_append, Nat.zero_add, of]

theorem of_concat (t : Text) (c : Char) : of (t ++ [c]) = (of t).read t.length c :=
  of_append t [c]

/-- **Pairs stay pairs when the text goes on.** -/
theorem pairs_subset (s t : Text) : (of s).pairs ⊆ (of (s ++ t)).pairs := by
  have hread : ∀ (m : Matching) (n : Nat) (c : Char), m.pairs ⊆ (m.read n c).pairs := by
    intro m n c
    rw [read]
    repeat' split
    · exact List.Subset.refl _
    · exact List.Subset.refl _
    · exact List.subset_append_left _ _
    · exact List.Subset.refl _
  have hfrom : ∀ (t : Text) (m : Matching) (n : Nat), m.pairs ⊆ (m.readFrom n t).pairs := by
    intro t
    induction t with
    | nil => exact fun m n => List.Subset.refl _
    | cons c t ih => exact fun m n => List.Subset.trans (hread m n c) (ih _ _)
  rw [of_append]
  exact hfrom t _ _

/-! ## Where parentheses stand -/

/-- A matching speaks of the parentheses of a text, and of each opening one once. -/
structure Placed (t : Text) (m : Matching) : Prop where
  /-- Parentheses that are not closed. -/
  opened : ∀ o ∈ m.opened, t[o]? = some '('
  /-- Parentheses that close nothing. -/
  stray : ∀ n ∈ m.stray, t[n]? = some ')'
  /-- Both sides of a pair. -/
  pairs : ∀ o n, (o, n) ∈ m.pairs → o < n ∧ t[o]? = some '(' ∧ t[n]? = some ')'
  /-- Every opening parenthesis is closed or not. -/
  every : ∀ o, t[o]? = some '(' → o ∈ m.opened ∨ o ∈ m.pairs.map Prod.fst
  /-- None is closed twice, or closed and not closed. -/
  once : (m.opened ++ m.pairs.map Prod.fst).Nodup
  /-- Those further in stand further to the right. -/
  ordered : m.opened.Pairwise fun o p => p < o

theorem getElem?_concat_length (t : Text) (c : Char) : (t ++ [c])[t.length]? = some c := by simp

theorem getElem?_concat {t : Text} {n : Nat} {a : Char} (h : t[n]? = some a) (c : Char) :
    (t ++ [c])[n]? = some a := by
  obtain ⟨hlt, -⟩ := List.getElem?_eq_some_iff.1 h
  rw [List.getElem?_append_left hlt, h]

theorem eq_length_or_of_getElem?_concat {t : Text} {n : Nat} {a c : Char}
    (h : (t ++ [c])[n]? = some a) : t[n]? = some a ∨ n = t.length ∧ a = c := by
  rcases Nat.lt_trichotomy n t.length with hlt | rfl | hgt
  · rw [List.getElem?_append_left hlt] at h
    exact .inl h
  · rw [getElem?_concat_length] at h
    exact .inr ⟨rfl, (Option.some.inj h).symm⟩
  · rw [List.getElem?_eq_none (by simp; omega)] at h
    cases h

theorem Placed.lt {t : Text} {m : Matching} (h : m.Placed t) {o : Nat}
    (ho : o ∈ m.opened ++ m.pairs.map Prod.fst) : o < t.length := by
  rcases List.mem_append.1 ho with ho | ho
  · exact (List.getElem?_eq_some_iff.1 (h.opened o ho)).1
  · obtain ⟨⟨o, n⟩, hpair, rfl⟩ := List.mem_map.1 ho
    exact (List.getElem?_eq_some_iff.1 (h.pairs o n hpair).2.1).1

theorem Placed.opening {t : Text} {m : Matching} (h : m.Placed t) :
    (m.read t.length '(').Placed (t ++ ['(']) := by
  rw [read_opening]
  refine ⟨?_, ?_, ?_, ?_, ?_, ?_⟩
  · refine List.forall_mem_cons.2 ⟨getElem?_concat_length .., ?_⟩
    exact fun o ho => getElem?_concat (h.opened o ho) _
  · exact fun n hn => getElem?_concat (h.stray n hn) _
  · intro o n hpair
    obtain ⟨hlt, ho, hn⟩ := h.pairs o n hpair
    exact ⟨hlt, getElem?_concat ho _, getElem?_concat hn _⟩
  · intro o ho
    rcases eq_length_or_of_getElem?_concat ho with ho | ⟨rfl, -⟩
    · exact (h.every o ho).imp_left (List.mem_cons_of_mem _)
    · exact .inl List.mem_cons_self
  · refine List.nodup_cons.2 ⟨?_, h.once⟩
    exact fun hmem => Nat.lt_irrefl _ (h.lt hmem)
  · refine List.pairwise_cons.2 ⟨?_, h.ordered⟩
    exact fun o ho => h.lt (List.mem_append_left _ ho)

theorem Placed.unpaired {t : Text} {m : Matching} (h : m.Placed t) (hnil : m.opened = []) :
    (m.read t.length ')').Placed (t ++ [')']) := by
  rw [read_stray hnil]
  refine ⟨fun o ho => getElem?_concat (h.opened o ho) _, ?_, ?_, ?_, h.once, h.ordered⟩
  · intro n hn
    rcases List.mem_append.1 hn with hn | hn
    · exact getElem?_concat (h.stray n hn) _
    · obtain rfl := List.mem_singleton.1 hn
      exact getElem?_concat_length ..
  · intro o n hpair
    obtain ⟨hlt, ho, hn⟩ := h.pairs o n hpair
    exact ⟨hlt, getElem?_concat ho _, getElem?_concat hn _⟩
  · intro o ho
    rcases eq_length_or_of_getElem?_concat ho with ho | ⟨-, ho⟩
    · exact h.every o ho
    · cases ho

theorem Placed.paired {t : Text} {m : Matching} {o : Nat} {outer : List Nat} (h : m.Placed t)
    (hcons : m.opened = o :: outer) : (m.read t.length ')').Placed (t ++ [')']) := by
  have hopened : ∀ p ∈ o :: outer, t[p]? = some '(' := hcons ▸ h.opened
  have hordered := h.ordered
  have honce := h.once
  rw [hcons] at hordered honce
  rw [read_pair hcons]
  refine ⟨?_, fun n hn => getElem?_concat (h.stray n hn) _, ?_, ?_, ?_, hordered.tail⟩
  · exact fun p hp => getElem?_concat (hopened p (List.mem_cons_of_mem _ hp)) _
  · intro p n hpair
    rcases List.mem_append.1 hpair with hpair | hpair
    · obtain ⟨hlt, hp, hn⟩ := h.pairs p n hpair
      exact ⟨hlt, getElem?_concat hp _, getElem?_concat hn _⟩
    · obtain ⟨rfl, rfl⟩ := Prod.mk.inj (List.mem_singleton.1 hpair)
      have hp := hopened p List.mem_cons_self
      exact ⟨(List.getElem?_eq_some_iff.1 hp).1, getElem?_concat hp _, getElem?_concat_length ..⟩
  · intro p hp
    rcases eq_length_or_of_getElem?_concat hp with hp | ⟨-, hp⟩
    · have hmem := h.every p hp
      rw [hcons, List.mem_cons] at hmem
      simp only [List.map_append, List.mem_append, List.map_singleton, List.mem_singleton]
      rcases hmem with (hmem | hmem) | hmem
      · exact .inr (.inr hmem)
      · exact .inl hmem
      · exact .inr (.inl hmem)
    · cases hp
  · -- the parenthesis is taken from the stack and put at the end of the pairs
    refine (List.Perm.nodup_iff ?_).2 honce
    rw [List.map_append, ← List.append_assoc]
    exact List.perm_append_comm

/-- **The matching of a text speaks of its parentheses**, and of each opening one once. -/
theorem placed_of (t : Text) : (of t).Placed t := by
  induction t using List.reverseRecOn with
  | nil => exact ⟨by simp [of, readFrom, empty], by simp [of, readFrom, empty],
      by simp [of, readFrom, empty], by simp, .nil, .nil⟩
  | append_singleton t c ih =>
    rw [of_concat]
    by_cases hopening : c = '('
    · subst hopening
      exact ih.opening
    · by_cases hclosing : c = ')'
      · subst hclosing
        cases hopened : (of t).opened with
        | nil => exact ih.unpaired hopened
        | cons o outer => exact ih.paired hopened
      · rw [read_other _ _ hopening hclosing]
        refine ⟨fun o ho => getElem?_concat (ih.opened o ho) _,
          fun n hn => getElem?_concat (ih.stray n hn) _, ?_, ?_, ih.once, ih.ordered⟩
        · intro o n hpair
          obtain ⟨hlt, ho, hn⟩ := ih.pairs o n hpair
          exact ⟨hlt, getElem?_concat ho _, getElem?_concat hn _⟩
        · intro o ho
          rcases eq_length_or_of_getElem?_concat ho with ho | ⟨-, ho⟩
          · exact ih.every o ho
          · exact absurd ho.symm hopening

/-- An opening parenthesis is closed by at most one closing parenthesis. -/
theorem eq_of_mem_pairs {t : Text} {o n n' : Nat} (h : (o, n) ∈ (of t).pairs)
    (h' : (o, n') ∈ (of t).pairs) : n = n' := by
  have hnodup : ((of t).pairs.map Prod.fst).Nodup := (List.nodup_append.1 (placed_of t).once).2.1
  exact (Prod.mk.inj (List.inj_on_of_nodup_map hnodup h h' rfl)).2

/-- An opening parenthesis that is closed is not open. -/
theorem not_mem_opened {t : Text} {o n : Nat} (h : (o, n) ∈ (of t).pairs) : o ∉ (of t).opened := by
  intro hopened
  have hdisjoint := (List.nodup_append.1 (placed_of t).once).2.2
  exact hdisjoint o hopened o (List.mem_map.2 ⟨_, h, rfl⟩) rfl

/-- The closing parentheses that are stray are met one after another. -/
theorem pairwise_stray (t : Text) : (of t).stray.Pairwise (· < ·) := by
  induction t using List.reverseRecOn with
  | nil => exact .nil
  | append_singleton t c ih =>
    have hafter : ((of t).stray ++ [t.length]).Pairwise (· < ·) := by
      refine List.pairwise_append.2 ⟨ih, List.pairwise_singleton .., ?_⟩
      intro n hn m hm
      obtain rfl := List.mem_singleton.1 hm
      exact (List.getElem?_eq_some_iff.1 ((placed_of t).stray n hn)).1
    rw [of_concat, read]
    repeat' split
    · exact ih
    · exact hafter
    · exact ih
    · exact ih

end Matching

/-! ## Balanced parentheses -/

/-- No beginning of the text has more closing parentheses than opening ones, and the text has as many
of each. -/
def BalancedParentheses (t : Text) : Prop :=
  (∀ n, (t.take n).count ')' ≤ (t.take n).count '(') ∧ t.count ')' = t.count '('

namespace Matching

/-- A closing parenthesis takes an opening one from the stack, or is stray. -/
theorem count_closing (t : Text) :
    t.count ')' + (of t).opened.length = t.count '(' + (of t).stray.length := by
  induction t using List.reverseRecOn with
  | nil => rfl
  | append_singleton t c ih =>
    rw [of_concat, List.count_append, List.count_append]
    by_cases hopening : c = '('
    · subst hopening
      have hcount : List.count ')' ['('] = 0 ∧ List.count '(' ['('] = 1 := by decide
      rw [read_opening]
      dsimp only
      rw [List.length_cons]
      omega
    · by_cases hclosing : c = ')'
      · subst hclosing
        have hcount : List.count ')' [')'] = 1 ∧ List.count '(' [')'] = 0 := by decide
        cases hopened : (of t).opened with
        | nil =>
          rw [hopened, List.length_nil] at ih
          rw [read_stray hopened, List.length_append, List.length_singleton, hopened,
            List.length_nil]
          omega
        | cons o outer =>
          rw [hopened, List.length_cons] at ih
          rw [read_pair hopened]
          dsimp only
          omega
      · have hcount : List.count ')' [c] = 0 ∧ List.count '(' [c] = 0 := by
          simp [hopening, hclosing]
        rw [read_other _ _ hopening hclosing]
        omega

theorem stray_concat_eq_nil_iff (t : Text) (c : Char) :
    (of (t ++ [c])).stray = [] ↔
      (of t).stray = [] ∧ (t ++ [c]).count ')' ≤ (t ++ [c]).count '(' + (of t).stray.length := by
  have hbefore := count_closing t
  have hafter := count_closing (t ++ [c])
  have hread : (of (t ++ [c])).stray = (of t).stray ∨
      (of (t ++ [c])).stray = (of t).stray ++ [t.length] ∧ (of (t ++ [c])).opened = [] := by
    rw [of_concat, read]
    repeat' split
    · exact .inl rfl
    · rename_i hnil
      exact .inr ⟨rfl, hnil⟩
    · exact .inl rfl
    · exact .inl rfl
  rcases hread with hread | ⟨hread, hnil⟩
  · rw [hread] at hafter ⊢
    exact ⟨fun h => ⟨h, by omega⟩, fun h => h.1⟩
  · rw [hread, hnil, List.length_append, List.length_singleton, List.length_nil] at hafter
    rw [hread]
    constructor
    · simp
    · rintro ⟨-, hcount⟩
      omega

/-- No closing parenthesis is stray just if no beginning has too many of them. -/
theorem stray_eq_nil_iff (t : Text) :
    (of t).stray = [] ↔ ∀ n, (t.take n).count ')' ≤ (t.take n).count '(' := by
  induction t using List.reverseRecOn with
  | nil => exact ⟨fun _ n => by simp, fun _ => rfl⟩
  | append_singleton t c ih =>
    rw [stray_concat_eq_nil_iff, ih]
    constructor
    · rintro ⟨hbefore, hall⟩ n
      rw [ih.2 hbefore, List.length_nil, Nat.add_zero] at hall
      rcases Nat.lt_or_ge t.length n with hn | hn
      · rw [List.take_of_length_le (by simp; omega)]
        exact hall
      · rw [List.take_append_of_le_length hn]
        exact hbefore n
    · intro h
      have hbefore : ∀ n, (t.take n).count ')' ≤ (t.take n).count '(' := by
        intro n
        have hmin := h (min n t.length)
        rw [List.take_append_of_le_length (Nat.min_le_right ..)] at hmin
        rwa [List.take_eq_take_min]
      have hall := h (t ++ [c]).length
      rw [List.take_length] at hall
      exact ⟨hbefore, Nat.le_add_right_of_le hall⟩

/-- **Nothing is left unmatched just if the parentheses are balanced.** -/
theorem balanced_iff (t : Text) : BalancedParentheses t ↔ (of t).stray = [] ∧ (of t).opened = [] := by
  have hcount := count_closing t
  rw [BalancedParentheses, ← stray_eq_nil_iff]
  refine and_congr_right fun hstray => ?_
  rw [hstray, List.length_nil] at hcount
  rw [← List.length_eq_zero_iff]
  omega

end Matching

end Formula

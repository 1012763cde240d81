import Formula.Assignment
import Formula.Numeral.Shortest
import Formula.Proofs.Token.Separation
import Mathlib.Data.List.TakeWhile
import Mathlib.Tactic.Common

/-!
# Outer blanks and assignments

A text is blanks, its trimmed form, and blanks again, and the trimmed form neither begins nor ends
with a blank.  There is only one way to divide a text like this (`trim_eq_of_isTrimmed`), so every
other fact about trimming is an equation between texts.

An assignment is a name, an equals sign and a number, with any blanks around them.  The name has no
equals sign, so the first one is the separator.
-/

namespace Formula

namespace Text

variable {s t u : Text}

/-- Whether a text neither begins nor ends with a blank. -/
structure IsTrimmed (t : Text) : Prop where
  /-- The first character is not blank. -/
  head : ∀ c, t.head? = some c → isBlank c = false
  /-- The last character is not blank. -/
  last : ∀ c, t.getLast? = some c → isBlank c = false

theorem isTrimmed_of_forall (h : ∀ c ∈ t, isBlank c = false) : t.IsTrimmed :=
  ⟨fun c hc => h c (List.mem_of_head? hc), fun c hc => h c (List.mem_of_getLast? hc)⟩

theorem forall_isBlank_eq_false (h : t.any isBlank = false) : ∀ c ∈ t, isBlank c = false := by
  simpa using h

/-- A text that begins and ends like trimmed texts. -/
theorem IsTrimmed.append (hs : s.IsTrimmed) (hu : u.IsTrimmed) (hsne : s ≠ []) (hune : u ≠ [])
    (t : Text) : (s ++ (t ++ u)).IsTrimmed := by
  obtain ⟨first, hfirst⟩ := Option.isSome_iff_exists.1 (List.isSome_head?.2 hsne)
  obtain ⟨last, hlast⟩ := Option.isSome_iff_exists.1 (List.getLast?_isSome.2 hune)
  constructor
  · intro c hc
    rw [List.head?_append, hfirst, Option.some_or] at hc
    exact hs.head c (hfirst.trans hc)
  · intro c hc
    rw [List.getLast?_append, List.getLast?_append, hlast, Option.some_or, Option.some_or] at hc
    exact hu.last c (hlast.trans hc)

theorem isBlank_head_dropWhile (t : Text) :
    ∀ c, (t.dropWhile isBlank).head? = some c → isBlank c = false := by
  intro c hc
  have h := List.head?_dropWhile_not isBlank t
  rw [hc] at h
  exact h

theorem trimEnd_append_blanks (hu : ∀ c ∈ u, isBlank c = true) (t : Text) :
    (t ++ u).trimEnd = t.trimEnd := by
  rw [trimEnd, trimEnd, List.reverse_append,
    List.dropWhile_append_of_pos fun c hc => hu c (List.mem_reverse.1 hc)]

theorem exists_trimEnd (t : Text) : ∃ u, t = t.trimEnd ++ u ∧ ∀ c ∈ u, isBlank c = true := by
  refine ⟨(t.reverse.takeWhile isBlank).reverse, ?_, ?_⟩
  · rw [trimEnd, ← List.reverse_append, List.takeWhile_append_dropWhile, List.reverse_reverse]
  · intro c hc
    exact List.mem_takeWhile_imp (List.mem_reverse.1 hc)

/-- **A text is its trimmed form between blanks.** -/
theorem exists_trim (t : Text) : ∃ s u, t = s ++ (t.trim ++ u) ∧
    (∀ c ∈ s, isBlank c = true) ∧ ∀ c ∈ u, isBlank c = true := by
  obtain ⟨u, hu, hblank⟩ := exists_trimEnd (t.dropWhile isBlank)
  refine ⟨t.takeWhile isBlank, u, ?_, fun c hc => List.mem_takeWhile_imp hc, hblank⟩
  rw [trim, ← hu, List.takeWhile_append_dropWhile]

/-- **The trimmed form is the only one** of a text without its outer blanks. -/
theorem trim_eq_of_isTrimmed (hs : ∀ c ∈ s, isBlank c = true) (ht : t.IsTrimmed)
    (hu : ∀ c ∈ u, isBlank c = true) : (s ++ (t ++ u)).trim = t := by
  have hstart : (s ++ (t ++ u)).dropWhile isBlank = t ++ (if t = [] then [] else u) := by
    rw [List.dropWhile_append_of_pos hs]
    cases t with
    | nil => simpa using List.dropWhile_eq_nil_iff.2 hu
    | cons c t => simp [ht.head c rfl]
  have hend : t.trimEnd = t := by
    rw [trimEnd]
    cases hlast : t.reverse with
    | nil => simpa using hlast.symm
    | cons c rest =>
      have hc : isBlank c = false := ht.last c (by simp [← List.head?_reverse, hlast])
      rw [List.dropWhile_cons_of_neg (by simp [hc]), ← hlast, List.reverse_reverse]
  rw [trim, hstart, trimEnd_append_blanks, hend]
  split
  · simp
  · exact hu

theorem IsTrimmed.trim (h : t.IsTrimmed) : t.trim = t := by
  simpa using trim_eq_of_isTrimmed (s := []) (u := []) (by simp) h (by simp)

theorem isTrimmed_trim (t : Text) : t.trim.IsTrimmed := by
  constructor
  · intro c hc
    obtain ⟨u, hu, -⟩ := exists_trimEnd (t.dropWhile isBlank)
    refine isBlank_head_dropWhile t c ?_
    rw [hu, ← Text.trim, List.head?_append, hc, Option.some_or]
  · intro c hc
    rw [Text.trim, trimEnd, List.getLast?_reverse] at hc
    exact isBlank_head_dropWhile _ c hc

@[simp] theorem trim_trim (t : Text) : t.trim.trim = t.trim :=
  (isTrimmed_trim t).trim

/-- Blanks around a text do not matter. -/
theorem trim_between_blanks (hs : ∀ c ∈ s, isBlank c = true) (hu : ∀ c ∈ u, isBlank c = true)
    (t : Text) : (s ++ (t ++ u)).trim = t.trim := by
  obtain ⟨before, after, ht, hbefore, hafter⟩ := exists_trim t
  have hsplit : s ++ (t ++ u) = (s ++ before) ++ (t.trim ++ (after ++ u)) := by
    rw [List.append_assoc, ← List.append_assoc t.trim, ← List.append_assoc before, ← ht]
  rw [hsplit]
  exact trim_eq_of_isTrimmed (List.forall_mem_append.2 ⟨hs, hbefore⟩) (isTrimmed_trim t)
    (List.forall_mem_append.2 ⟨hafter, hu⟩)

theorem trim_blanks_append (hs : ∀ c ∈ s, isBlank c = true) (t : Text) :
    (s ++ t).trim = t.trim := by
  simpa using trim_between_blanks (u := []) hs (by simp) t

theorem trim_append_blanks (hu : ∀ c ∈ u, isBlank c = true) (t : Text) :
    (t ++ u).trim = t.trim :=
  trim_between_blanks (s := []) (by simp) hu t

theorem cut?_eq_none_iff {c : Char} : t.cut? c = none ↔ c ∉ t := by
  induction t with
  | nil => simp [cut?]
  | cons d t ih =>
    by_cases hd : d = c
    · simp [cut?, hd]
    · simp [cut?, hd, ih, Ne.symm hd]

/-- **A text is cut at the first occurrence of a character.** -/
theorem cut?_eq_some_iff {c : Char} : t.cut? c = some (s, u) ↔ t = s ++ c :: u ∧ c ∉ s := by
  refine ⟨fun h => ⟨eq_of_cut? h, not_mem_of_cut? h⟩, ?_⟩
  rintro ⟨rfl, hs⟩
  induction s with
  | nil => simp [cut?]
  | cons d s ih =>
    rw [List.mem_cons, not_or] at hs
    rw [List.cons_append, cut?, if_neg (Ne.symm hs.1), ih hs.2]
    rfl

end Text

/-- A decimal is written with digits and a point. -/
theorem Decimal.mem_positional {d : Decimal} {c : Char} (h : c ∈ d.positional) :
    c.isDigit = true ∨ c = '.' := by
  have hdigit : ∀ c ∈ Text.ofNat d.coefficient, c.isDigit = true := fun c hc =>
    Nat.isDigit_of_mem_toDigits (by decide) (by decide) hc
  have hzero (n : Nat) : ∀ c ∈ List.replicate n '0', c.isDigit = true := by
    intro c hc
    rw [List.eq_of_mem_replicate hc]
    decide
  rw [Decimal.positional] at h
  split at h
  · exact .inl (List.forall_mem_append.2 ⟨hdigit, hzero _⟩ c h)
  · rcases List.mem_append.1 h with h | h
    · exact .inl (List.forall_mem_append.2 ⟨hzero _, hdigit⟩ c (List.mem_of_mem_take h))
    · rcases List.mem_cons.1 h with h | h
      · exact .inr h
      · exact .inl (List.forall_mem_append.2 ⟨hzero _, hdigit⟩ c (List.mem_of_mem_drop h))

/-- How a number is written: a sign, and a name or a decimal. -/
theorem Numeral.write_eq (x : Float) : ∃ sign body, Numeral.write x = sign ++ body ∧
    (sign = [] ∨ sign = ['-']) ∧
      (body = "NaN".toList ∨ body = "inf".toList ∨ body = ['0'] ∨
        ∃ d : Decimal, body = d.positional) := by
  have hsign : ∃ sign, (if Binary64.isNegative x then ['-'] else []) = sign ∧
      (sign = [] ∨ sign = ['-']) := by
    cases Binary64.isNegative x
    · exact ⟨[], rfl, .inl rfl⟩
    · exact ⟨['-'], rfl, .inr rfl⟩
  obtain ⟨sign, hwritten, hsign⟩ := hsign
  simp only [Numeral.write, hwritten]
  split
  · exact ⟨[], _, rfl, .inl rfl, .inl rfl⟩
  · split
    · exact ⟨sign, _, rfl, hsign, .inr (.inl rfl)⟩
    · split
      · exact ⟨sign, _, rfl, hsign, .inr (.inr (.inl rfl))⟩
      · exact ⟨sign, _, rfl, hsign, .inr (.inr (.inr ⟨_, rfl⟩))⟩

/-- **A number is written without blanks.** -/
theorem Numeral.isBlank_eq_false_of_mem_write {x : Float} :
    ∀ c ∈ Numeral.write x, isBlank c = false := by
  obtain ⟨sign, body, hwrite, hsign, hbody⟩ := Numeral.write_eq x
  rw [hwrite]
  refine List.forall_mem_append.2 ⟨?_, ?_⟩
  · rcases hsign with rfl | rfl <;> exact Text.forall_isBlank_eq_false (by decide)
  · rcases hbody with rfl | rfl | rfl | ⟨d, rfl⟩
    · exact Text.forall_isBlank_eq_false (by decide)
    · exact Text.forall_isBlank_eq_false (by decide)
    · exact Text.forall_isBlank_eq_false (by decide)
    · intro c hc
      rcases Decimal.mem_positional hc with hdigit | rfl
      · exact isBlank_of_isDelimiter_eq_false (not_isDelimiter_of_isDigit hdigit)
      · decide

namespace Assignment

variable {t : Text} {a : Assignment}

/-- **The texts that are assignments.** -/
theorem ofText_eq_ok_iff :
    ofText t = .ok a ↔ ∃ before after : Text, t = before ++ '=' :: after ∧ '=' ∉ before ∧
      before.trim = a.name ∧ a.name ≠ [] ∧ Numeral.read after.trim = .ok a.value := by
  obtain ⟨name, value⟩ := a
  constructor
  · intro h
    simp only [ofText] at h
    split at h
    · cases h
    · rename_i before after hcut
      obtain ⟨ht, hbefore⟩ := Text.cut?_eq_some_iff.1 hcut
      split at h
      · cases h
      · rename_i hne
        split at h
        · cases h
        · rename_i hvalue
          cases h
          exact ⟨before, after, ht, hbefore, rfl, hne, hvalue⟩
  · rintro ⟨before, after, ht, hbefore, rfl, hne, hvalue⟩
    rw [ofText, Text.cut?_eq_some_iff.2 ⟨ht, hbefore⟩]
    simp [hne, hvalue]

theorem trim_ne_nil (h : ofText t = .ok a) : t.trim ≠ [] := by
  obtain ⟨before, after, rfl, -⟩ := ofText_eq_ok_iff.1 h
  intro htrim
  obtain ⟨s, u, ht, hs, hu⟩ := Text.exists_trim (before ++ '=' :: after)
  have hmem : '=' ∈ s ++ u := by
    rw [htrim, List.nil_append] at ht
    simp [← ht]
  exact absurd (List.forall_mem_append.2 ⟨hs, hu⟩ '=' hmem) (by decide)

/-- **Blanks around an assignment do not matter.** -/
theorem ofText_trim (h : ofText t = .ok a) : ofText t.trim = .ok a := by
  obtain ⟨before, after, rfl, hbefore, hname, hne, hvalue⟩ := ofText_eq_ok_iff.1 h
  -- The blanks next to the equals sign stay, those at the two ends are taken away.
  obtain ⟨s, u, hsplit, hs, hu⟩ := Text.exists_trim before
  obtain ⟨s', u', hsplit', hs', hu'⟩ := Text.exists_trim after
  have hafter : after.trim ≠ [] := by
    intro hnil
    rw [hnil] at hvalue
    cases hvalue
  have htrim : (before ++ '=' :: after).trim = before.trim ++ ((u ++ '=' :: s') ++ after.trim) := by
    have hall : before ++ '=' :: after =
        s ++ ((before.trim ++ ((u ++ '=' :: s') ++ after.trim)) ++ u') := by
      conv_lhs => rw [hsplit, hsplit']
      simp
    rw [hall]
    exact Text.trim_eq_of_isTrimmed hs ((Text.isTrimmed_trim _).append (Text.isTrimmed_trim _)
      (hname ▸ hne) hafter _) hu'
  refine ofText_eq_ok_iff.2 ⟨before.trim ++ u, s' ++ after.trim, by simp [htrim], ?_, ?_, hne, ?_⟩
  · intro hmem
    refine hbefore ?_
    rw [hsplit]
    exact List.mem_append_right s hmem
  · rw [Text.trim_append_blanks hu, Text.trim_trim, hname]
  · rw [Text.trim_blanks_append hs', Text.trim_trim, hvalue]

end Assignment

end Formula

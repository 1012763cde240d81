import Mathlib.Data.List.TakeDrop
import Mathlib.Data.List.TakeWhile
import Mathlib.Tactic.Common
import Formula.Symbol.Basic
import Formula.Token.Basic

/-!
# Characters and plain numerals

Letters and digits are no delimiters, and folding the case of a character changes neither whether it
is a digit nor whether it is a delimiter; a text of digits and points it leaves as it is.  A plain
numeral consists of digits and at most one point, so it is read as a float, with or without a minus
sign in front of it.
-/

namespace Formula

theorem isUpper_iff (c : Char) : c.isUpper = true ↔ 65 ≤ c.toNat ∧ c.toNat ≤ 90 := by
  delta Char.isUpper
  exact decide_eq_true_iff

theorem toNat_toLower (c : Char) :
    c.toLower.toNat = if c.isUpper then c.toNat + 32 else c.toNat := by
  have hupper : c.isUpper = true ↔ c.val ≥ 'A'.val ∧ c.val ≤ 'Z'.val := isUpper_iff c
  by_cases h : c.val ≥ 'A'.val ∧ c.val ≤ 'Z'.val
  · have hc : c.toNat ≤ 90 := h.2
    rw [if_pos (hupper.2 h)]
    delta Char.toLower
    rw [dif_pos h]
    change (c.val + ('a'.val - 'A'.val)).toNat = c.val.toNat + 32
    rw [UInt32.toNat_add]
    change (c.toNat + 32) % 4294967296 = c.toNat + 32
    omega
  · rw [if_neg fun hc => h (hupper.1 hc)]
    delta Char.toLower
    rw [dif_neg h]

/-- Folding case moves the letters from `A` to `Z` by 32 and keeps all other characters. -/
theorem toLower_eq_or (c : Char) :
    c.toLower = c ∨ (65 ≤ c.toNat ∧ c.toNat ≤ 90 ∧ c.toLower.toNat = c.toNat + 32) := by
  have hnat := toNat_toLower c
  by_cases h : c.isUpper = true
  · rw [if_pos h] at hnat
    exact .inr ⟨((isUpper_iff c).1 h).1, ((isUpper_iff c).1 h).2, hnat⟩
  · rw [if_neg h] at hnat
    exact .inl (Char.toNat_inj.1 hnat)

/-- Only a character itself is folded to a character in front of the small letters. -/
theorem eq_of_toLower_eq {c d : Char} (h : c.toLower = d) (hd : d.toNat < 97) : c = d := by
  rcases toLower_eq_or c with hsame | ⟨h1, -, h3⟩
  · exact hsame.symm.trans h
  · rw [h] at h3
    omega

/-- Only a character in front of the small letters is that character in lower case. -/
theorem eq_singleton_of_lower {t : Text} {d : Char} (hd : d.toNat < 97) (h : t.lower = [d]) :
    t = [d] := by
  obtain ⟨c, rfl, hc⟩ : ∃ c, t = [c] ∧ c.toLower = d := by
    simpa [Text.lower, List.map_eq_singleton_iff] using h
  rw [eq_of_toLower_eq hc hd]

theorem toLower_eq_iff {c d : Char} (hd : d.toNat < 65) : c.toLower = d ↔ c = d := by
  constructor
  · intro h
    exact eq_of_toLower_eq h (Nat.lt_trans hd (by decide))
  · rintro rfl
    rcases toLower_eq_or c with h | ⟨hletter, -, -⟩
    · exact h
    · omega

theorem isDigit_iff (c : Char) : c.isDigit = true ↔ 48 ≤ c.toNat ∧ c.toNat ≤ 57 :=
  Char.isDigit_iff_toNat

@[simp] theorem isDigit_toLower (c : Char) : c.toLower.isDigit = c.isDigit := by
  rcases toLower_eq_or c with h | ⟨h1, h2, h3⟩
  · rw [h]
  · rw [Bool.eq_iff_iff, isDigit_iff, isDigit_iff]
    omega

/-- The digits, the letters and what lies between them in the order of code points. -/
theorem isDelimiter_eq_false {c : Char} (h : 48 ≤ c.toNat) (h' : c.toNat < 0x85) :
    isDelimiter c = false := by
  have hne : ∀ d : Char, d.toNat < 48 → c ≠ d := by
    rintro d hd rfl
    omega
  simp only [isDelimiter, isBlank, Bool.or_eq_false_iff, Bool.and_eq_false_iff,
    decide_eq_false_iff_not, beq_eq_false_iff_ne]
  exact ⟨⟨⟨by omega, hne _ (by decide)⟩, hne _ (by decide)⟩, hne _ (by decide)⟩

@[simp] theorem isDelimiter_toLower (c : Char) : isDelimiter c.toLower = isDelimiter c := by
  rcases toLower_eq_or c with h | ⟨h1, h2, h3⟩
  · rw [h]
  · rw [isDelimiter_eq_false (by omega) (by omega), isDelimiter_eq_false (by omega) (by omega)]

/-- A text without delimiters: what may stand inside a word. -/
def Solid (t : Text) : Prop := ∀ c ∈ t, isDelimiter c = false

instance (t : Text) : Decidable (Solid t) :=
  decidable_of_iff (t.all (!isDelimiter ·) = true) (by simp [Solid])

theorem Solid.append {s t : Text} (hs : Solid s) (ht : Solid t) : Solid (s ++ t) := by
  intro c hc
  rcases List.mem_append.1 hc with hc | hc
  · exact hs c hc
  · exact ht c hc

theorem solid_lower {t : Text} : Solid t.lower ↔ Solid t := by
  simp [Solid, Text.lower]

theorem isBlank_of_isDelimiter_eq_false {c : Char} (h : isDelimiter c = false) :
    isBlank c = false := by
  simp only [isDelimiter, Bool.or_eq_false_iff] at h
  exact h.1.1.1

theorem isDelimiter_of_isBlank {c : Char} (h : isBlank c = true) : isDelimiter c = true := by
  simp [isDelimiter, h]

/-- A text that consists of digits and points: what may stand inside a number. -/
def IsNumeric (t : Text) : Prop := ∀ c ∈ t, c.isDigit = true ∨ c = '.'

instance (t : Text) : Decidable (IsNumeric t) :=
  decidable_of_iff (t.all (fun c => c.isDigit || c = '.') = true) (by simp [IsNumeric])

theorem isNumeric_cons {c : Char} {t : Text} :
    IsNumeric (c :: t) ↔ (c.isDigit = true ∨ c = '.') ∧ IsNumeric t :=
  List.forall_mem_cons

theorem isNumeric_append {s t : Text} : IsNumeric (s ++ t) ↔ IsNumeric s ∧ IsNumeric t :=
  List.forall_mem_append

theorem IsNumeric.append_point {t : Text} (h : IsNumeric t) : IsNumeric (t ++ ['.']) :=
  isNumeric_append.2 ⟨h, by simp [IsNumeric]⟩

/-- Digits and points are no letters. -/
theorem isNumeric_lower {t : Text} : IsNumeric t.lower ↔ IsNumeric t := by
  have hpoint : ∀ c : Char, c.toLower = '.' ↔ c = '.' := fun c => toLower_eq_iff (by decide)
  simp [IsNumeric, Text.lower, hpoint]

theorem lower_of_isNumeric {t : Text} (h : IsNumeric t) : t.lower = t := by
  refine (List.map_congr_left fun c hc => ?_).trans (List.map_id t)
  rcases h c hc with hd | rfl
  · have hdigit := (isDigit_iff c).1 hd
    exact (toLower_eq_iff (show c.toNat < 65 by omega)).2 rfl
  · rfl

theorem solid_of_isNumeric {t : Text} (h : IsNumeric t) : Solid t := by
  intro c hc
  rcases h c hc with hd | rfl
  · obtain ⟨h1, h2⟩ := (isDigit_iff c).1 hd
    exact isDelimiter_eq_false h1 (by omega)
  · decide

namespace Numeral

/-! ## Plain numerals -/

theorem allDigits_iff {t : Text} : allDigits t = true ↔ ∀ c ∈ t, c.isDigit = true :=
  List.all_eq_true

theorem isNumeric_of_allDigits {t : Text} (h : allDigits t = true) : IsNumeric t :=
  fun c hc => .inl (allDigits_iff.1 h c hc)

private theorem span_isDigit {ds t : Text} (h : allDigits ds = true)
    (ht : t.head?.all (!·.isDigit) = true) : (ds ++ t).span Char.isDigit = (ds, t) := by
  have hd : ∀ c ∈ ds, c.isDigit = true := allDigits_iff.1 h
  rw [List.span_eq_takeWhile_dropWhile, List.takeWhile_append_of_pos hd,
    List.dropWhile_append_of_pos hd]
  cases t with
  | nil => simp
  | cons c t =>
    have hc : c.isDigit = false := by simpa using ht
    simp [hc]

/-- A plain numeral is digits, or digits around a point, of which one side may be empty. -/
theorem isPlain_iff {t : Text} : isPlain t = true ↔
    ∃ ds fs : Text, allDigits ds = true ∧ allDigits fs = true ∧
      (t = ds ∧ ds ≠ [] ∨ t = ds ++ '.' :: fs ∧ (ds ≠ [] ∨ fs ≠ [])) := by
  have hpoint : Char.isDigit '.' = false := by decide
  constructor
  · intro h
    have hsplit : t.takeWhile Char.isDigit ++ t.dropWhile Char.isDigit = t :=
      List.takeWhile_append_dropWhile
    have hds : allDigits (t.takeWhile Char.isDigit) = true :=
      allDigits_iff.2 fun c hc => List.mem_takeWhile_imp hc
    rw [isPlain, List.span_eq_takeWhile_dropWhile] at h
    generalize t.takeWhile Char.isDigit = ds at *
    generalize t.dropWhile Char.isDigit = rest at *
    subst hsplit
    split at h <;> rename_i heq <;> obtain ⟨rfl, rfl⟩ := Prod.mk.inj heq
    · rename_i fs
      simp only [Bool.and_eq_true, decide_eq_true_eq] at h
      exact ⟨[], fs, rfl, h.2, .inr ⟨rfl, .inr h.1⟩⟩
    · cases h
    · rename_i hne
      exact ⟨ds, [], hds, rfl, .inl ⟨List.append_nil _, hne⟩⟩
    · rename_i fs hne
      exact ⟨ds, fs, hds, h, .inr ⟨rfl, .inl hne⟩⟩
    · cases h
  · rintro ⟨ds, fs, hds, hfs, ⟨heq, hne⟩ | ⟨heq, hne⟩⟩
    · have hspan := span_isDigit (t := []) hds rfl
      rw [List.append_nil] at hspan
      rw [isPlain, heq, hspan]
      cases ds with
      | nil => exact absurd rfl hne
      | cons d ds => rfl
    · rw [isPlain, heq, span_isDigit hds (by simp [hpoint])]
      cases ds with
      | nil => simpa [hfs] using hne
      | cons d ds => exact hfs

theorem ne_nil_of_isPlain {t : Text} (h : isPlain t = true) : t ≠ [] := by
  rintro rfl
  cases h

/-- A plain numeral has no other characters than digits and points. -/
theorem isDigit_of_mem_isPlain {t : Text} (h : isPlain t = true) {c : Char} (hc : c ∈ t) :
    c.isDigit = true ∨ c = '.' := by
  obtain ⟨ds, fs, hds, hfs, ⟨rfl, -⟩ | ⟨rfl, -⟩⟩ := isPlain_iff.1 h
  · exact .inl (allDigits_iff.1 hds c hc)
  · rcases List.mem_append.1 hc with hc | hc
    · exact .inl (allDigits_iff.1 hds c hc)
    · rcases List.mem_cons.1 hc with rfl | hc
      · exact .inr rfl
      · exact .inl (allDigits_iff.1 hfs c hc)

theorem isNumeric_of_isPlain {t : Text} (h : isPlain t = true) : IsNumeric t :=
  fun _ hc => isDigit_of_mem_isPlain h hc

theorem solid_of_isPlain {t : Text} (h : isPlain t = true) : Solid t :=
  solid_of_isNumeric (isNumeric_of_isPlain h)

/-! ## Values -/

private theorem trim_eq_self {t : Text} (h : ∀ c ∈ t, isBlank c = false) : t.trim = t := by
  have hdrop : ∀ s : Text, (∀ c ∈ s, isBlank c = false) → s.dropWhile isBlank = s := by
    intro s hs
    cases s with
    | nil => rfl
    | cons c s => simp [hs c List.mem_cons_self]
  have hrev : ∀ c ∈ t.reverse, isBlank c = false := fun c hc => h c (List.mem_reverse.1 hc)
  rw [Text.trim, Text.trimEnd, hdrop t h, hdrop _ hrev, List.reverse_reverse]

/-- Neither mark of an exponent occurs in a plain numeral, so all of it is mantissa. -/
private theorem unsigned?_of_isPlain {t : Text} (h : isPlain t = true) :
    (unsigned? t).isSome = true := by
  have hmark : ∀ c ∈ t, (!isExponentMark c) = true := by
    intro c hc
    rcases isDigit_of_mem_isPlain h hc with hd | rfl
    · have hne : ∀ d : Char, 57 < d.toNat → c ≠ d := by
        rintro d hlt rfl
        have := ((isDigit_iff c).1 hd).2
        omega
      simp [isExponentMark, hne 'e' (by decide), hne 'E' (by decide)]
    · rfl
  simp [unsigned?, List.takeWhile_eq_self_iff.2 hmark, List.dropWhile_eq_nil_iff.2 hmark, h]

private theorem ofText?_of_takeSign {t body : Text} {negative : Bool}
    (ht : takeSign t = (negative, body)) (h : isPlain body = true) :
    (ofText? t).isSome = true := by
  simp only [ofText?, ht]
  repeat' split
  · rfl
  · rfl
  · simpa using unsigned?_of_isPlain h

private theorem takeSign_of_isPlain {t : Text} (h : isPlain t = true) :
    takeSign t = (false, t) := by
  rw [takeSign.eq_def]
  split
  · rcases isDigit_of_mem_isPlain h List.mem_cons_self with hd | hp
    · exact absurd hd (by decide)
    · exact absurd hp (by decide)
  · rcases isDigit_of_mem_isPlain h List.mem_cons_self with hd | hp
    · exact absurd hd (by decide)
    · exact absurd hp (by decide)
  · rfl

private theorem exists_read {t : Text} (hne : t ≠ []) (h : (ofText? t).isSome = true) :
    ∃ x, read t = .ok x := by
  obtain ⟨n, hn⟩ := Option.isSome_iff_exists.1 h
  exact ⟨n.value, by simp [read, hne, hn]⟩

/-- **A plain numeral has a value.** -/
theorem constantValue_of_isPlain {t : Text} (h : isPlain t = true) :
    ∃ x, constantValue t = .ok x := by
  have hblank : ∀ c ∈ t, isBlank c = false := fun c hc =>
    isBlank_of_isDelimiter_eq_false (solid_of_isPlain h c hc)
  rw [constantValue, trim_eq_self hblank]
  exact exists_read (ne_nil_of_isPlain h) (ofText?_of_takeSign (takeSign_of_isPlain h) h)

/-- **A plain numeral with a minus sign in front of it has a value.** -/
theorem constantValue_neg_of_isPlain {t : Text} (h : isPlain t = true) :
    ∃ x, constantValue ('-' :: t) = .ok x := by
  have hblank : ∀ c ∈ '-' :: t, isBlank c = false := by
    intro c hc
    rcases List.mem_cons.1 hc with rfl | hc
    · decide
    · exact isBlank_of_isDelimiter_eq_false (solid_of_isPlain h c hc)
  rw [constantValue, trim_eq_self hblank]
  have hsign : takeSign ('-' :: t) = (true, t) := rfl
  exact exists_read (List.cons_ne_nil _ _) (ofText?_of_takeSign hsign h)

end Numeral

end Formula

/-!
# Text as a list of characters

A formula, a name and everything that is printed is a `Text`, a list of characters, so that a
position is an index into the list and a scan is a recursion on it.

Blank characters are those with the Unicode property `White_Space`.  Letter case is folded for
ASCII only, which keeps every position where it was (`length_lower`).

## Main definitions

* `Text` — a list of characters.
* `isBlank` — the blank characters.
* `utf8Length` — the number of bytes of a text.
* `Text.lower` — ASCII case folding.
* `Text.trim`, `Text.trimEnd` — a text without its outer blanks.
* `Text.slice` — the characters between two positions.
* `Text.cut?` — a text split at the first occurrence of a character.
* `Text.precedes` — the order of texts.
-/

namespace Formula

/-- A text is the list of its characters. -/
abbrev Text := List Char

/-- The blank characters: the 25 code points with the Unicode property `White_Space`. -/
def isBlank (c : Char) : Bool :=
  let n := c.toNat
  (0x09 ≤ n && n ≤ 0x0D) || n == 0x20 || n == 0x85 || n == 0xA0 || n == 0x1680 ||
    (0x2000 ≤ n && n ≤ 0x200A) || n == 0x2028 || n == 0x2029 || n == 0x202F || n == 0x205F ||
    n == 0x3000

/-- The number of bytes of the UTF-8 encoding. -/
def utf8Length : Text → Nat
  | [] => 0
  | c :: t => c.utf8Size + utf8Length t

@[simp] theorem utf8Length_append (s t : Text) :
    utf8Length (s ++ t) = utf8Length s + utf8Length t := by
  induction s with
  | nil => simp [utf8Length]
  | cons c s ih => simp [utf8Length, ih, Nat.add_assoc]

namespace Text

/-- A text with its ASCII letters in lower case. -/
def lower (t : Text) : Text :=
  t.map Char.toLower

@[simp] theorem lower_nil : lower [] = [] := rfl

@[simp] theorem lower_cons (c : Char) (t : Text) : lower (c :: t) = c.toLower :: lower t := rfl

@[simp] theorem lower_append (s t : Text) : lower (s ++ t) = lower s ++ lower t := by
  simp [lower]

/-- Folding case keeps the length, hence every position. -/
@[simp] theorem length_lower (t : Text) : (lower t).length = t.length := by
  simp [lower]

theorem lower_drop (t : Text) (n : Nat) : lower (t.drop n) = (lower t).drop n := List.map_drop ..

/-- A text without the blanks at its end. -/
def trimEnd (t : Text) : Text :=
  (t.reverse.dropWhile isBlank).reverse

/-- A text without the blanks at its two ends. -/
def trim (t : Text) : Text :=
  trimEnd (t.dropWhile isBlank)

/-- Nothing is added by taking blanks away. -/
theorem mem_of_mem_trim {c : Char} {t : Text} (h : c ∈ trim t) : c ∈ t := by
  simp only [trim, trimEnd, List.mem_reverse] at h
  have hd := (List.dropWhile_suffix isBlank).mem h
  exact (List.dropWhile_suffix isBlank).mem (List.mem_reverse.1 hd)

/-- The characters from position `a` up to position `b`. -/
def slice (t : Text) (a b : Nat) : Text :=
  (t.drop a).take (b - a)

/-- A slice inside the text has the length of its range. -/
theorem length_slice {t : Text} {a b : Nat} (h : b ≤ t.length) : (slice t a b).length = b - a := by
  simp only [slice, List.length_take, List.length_drop]
  omega

theorem lower_slice (t : Text) (a b : Nat) : lower (slice t a b) = slice (lower t) a b := by
  simp [slice, lower, List.map_take, List.map_drop]

/-- One more character of a slice. -/
theorem slice_succ {t : Text} {a b : Nat} {c : Char} (h : a ≤ b) (hc : t[b]? = some c) :
    slice t a (b + 1) = slice t a b ++ [c] := by
  have hlength : b + 1 - a = b - a + 1 := by omega
  rw [slice, hlength, List.take_add_one, List.getElem?_drop, Nat.add_sub_cancel' h, hc]
  rfl

/-- The text before the first `c` and the text after it, if `c` occurs. -/
def cut? (c : Char) : Text → Option (Text × Text)
  | [] => none
  | d :: t => if d = c then some ([], t) else (cut? c t).map fun (s, r) => (d :: s, r)

/-- A cut loses the separator and nothing else. -/
theorem eq_of_cut? {c : Char} {t s r : Text} (h : cut? c t = some (s, r)) : t = s ++ c :: r := by
  induction t generalizing s with
  | nil => simp [cut?] at h
  | cons d t ih =>
    simp only [cut?] at h
    split at h
    · simp_all
    · simp only [Option.map_eq_some_iff, Prod.exists, Prod.mk.injEq] at h
      obtain ⟨u, v, hu, rfl, rfl⟩ := h
      simp [ih hu]

/-- A cut is made at the first occurrence of the separator. -/
theorem not_mem_of_cut? {c : Char} {t s r : Text} (h : cut? c t = some (s, r)) : c ∉ s := by
  induction t generalizing s with
  | nil => simp [cut?] at h
  | cons d t ih =>
    simp only [cut?] at h
    split at h
    · simp_all
    · rename_i hdc
      simp only [Option.map_eq_some_iff, Prod.exists, Prod.mk.injEq] at h
      obtain ⟨u, v, hu, rfl, rfl⟩ := h
      have hcu : c ∉ u := ih hu
      simp [Ne.symm hdc, hcu]

/-- The text before the first line break. -/
def firstLine (t : Text) : Text :=
  t.takeWhile (· ≠ '\n')

/-- Texts one after another, with `sep` between neighbours. -/
def joinWith (sep : Text) (ts : List Text) : Text :=
  List.intercalate sep ts

/-- A line of output: the text and a line break. -/
def line (t : Text) : Text :=
  t ++ ['\n']

/-- Whether a text comes before another one, character by character in the order of code points. -/
def precedes : Text → Text → Bool
  | _, [] => false
  | [], _ :: _ => true
  | c :: s, d :: t => c.toNat < d.toNat || (c = d && precedes s t)

/-- No text comes before itself. -/
theorem precedes_irrefl (t : Text) : precedes t t = false := by
  induction t with
  | nil => rfl
  | cons c t ih => simp [precedes, ih]

/-- A text that comes before a second one comes before all texts after that. -/
theorem precedes_trans {r s t : Text} (hrs : precedes r s = true) (hst : precedes s t = true) :
    precedes r t = true := by
  induction r generalizing s t with
  | nil =>
    cases t with
    | nil => cases s <;> simp [precedes] at hst
    | cons d t => rfl
  | cons b r ih =>
    cases s with
    | nil => simp [precedes] at hrs
    | cons c s =>
      cases t with
      | nil => simp [precedes] at hst
      | cons d t =>
        simp only [precedes, Bool.or_eq_true, Bool.and_eq_true, decide_eq_true_eq] at hrs hst ⊢
        rcases hrs with hbc | ⟨rfl, hrs⟩ <;> rcases hst with hcd | ⟨rfl, hst⟩
        · exact .inl (Nat.lt_trans hbc hcd)
        · exact .inl hbc
        · exact .inl hcd
        · exact .inr ⟨rfl, ih hrs hst⟩

/-- Of two different texts one comes before the other. -/
theorem precedes_of_ne {s t : Text} (hne : s ≠ t) (h : precedes s t = false) :
    precedes t s = true := by
  induction s generalizing t with
  | nil =>
    cases t with
    | nil => exact absurd rfl hne
    | cons d t => simp [precedes] at h
  | cons c s ih =>
    cases t with
    | nil => rfl
    | cons d t =>
      simp only [precedes, Bool.or_eq_false_iff, decide_eq_false_iff_not] at h
      by_cases hcd : c = d
      · subst hcd
        have hst : precedes t s = true := ih (by simpa using hne) (by simpa using h.2)
        simp [precedes, hst]
      · have hnat : c.toNat ≠ d.toNat := fun heq => hcd (Char.toNat_inj.1 heq)
        simp only [precedes, Bool.or_eq_true, decide_eq_true_eq]
        exact .inl (by omega)

/-- The decimal digits of a natural number. -/
def ofNat (n : Nat) : Text :=
  Nat.toDigits 10 n

end Text

end Formula

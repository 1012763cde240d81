import Formula.Diagnostic
import Formula.Proofs.Part.Words

/-!
# Ranges of bytes

Errors and hints count characters, while the labels of a report count bytes of the UTF-8 encoding.
The range of bytes that belongs to a range of characters goes from one boundary between characters to
another one, and its bytes are those of the characters.

The boundaries of a text can be listed from left to right.  A pass along the list finds where a range
starts, and then where it ends; where the list is too short, the range starts or ends with the text.
-/

namespace Formula

/-- The UTF-8 encoding of a text. -/
def Text.bytes (t : Text) : List UInt8 :=
  t.flatMap String.utf8EncodeChar

@[simp] theorem Text.bytes_append (s t : Text) : bytes (s ++ t) = bytes s ++ bytes t :=
  List.flatMap_append

@[simp] theorem Text.length_bytes (t : Text) : (bytes t).length = utf8Length t := by
  induction t with
  | nil => rfl
  | cons c t ih =>
    rw [bytes, List.flatMap_cons, List.length_append, String.length_utf8EncodeChar]
    exact congrArg _ ih

/-- The first `n` bytes of a text are whole characters. -/
def IsBoundary (t : Text) (n : Nat) : Prop :=
  ∃ s u, t = s ++ u ∧ s.bytes.length = n

/-- A range of bytes of a text is whole characters, and they are `piece`. -/
structure CutsOut (t : Text) (range : Nat × Nat) (piece : Text) : Prop where
  /-- It does not end before it starts. -/
  le : range.1 ≤ range.2
  /-- It starts between two characters. -/
  start : IsBoundary t range.1
  /-- It ends between two characters. -/
  stop : IsBoundary t range.2
  /-- Its bytes. -/
  bytes : (t.bytes.take range.2).drop range.1 = piece.bytes

theorem cutsOut_append (s t u : Text) :
    CutsOut (s ++ t ++ u) (utf8Length s, utf8Length (s ++ t)) t where
  le := by
    rw [utf8Length_append]
    exact Nat.le_add_right ..
  start := ⟨s, t ++ u, List.append_assoc .., Text.length_bytes s⟩
  stop := ⟨s ++ t, u, rfl, Text.length_bytes (s ++ t)⟩
  bytes := by
    rw [Text.bytes_append, ← Text.length_bytes (s ++ t), List.take_left, Text.bytes_append,
      ← Text.length_bytes s, List.drop_left]

/-- **The bytes of a range of characters** are those of the characters in it. -/
theorem cutsOut_byteRange (t : Text) (start length : Nat) :
    CutsOut t (byteRange t start length) (t.slice start (start + length)) := by
  have htake : t.take (start + length) = t.take start ++ t.slice start (start + length) := by
    rw [List.take_add, Text.slice, Nat.add_sub_cancel_left]
  have h := cutsOut_append (t.take start) (t.slice start (start + length)) (t.drop (start + length))
  rwa [← htake, List.take_append_drop] at h

/-- The bytes of an excerpt that is written at its place. -/
theorem Excerpt.StandsIn.cutsOut {text : Text} {e : Excerpt} (h : e.StandsIn text) :
    CutsOut text (byteRange text e.start e.length) e.text := by
  have hrange := cutsOut_byteRange text e.start e.length
  have hslice : text.slice e.start (e.start + e.length) = e.text := h.2
  rwa [hslice] at hrange

/-- The boundaries of a text from left to right: where its characters start, and where it ends. -/
def boundaries (t : Text) : List Nat :=
  t.scanl (fun n c => n + c.utf8Size) 0

theorem getElem?_boundaries (t : Text) (i : Nat) :
    (boundaries t)[i]? = if i ≤ t.length then some (utf8Length (t.take i)) else none := by
  have hscan : ∀ (t : Text) (n i : Nat), (t.scanl (fun n c => n + c.utf8Size) n)[i]? =
      if i ≤ t.length then some (n + utf8Length (t.take i)) else none := by
    intro t
    induction t with
    | nil =>
      intro n i
      cases i <;> simp [utf8Length]
    | cons c t ih =>
      intro n i
      cases i with
      | zero => simp [utf8Length]
      | succ i => simp [ih, utf8Length, Nat.add_assoc]
  simpa [boundaries] using hscan t 0 i

/-- The boundary number `i` of a text, or its end if there are not so many. -/
theorem getD_boundaries (t : Text) (i : Nat) :
    (boundaries t)[i]?.getD (utf8Length t) = utf8Length (t.take i) := by
  rw [getElem?_boundaries]
  by_cases h : i ≤ t.length
  · simp [h]
  · simp [h, List.take_of_length_le (Nat.le_of_not_le h)]

/-- What a single pass along the boundaries finds: the boundary where the range starts and, if there
are characters in it, the one where the last of them ends. -/
def passedRange (t : Text) (start length : Nat) : Nat × Nat :=
  let first := (boundaries t)[start]?.getD (utf8Length t)
  let rest := (boundaries t).drop (start + 1)
  (first, if length = 0 then first else rest[length - 1]?.getD (utf8Length t))

/-- **A pass along the boundaries finds the range of bytes.** -/
theorem passedRange_eq_byteRange (t : Text) (start length : Nat) :
    passedRange t start length = byteRange t start length := by
  by_cases h : length = 0
  · simp [passedRange, byteRange, h, getD_boundaries]
  · have hlast : start + 1 + (length - 1) = start + length := by omega
    simp [passedRange, byteRange, h, getD_boundaries, hlast]

/-- The characters of a text at the positions from `a` up to `b`. -/
def Text.between (t : Text) (a b : Nat) : Text :=
  (t.zipIdx.filter fun (_, i) => a ≤ i && i < b).map Prod.fst

/-- A slice is made up of the characters at its positions. -/
theorem Text.between_eq_slice (t : Text) (a b : Nat) : t.between a b = t.slice a b := by
  have hfrom : ∀ (t : Text) (k : Nat),
      ((t.zipIdx k).filter fun (_, i) => a ≤ i && i < b).map Prod.fst =
        t.slice (a - k) (b - k) := by
    intro t
    induction t with
    | nil => simp [slice]
    | cons c t ih =>
      intro k
      rw [List.zipIdx_cons, List.filter_cons]
      by_cases hak : a ≤ k
      · have ha : a - k = 0 := by omega
        have ha' : a - (k + 1) = 0 := by omega
        by_cases hkb : k < b
        · have hb : b - k = b - (k + 1) + 1 := by omega
          simp [hak, hkb, ih, slice, ha, ha', hb]
        · have hb : b - k = 0 := by omega
          have hb' : b - (k + 1) = 0 := by omega
          simp [hak, hkb, ih, slice, ha, ha', hb, hb']
      · have ha : a - k = a - (k + 1) + 1 := by omega
        have hlength : b - k - (a - (k + 1) + 1) = b - (k + 1) - (a - (k + 1)) := by omega
        simp [hak, ih, slice, ha, hlength]
  exact hfrom t 0

/-- **Ranges of characters are exact ranges of bytes.**  The range does not end before it starts, it
starts and ends between characters, and the characters in it are those at the positions asked for,
as far as there are such.  It is empty if no characters are asked for, and it ends with the text if
there are no more. -/
theorem byteRange_exact (t : Text) (start length : Nat) :
    CutsOut t (byteRange t start length) (t.between start (start + length)) ∧
    byteRange t start length = passedRange t start length ∧
    (length = 0 → (byteRange t start length).1 = (byteRange t start length).2) ∧
    (t.length ≤ start + length → (byteRange t start length).2 = t.bytes.length) := by
  refine ⟨?_, (passedRange_eq_byteRange t start length).symm, ?_, ?_⟩
  · rw [Text.between_eq_slice]
    exact cutsOut_byteRange t start length
  · rintro rfl
    rfl
  · intro h
    rw [byteRange, List.take_of_length_le h, Text.length_bytes]

/-- A range that starts after a character of two bytes and goes beyond the end. -/
theorem byteRange_exact_pi :
    byteRange ['π', '+', 'q', 'z'] 2 5 = (3, 5) ∧
      CutsOut ['π', '+', 'q', 'z'] (3, 5) ['q', 'z'] ∧
      (byteRange ['π', '+', 'q', 'z'] 2 5).2 = (Text.bytes ['π', '+', 'q', 'z']).length ∧
      (byteRange ['π', '+', 'q', 'z'] 9 0).1 = (byteRange ['π', '+', 'q', 'z'] 9 0).2 := by
  obtain ⟨hcuts, -, -, hend⟩ := byteRange_exact ['π', '+', 'q', 'z'] 2 5
  obtain ⟨-, -, hempty, -⟩ := byteRange_exact ['π', '+', 'q', 'z'] 9 0
  exact ⟨by decide, hcuts, hend (by decide), hempty rfl⟩

end Formula

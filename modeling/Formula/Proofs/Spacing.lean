import Formula.Proofs.Relabelling.Compilation
import Formula.Proofs.Token.Spacing

/-!
# Spacing

Of blanks only the presence matters, and only between words.  Squeezing a formula makes a single
space of every run of blanks, and leaves out those at the ends and next to parentheses and commas.
Formulas that are the same when they are squeezed are read alike.

A formula is squeezed one blank at a time.  A blank that is replaced by another one, or left out,
moves the characters after it and nothing else, which is a relabelling.  What does not depend on
places is therefore kept at every step, and so it is in the end.
-/

namespace Formula

/-- Every run of blanks becomes a single space. -/
def collapseBlanks : Text → Text
  | [] => []
  | c :: t =>
    if isBlank c then
      if t.head?.any isBlank then collapseBlanks t else ' ' :: collapseBlanks t
    else c :: collapseBlanks t

/-- Whether blanks are needless next to a character: it is a parenthesis or a comma, or there is
none, since the formula begins or ends. -/
def isEdge : Option Char → Bool
  | none => true
  | some c => c = '(' || c = ')' || c = ','

/-- A text without the blanks next to its ends and to parentheses and commas, where `before` is the
character in front of the text. -/
def tighten (before : Option Char) : Text → Text
  | [] => []
  | c :: t =>
    if isBlank c && (isEdge before || isEdge t.head?) then tighten (some c) t
    else c :: tighten (some c) t

/-- A formula without needless blanks. -/
def squeeze (t : Text) : Text := tighten none (collapseBlanks t)

example : squeeze " log ( 2 ,\t\n8 )  -  1 ".toList = "log(2,8)- 1".toList := by decide

variable {s v gap : Text} {b : Char}

/-- Where a position goes if the blank after `n` characters is replaced by `k` blanks. -/
def respaced (n k i : Nat) : Nat := if i ≤ n then i else i - 1 + k

theorem respaced_le {n k a b : Nat} (h : a ≤ b) : respaced n k a ≤ respaced n k b := by
  rw [respaced, respaced]
  split <;> split <;> omega

theorem respaced_length (s gap v : Text) (b : Char) :
    respaced s.length gap.length (s ++ b :: v).length = (s ++ (gap ++ v)).length := by
  simp only [respaced, List.length_append, List.length_cons]
  rw [if_neg (by omega)]
  omega

/-- The relabelling if the blank between `s` and `v` is replaced by `gap`. -/
def Relabelling.respacing (s gap v : Text) : Relabelling where
  position := respaced s.length gap.length
  letter := id
  content e := Text.slice (s ++ (gap ++ v)) (respaced s.length gap.length e.start)
    (respaced s.length gap.length e.stop)

/-- What stands between two positions, if no position passes another one and the end is the end. -/
theorem slice_stop_slice {text text' : Text} {φ : Nat → Nat} (hmono : ∀ a b, a ≤ b → φ a ≤ φ b)
    (hlength : φ text.length = text'.length) (a b : Nat) :
    text'.slice (φ a) (φ (Excerpt.mk a (text.slice a b)).stop) = text'.slice (φ a) (φ b) := by
  rcases Nat.le_total b a with hba | hab
  · rw [slice_of_le hba, slice_of_le (hmono b a hba)]
    exact slice_of_le (Nat.le_refl _)
  rcases Nat.le_total b text.length with hb | hb
  · rw [stop_slice hab hb]
  rcases Nat.le_total text.length a with ha | ha
  · have hpast : text'.length ≤ φ a := hlength ▸ hmono _ _ ha
    rw [slice_of_length_le hpast, slice_of_length_le hpast]
  · -- Both slices are cut off at the end.
    have hpast : text'.length ≤ φ b := hlength ▸ hmono _ _ hb
    rw [slice_min text a b, Nat.min_eq_right hb, stop_slice ha (Nat.le_refl _), hlength,
      slice_min text' (φ a) (φ b), Nat.min_eq_right hpast]

/-- What is written without blanks stands in front of the blank or after it. -/
theorem Excerpt.StandsIn.beside_blank {e : Excerpt} (he : e.StandsIn (s ++ b :: v))
    (hb : isBlank b = true) (hsolid : ∀ c ∈ e.text, isBlank c = false) :
    e.stop ≤ s.length ∨ s.length < e.start ∨ e.text = [] := by
  obtain ⟨read, more, htext, hstart⟩ := standsIn_iff.1 he
  by_contra hinside
  simp only [not_or, Nat.not_le, Nat.not_lt] at hinside
  obtain ⟨hstop, hle, -⟩ := hinside
  rw [Excerpt.stop] at hstop
  have hget : (s ++ b :: v)[s.length]? = some b := by simp
  rw [htext, List.append_assoc, List.getElem?_append_right (by omega),
    List.getElem?_append_left (by omega)] at hget
  rw [hsolid b (List.mem_of_getElem? hget)] at hb
  cases hb

theorem Excerpt.IsWord.beside_blank {e : Excerpt} (he : e.IsWord (s ++ b :: v))
    (hb : isBlank b = true) :
    0 < e.text.length ∧ (e.stop ≤ s.length ∨ s.length < e.start) := by
  have hsolid : ∀ c ∈ e.text, isBlank c = false := fun c hc =>
    isBlank_of_isDelimiter_eq_false (he.solid c hc)
  refine ⟨List.length_pos_iff.2 he.ne_nil, ?_⟩
  rcases he.stands.beside_blank hb hsolid with h | h | h
  · exact .inl h
  · exact .inr h
  · exact absurd h he.ne_nil

/-- No word ends right before a blank that is left out while another one starts right after it. -/
theorem not_loose_of_words {e f : Excerpt} (he : e.IsWord (s ++ b :: v))
    (hf : f.IsWord (s ++ b :: v)) (hstop : e.stop = s.length) (hstart : f.start = s.length + 1) :
    ¬ Loose s v := by
  obtain ⟨read, more, htext, hread⟩ := standsIn_iff.1 he.stands
  obtain ⟨read', more', htext', hread'⟩ := standsIn_iff.1 hf.stands
  have hs : s = read ++ e.text := by
    refine (List.append_inj htext ?_).1
    rw [← hstop, Excerpt.stop, hread, List.length_append]
  have hv : v = f.text ++ more' := by
    rw [List.append_assoc, ← List.singleton_append, ← List.append_assoc] at htext'
    refine (List.append_inj htext' ?_).2
    rw [← hread', hstart, List.length_append, List.length_singleton]
  rintro (hloose | hloose)
  · obtain ⟨c, hc⟩ : ∃ c, e.text.getLast? = some c :=
      Option.isSome_iff_exists.1 (by simpa using he.ne_nil)
    rw [hs, List.getLast?_append, hc] at hloose
    have hsolid := he.solid c (List.mem_of_getLast? hc)
    simp [hsolid] at hloose
  · obtain ⟨c, rest, hc⟩ := List.exists_cons_of_ne_nil hf.ne_nil
    have hsolid := hf.solid c (by simp [hc])
    simp [endsWord, hv, hc, hsolid] at hloose

/-- **A blank that is replaced** by other blanks, or left out where it is not needed, is a
relabelling. -/
theorem suits_respacing (hb : isBlank b = true) (hloose : gap = [] → Loose s v) :
    (Relabelling.respacing s gap v).Suits (s ++ b :: v) (s ++ (gap ++ v)) where
  position_zero := by simp [Relabelling.respacing, respaced]
  position_length := respaced_length s gap v b
  position_le _ _ h := respaced_le h
  position_stop e he hsolid := by
    have hbeside := he.beside_blank hb hsolid
    simp only [Relabelling.respacing, Excerpt.stop, respaced] at hbeside ⊢
    rcases hbeside with h | h | h
    · rw [if_pos h, if_pos (by omega)]
    · rw [if_neg (by omega), if_neg (by omega)]
      omega
    · simp [h]
  content_slice := slice_stop_slice (fun _ _ => respaced_le) (respaced_length s gap v b)
  touch_iff e f he hf := by
    obtain ⟨hepos, hebeside⟩ := he.beside_blank hb
    obtain ⟨hfpos, hfbeside⟩ := hf.beside_blank hb
    have hapart : gap.length = 0 → ¬ (e.stop = s.length ∧ f.start = s.length + 1) := by
      rintro hgap ⟨hstop, hstart⟩
      exact not_loose_of_words he hf hstop hstart (hloose (List.length_eq_zero_iff.1 hgap))
    -- Only if the blank is left out do the two sides of it touch.
    simp only [Relabelling.respacing, Excerpt.stop, respaced] at hebeside hfbeside hapart ⊢
    split <;> split <;> omega
  le_iff e he a := by
    obtain ⟨hpos, hbeside⟩ := he.beside_blank hb
    simp only [Relabelling.respacing, Excerpt.stop, respaced] at hbeside ⊢
    split <;> split <;> omega
  letter_numeral _ _ := rfl

section SameLetters

variable {R : Relabelling}

theorem Token.relabel_eq_self (hR : R.letter = id) (tok : Token) : tok.relabel R = tok := by
  cases tok <;> simp [Token.relabel, hR]

theorem ParseError.cause_relabel (hR : R.letter = id) (e : ParseError) :
    (e.relabel R).cause = e.cause := by
  obtain ⟨cause, start, length⟩ := e
  cases cause <;> simp [ParseError.relabel, Cause.relabel, hR]

/-- Tokens stay the same if no position inside them goes elsewhere. -/
theorem relabels_append (hR : R.letter = id) {n : Nat} {ts rest rest' : List Token}
    (hstep : ∀ i, n ≤ i → i < n + (ts.flatMap Token.text).length →
      R.position (i + 1) = R.position i + 1)
    (hrest : Relabels R (n + (ts.flatMap Token.text).length) rest rest') :
    Relabels R n (ts ++ rest) (ts ++ rest') := by
  induction ts generalizing n with
  | nil => exact hrest
  | cons tok ts ih =>
    rw [List.flatMap_cons, List.length_append] at hstep hrest
    rw [← Nat.add_assoc] at hrest
    have hts := ih (fun i hi hlt => hstep i (by omega) (by omega)) hrest
    by_cases hblank : ∃ c, tok = .blank c
    · obtain ⟨c, rfl⟩ := hblank
      have hgap : R.position (n + 1) = R.position n + [c].length :=
        hstep n (Nat.le_refl n) (by rw [Token.text, List.length_singleton]; omega)
      exact .blank hgap hts
    · have hsame := Relabels.other (fun c hc => hblank ⟨c, hc⟩) hts
      rwa [Token.relabel_eq_self hR] at hsame

end SameLetters

/-- The tokens around a blank that is replaced. -/
theorem relabels_respacing (r : Registry) (hb : isBlank b = true)
    (hgap : ∀ c ∈ gap, isBlank c = true) (hloose : gap = [] → Loose s v) :
    Relabels (.respacing s gap v) 0 (tokens r (s ++ b :: v)) (tokens r (s ++ (gap ++ v))) := by
  obtain ⟨ts, hts, hbefore, hafter⟩ := exists_tokens_respaced r hb hgap hloose
  have hright : Relabels (.respacing s gap v) (s.length + 1) (tokens r v ++ [])
      (tokens r v ++ []) := by
    refine relabels_append rfl (fun i hi _ => ?_) .nil
    simp only [Relabelling.respacing, respaced]
    rw [if_neg (by omega), if_neg (by omega)]
    omega
  rw [List.append_nil] at hright
  rw [hbefore, hafter]
  refine relabels_append rfl (fun i _ hlt => ?_) ?_
  · rw [hts] at hlt
    simp only [Relabelling.respacing, respaced]
    rw [if_pos (by omega), if_pos (by omega)]
  · rw [hts, Nat.zero_add]
    refine .blank ?_ hright
    simp only [Relabelling.respacing, respaced]
    rw [if_neg (by omega), if_pos (Nat.le_refl _)]
    omega

/-! ## What does not depend on places -/

/-- What does not depend on places: nothing is said of positions, nor of what is written in groups
and slots, where blanks may stand. -/
def Relabelling.placeless : Relabelling where
  position _ := 0
  letter := id
  content _ := []

theorem keepsCommas_placeless : Relabelling.placeless.KeepsCommas := ⟨fun _ => rfl, rfl⟩

theorem placeless_comp {R : Relabelling} (hR : R.letter = id) :
    Relabelling.placeless.comp R = .placeless := by
  simp only [Relabelling.comp, Relabelling.placeless, hR]
  rfl

/-- Two formulas are read alike, but for places. -/
structure Parse.Alike (p q : Parse) : Prop where
  /-- The trees have the same parts in the same order, with the same words and symbols. -/
  root : p.root.relabel .placeless = q.root.relabel .placeless
  /-- The outlines have the same rows, with the same operands and arguments. -/
  rows : (p.root.rows 0 0).map (Row.relabel .placeless) =
    (q.root.rows 0 0).map (Row.relabel .placeless)
  /-- The same is wrong with both, in the same order. -/
  errors : p.errors.map (·.cause) = q.errors.map (·.cause)
  /-- The same names might have been meant as calls. -/
  hints : p.hints.map (·.identifier) = q.hints.map (·.identifier)
  /-- Both are compiled to the same, or to the same error elsewhere. -/
  compiled : moved (fun _ => 0) id (compile p) = moved (fun _ => 0) id (compile q)

namespace Parse.Alike

variable {p q o : Parse}

theorem refl (p : Parse) : p.Alike p := ⟨rfl, rfl, rfl, rfl, rfl⟩

theorem symm (h : p.Alike q) : q.Alike p :=
  ⟨h.root.symm, h.rows.symm, h.errors.symm, h.hints.symm, h.compiled.symm⟩

theorem trans (h : p.Alike q) (h' : q.Alike o) : p.Alike o :=
  ⟨h.root.trans h'.root, h.rows.trans h'.rows, h.errors.trans h'.errors, h.hints.trans h'.hints,
    h.compiled.trans h'.compiled⟩

end Parse.Alike

/-- **A blank that is replaced** by other blanks, or left out where it is not needed, does not
matter. -/
theorem alike_respaced (r : Registry) (hb : isBlank b = true) (hgap : ∀ c ∈ gap, isBlank c = true)
    (hloose : gap = [] → Loose s v) :
    (parse r (s ++ b :: v)).Alike (parse r (s ++ (gap ++ v))) := by
  have hsuits := suits_respacing hb hloose
  have htokens := relabels_respacing r hb hgap hloose
  obtain ⟨hitems, herrors, hhints⟩ := parse_relabel hsuits htokens
  have hroot : (parse r (s ++ b :: v)).root.relabel .placeless =
      (parse r (s ++ (gap ++ v))).root.relabel .placeless := by
    rw [Parse.root, Parse.root, Part.relabel, Part.relabel, hitems, relabelAll_relabelAll,
      placeless_comp rfl]
    rfl
  refine ⟨hroot, ?_, ?_, ?_, ?_⟩
  · rw [← rows_relabel keepsCommas_placeless, ← rows_relabel keepsCommas_placeless, hroot]
  · rw [herrors, List.map_map]
    exact List.map_congr_left fun e _ => (ParseError.cause_relabel rfl e).symm
  · rw [hhints, List.map_map]
    refine List.map_congr_left fun e _ => ?_
    simp [Hint.relabel, Relabelling.respacing]
  · rw [compile_relabel hsuits htokens, moved_moved]
    rfl

/-! ## Squeezing -/

theorem alike_collapseBlanks (r : Registry) (s t : Text) :
    (parse r (s ++ t)).Alike (parse r (s ++ collapseBlanks t)) := by
  induction t generalizing s with
  | nil => exact .refl _
  | cons c t ih =>
    have hcons := ih (s ++ [c])
    rw [List.append_assoc, List.append_assoc] at hcons
    rw [collapseBlanks]
    split
    · rename_i hc
      split
      · rename_i hnext
        have hends : endsWord t = true := by
          cases t with
          | nil => rfl
          | cons d t => simpa [endsWord] using isDelimiter_of_isBlank (by simpa using hnext)
        have hdrop : (parse r (s ++ c :: t)).Alike (parse r (s ++ ([] ++ t))) :=
          alike_respaced r hc (by simp) fun _ => .inr hends
        exact hdrop.trans (ih s)
      · have hspace := ih (s ++ [' '])
        rw [List.append_assoc, List.append_assoc] at hspace
        have hreplace : (parse r (s ++ c :: t)).Alike (parse r (s ++ ([' '] ++ t))) :=
          alike_respaced r hc (List.forall_mem_singleton.2 (by decide)) fun h => by cases h
        exact hreplace.trans hspace
    · exact hcons

theorem isDelimiter_of_isEdge {o : Option Char} (h : isEdge o = true) :
    o.all isDelimiter = true := by
  cases o with
  | none => rfl
  | some c =>
    simp only [isEdge, Bool.or_eq_true, decide_eq_true_eq] at h
    simp only [Option.all_some, isDelimiter, Bool.or_eq_true, decide_eq_true_eq]
    tauto

theorem isEdge_of_isBlank {c : Char} (hc : isBlank c = true) : isEdge (some c) = false := by
  have hne {d : Char} (hd : isBlank d = false) : c ≠ d := by
    rintro rfl
    rw [hd] at hc
    cases hc
  simp [isEdge, hne (show isBlank '(' = false by decide), hne (show isBlank ')' = false by decide),
    hne (show isBlank ',' = false by decide)]

/-- The character in front of a text may be a blank that has been left out. -/
theorem alike_tighten (r : Registry) (s t : Text) {before : Option Char}
    (hbefore : isEdge before = true → s.getLast?.all isDelimiter = true) :
    (parse r (s ++ t)).Alike (parse r (s ++ tighten before t)) := by
  induction t generalizing s before with
  | nil => exact .refl _
  | cons c t ih =>
    rw [tighten]
    split
    · rename_i hneedless
      simp only [Bool.and_eq_true, Bool.or_eq_true] at hneedless
      obtain ⟨hc, hedge⟩ := hneedless
      have hloose : Loose s t := hedge.imp hbefore isDelimiter_of_isEdge
      have hnext : isEdge (some c) = true → s.getLast?.all isDelimiter = true := by
        rw [isEdge_of_isBlank hc]
        exact fun h => by cases h
      have hdrop : (parse r (s ++ c :: t)).Alike (parse r (s ++ ([] ++ t))) :=
        alike_respaced r hc (by simp) fun _ => hloose
      exact hdrop.trans (ih s hnext)
    · have hnext : isEdge (some c) = true → (s ++ [c]).getLast?.all isDelimiter = true := by
        intro hmark
        simpa using isDelimiter_of_isEdge hmark
      have hcons := ih (s ++ [c]) hnext
      rw [List.append_assoc, List.append_assoc] at hcons
      exact hcons

/-- A formula is read like what it is when it is squeezed. -/
theorem alike_squeeze (r : Registry) (t : Text) : (parse r t).Alike (parse r (squeeze t)) :=
  (alike_collapseBlanks r [] t).trans (alike_tighten r [] (collapseBlanks t) fun _ => rfl)

/-- **Only the presence of blanks matters.**  Formulas that are the same when they are squeezed have
the same tree but for places: the same parts with the same words, symbols and arguments.  The same
is wrong with both, in the same order, and both are compiled to the same formula, or to the same
error elsewhere. -/
theorem alike_of_squeeze_eq (r : Registry) {t u : Text} (h : squeeze t = squeeze u) :
    (parse r t).Alike (parse r u) := by
  have hu := (alike_squeeze r u).symm
  rw [← h] at hu
  exact (alike_squeeze r t).trans hu

/-- A missing operand next to an unknown letter. -/
theorem alike_of_squeeze_eq_log :
    squeeze "log ( 2 ,  Q * ) - 1".toList = squeeze " log(2,Q *)\t- 1 ".toList ∧
      (parse .standard "log ( 2 ,  Q * ) - 1".toList).Alike
        (parse .standard " log(2,Q *)\t- 1 ".toList) := by
  have h : squeeze "log ( 2 ,  Q * ) - 1".toList = squeeze " log(2,Q *)\t- 1 ".toList := by decide
  exact ⟨h, alike_of_squeeze_eq .standard h⟩

end Formula

import Mathlib.Algebra.Order.BigOperators.Group.List
import Mathlib.Algebra.Order.Group.Nat
import Formula.Proofs.Token.Standard

/-!
# Cutting digits and points

A formula of digits and points is cut into numbers and single points.  A number takes digits and one
point; a second point closes it and is reported, and a point that is neither in a number nor before a
digit is unknown.  There is one way to do this (`NumeralTokens.unique`), so all registries whose
tokens follow these rules read such a formula alike.

A registry follows them if none of its literals consists of digits and points, and none starts with a
point or with digits and a point.  A literal of the latter kind keeps a word pending that has a point
already, and the number that starts with this word takes another one.
-/

namespace Formula

/-- Whether a literal starts with digits, which may be missing, and a point. -/
def Symbol.startsPointed (s : Symbol) : Bool :=
  (s.literal.dropWhile Char.isDigit).head? = some '.'

theorem Symbol.exists_of_startsPointed {s : Symbol} (h : s.startsPointed = true) :
    ∃ ds more : Text, Numeral.allDigits ds = true ∧ s.literal = ds ++ '.' :: more := by
  rw [startsPointed, decide_eq_true_eq] at h
  obtain ⟨more, hmore⟩ := List.head?_eq_some_iff.1 h
  refine ⟨s.literal.takeWhile Char.isDigit, more, ?_, ?_⟩
  · exact Numeral.allDigits_iff.2 fun c hc => List.mem_takeWhile_imp hc
  · rw [← hmore, List.takeWhile_append_dropWhile]

/-- A registry that leaves numerals alone has no literals of these kinds. -/
theorem Registry.LeavesNumerals.literal {r : Registry} (h : r.LeavesNumerals) {s : Symbol}
    (hs : s ∈ r.symbols) : ¬ IsNumeric s.literal ∧ s.startsPointed = false := by
  obtain ⟨c, rest, hliteral⟩ := List.exists_cons_of_ne_nil (Symbol.literal_ne_nil (r.sound s hs))
  obtain ⟨hdigit, hpoint⟩ := h s hs c (by rw [hliteral]; rfl)
  refine ⟨fun hnumeric => ?_, ?_⟩
  · rcases hnumeric c (by rw [hliteral]; exact List.mem_cons_self) with hc | hc
    · rw [hdigit] at hc
      cases hc
    · exact hpoint hc
  · rw [Symbol.startsPointed, hliteral, List.dropWhile_cons_of_neg (by simp [hdigit])]
    simpa using hpoint

namespace Numeral

theorem isPlain_of_allDigits {t : Text} (h : allDigits t = true) (hne : t ≠ []) :
    isPlain t = true :=
  isPlain_iff.2 ⟨t, [], h, rfl, .inl ⟨rfl, hne⟩⟩

/-- Digits and a point. -/
theorem isPlain_append_point {t : Text} (h : allDigits t = true) (hne : t ≠ []) :
    isPlain (t ++ ['.']) = true :=
  isPlain_iff.2 ⟨t, [], h, rfl, .inr ⟨rfl, .inl hne⟩⟩

/-- More digits do not harm. -/
theorem isPlain_append_digits {t ds : Text} (ht : isPlain t = true) (hds : allDigits ds = true) :
    isPlain (t ++ ds) = true := by
  rw [allDigits_iff] at hds
  obtain ⟨whole, fraction, hwhole, hfraction, hshape⟩ := isPlain_iff.1 ht
  rw [allDigits_iff] at hwhole hfraction
  rcases hshape with ⟨rfl, hne⟩ | ⟨rfl, hne⟩
  · refine isPlain_of_allDigits (allDigits_iff.2 ?_) (List.append_ne_nil_of_left_ne_nil hne _)
    exact List.forall_mem_append.2 ⟨hwhole, hds⟩
  · refine isPlain_iff.2 ⟨whole, fraction ++ ds, allDigits_iff.2 hwhole, ?_, .inr ⟨?_, ?_⟩⟩
    · exact allDigits_iff.2 (List.forall_mem_append.2 ⟨hfraction, hds⟩)
    · rw [List.append_assoc, List.cons_append]
    · exact hne.imp_right fun h => List.append_ne_nil_of_left_ne_nil h _

/-- A point and digits. -/
theorem isPlain_point_cons {ds : Text} (h : allDigits ds = true) (hne : ds ≠ []) :
    isPlain ('.' :: ds) = true :=
  isPlain_iff.2 ⟨[], ds, rfl, h, .inr ⟨rfl, .inr hne⟩⟩

/-- A plain numeral has at most one point. -/
theorem count_point_le_one {t : Text} (h : isPlain t = true) : t.count '.' ≤ 1 := by
  have hnone : ∀ ds : Text, allDigits ds = true → ds.count '.' = 0 := by
    intro ds hds
    refine List.count_eq_zero.2 fun hmem => ?_
    exact absurd (allDigits_iff.1 hds _ hmem) (by decide)
  obtain ⟨ds, fs, hds, hfs, ⟨rfl, -⟩ | ⟨rfl, -⟩⟩ := isPlain_iff.1 h
  · rw [hnone _ hds]
    exact Nat.zero_le 1
  · rw [List.count_append, List.count_cons_self, hnone _ hds, hnone _ hfs]

/-- A digit comes after a point that starts a number. -/
theorem isDigit_head_of_point {n a u : Text} (hn : isPlain n = true) (h : n ++ a = '.' :: u) :
    u.head?.any Char.isDigit = true := by
  obtain ⟨ds, fs, hds, hfs, hshape⟩ := isPlain_iff.1 hn
  rw [allDigits_iff] at hds hfs
  cases ds with
  | nil =>
    obtain ⟨rfl, hne⟩ : n = '.' :: fs ∧ fs ≠ [] := by simpa using hshape
    obtain ⟨f, fs, rfl⟩ := List.exists_cons_of_ne_nil hne
    obtain rfl : f :: fs ++ a = u := (List.cons.inj h).2
    simpa using hfs f List.mem_cons_self
  | cons d ds =>
    have hd : d = '.' := by
      rcases hshape with ⟨rfl, -⟩ | ⟨rfl, -⟩
      · exact (List.cons.inj h).1
      · exact (List.cons.inj h).1
    subst hd
    exact absurd (hds '.' List.mem_cons_self) (by decide)

/-- A number that has a point ends before the next one. -/
theorem eq_nil_of_isPlain_append {n c : Text} (h : isPlain (n ++ c) = true) (hpoint : '.' ∈ n)
    (hc : c = [] ∨ c.head? = some '.') : c = [] := by
  refine hc.resolve_right fun hc => ?_
  obtain ⟨c, rfl⟩ := List.head?_eq_some_iff.1 hc
  have hcount := count_point_le_one h
  rw [List.count_append, List.count_cons_self] at hcount
  have hpos : 0 < n.count '.' := List.count_pos_iff.2 hpoint
  omega

/-- Where a number ends that ends with the text or before its second point. -/
theorem isPlain_unique {n m a b : Text} (hn : isPlain n = true) (hm : isPlain m = true)
    (ha : a = [] ∨ '.' ∈ n ∧ a.head? = some '.') (hb : b = [] ∨ '.' ∈ m ∧ b.head? = some '.')
    (h : n ++ a = m ++ b) : n = m := by
  -- what one number has and the other has not starts with a second point
  have hshort : ∀ {n c b : Text}, isPlain (n ++ c) = true →
      (c ++ b = [] ∨ '.' ∈ n ∧ (c ++ b).head? = some '.') → c = [] := by
    intro n c b hplain hend
    rcases hend with hend | ⟨hpoint, hend⟩
    · exact (List.append_eq_nil_iff.1 hend).1
    · refine eq_nil_of_isPlain_append hplain hpoint ?_
      cases c with
      | nil => exact .inl rfl
      | cons d c => exact .inr hend
  rcases List.append_eq_append_iff.1 h with ⟨c, rfl, rfl⟩ | ⟨c, rfl, rfl⟩
  · rw [hshort hm ha, List.append_nil]
  · rw [hshort hn hb, List.append_nil]

end Numeral

/-- The tokens of a formula of digits and points. -/
inductive NumeralTokens : List Token → Prop
  /-- Nothing is left. -/
  | nil : NumeralTokens []
  /-- A number ends with the formula. -/
  | last {n : Text} (hn : Numeral.isPlain n = true) : NumeralTokens [.number n]
  /-- A second point closes a number. -/
  | repeated {n : Text} {ts : List Token} (hn : Numeral.isPlain n = true) (hpoint : '.' ∈ n)
    (hts : NumeralTokens ts) : NumeralTokens (.number n :: .repeatedPoint :: ts)
  /-- A point starts no number unless a digit follows it. -/
  | point {ts : List Token} (hts : NumeralTokens ts)
    (hdigit : (ts.flatMap Token.text).head?.any Char.isDigit = false) :
    NumeralTokens (.unknown '.' :: ts)

namespace NumeralTokens

variable {ss ts : List Token}

/-- Tokens of a text that starts with a point and no digit after it. -/
theorem exists_of_point {u : Text} (h : NumeralTokens ts)
    (htext : ts.flatMap Token.text = '.' :: u) (hu : u.head?.any Char.isDigit = false) :
    ∃ rest, ts = .unknown '.' :: rest ∧ NumeralTokens rest ∧ rest.flatMap Token.text = u := by
  have hnumber : ∀ {n a : Text}, Numeral.isPlain n = true → n ++ a ≠ '.' :: u := by
    intro n a hn heq
    rw [Numeral.isDigit_head_of_point hn heq] at hu
    cases hu
  cases h with
  | nil => cases htext
  | last hn => exact absurd htext (hnumber hn)
  | repeated hn => exact absurd htext (hnumber hn)
  | point hts => exact ⟨_, rfl, hts, (List.cons.inj htext).2⟩

/-- Tokens of a text that starts with a number which ends with the text or before its second
point. -/
theorem exists_of_number {n a : Text} (h : NumeralTokens ts)
    (htext : ts.flatMap Token.text = n ++ a) (hn : Numeral.isPlain n = true)
    (ha : a = [] ∨ '.' ∈ n ∧ a.head? = some '.') :
    (a = [] ∧ ts = [.number n]) ∨ ∃ rest, ts = .number n :: .repeatedPoint :: rest ∧
      NumeralTokens rest ∧ a = '.' :: rest.flatMap Token.text := by
  cases h with
  | nil => exact absurd (List.append_eq_nil_iff.1 htext.symm).1 (Numeral.ne_nil_of_isPlain hn)
  | @last m hm =>
    have heq : m ++ [] = n ++ a := htext
    obtain rfl := Numeral.isPlain_unique hm hn (.inl rfl) ha heq
    exact .inl ⟨(List.append_cancel_left heq).symm, rfl⟩
  | @repeated m rest hm hpoint hrest =>
    have heq : m ++ '.' :: rest.flatMap Token.text = n ++ a := htext
    obtain rfl := Numeral.isPlain_unique hm hn (.inr ⟨hpoint, rfl⟩) ha heq
    exact .inr ⟨rest, rfl, hrest, (List.append_cancel_left heq).symm⟩
  | @point rest hrest hdigit =>
    have heq : n ++ a = '.' :: rest.flatMap Token.text := htext.symm
    rw [Numeral.isDigit_head_of_point hn heq] at hdigit
    cases hdigit

/-- **There is one way to cut a formula of digits and points.** -/
theorem unique (hss : NumeralTokens ss) (hts : NumeralTokens ts)
    (h : ss.flatMap Token.text = ts.flatMap Token.text) : ss = ts := by
  induction hss generalizing ts with
  | nil =>
    cases hts with
    | nil => rfl
    | last hn =>
      exact absurd (List.append_eq_nil_iff.1 h.symm).1 (Numeral.ne_nil_of_isPlain hn)
    | repeated | point => simp [Token.text] at h
  | @last n hn =>
    rcases hts.exists_of_number h.symm hn (.inl rfl) with ⟨-, rfl⟩ | ⟨rest, -, -, hnil⟩
    · rfl
    · cases hnil
  | @repeated n ss hn hpoint _ ih =>
    have htext : ts.flatMap Token.text = n ++ '.' :: ss.flatMap Token.text := h.symm
    rcases hts.exists_of_number htext hn (.inr ⟨hpoint, rfl⟩) with
      ⟨hnil, -⟩ | ⟨rest, rfl, hrest, heq⟩
    · cases hnil
    · rw [ih hrest (List.cons.inj heq).2]
  | point _ hdigit ih =>
    obtain ⟨rest, rfl, hrest, htext⟩ := hts.exists_of_point h.symm hdigit
    rw [ih hrest htext.symm]

end NumeralTokens

variable {r : Registry}

section Words

variable (hr : ∀ s ∈ r.symbols, ¬ IsNumeric s.literal)

include hr

/-- No key is the start of a text of digits and points. -/
theorem not_prefix_of_isNumeric {s : Symbol} (hs : s ∈ r.symbols) {w : Text} (hw : IsNumeric w) :
    ¬ s.key <+: w := by
  intro hprefix
  exact hr s hs (isNumeric_lower.1 fun c hc => hw c (List.IsPrefix.mem hc hprefix))

theorem pieces_of_isNumeric (following : Text) (budget : Nat) {w : Text} (hw : IsNumeric w) :
    pieces r following budget w = w.map .unknown := by
  fun_induction pieces with
  | case1 => rfl
  | case2 budget c rest s hs left ih =>
    obtain ⟨hmem, hstart⟩ := Registry.startsWord_of_longest? hs
    simp only [Symbol.startsWord, Bool.and_eq_true, List.isPrefixOf_iff_prefix] at hstart
    rw [lower_of_isNumeric hw] at hstart
    exact absurd hstart.1.2 (not_prefix_of_isNumeric hr hmem hw)
  | case3 budget c rest _ ih => rw [ih (isNumeric_cons.1 hw).2, List.map_cons]

/-- A word of digits and points that is no number is unknown. -/
theorem closeWord_of_isNumeric {w : Text} (hw : IsNumeric w) (hplain : Numeral.isPlain w = false)
    (following : Text) : closeWord r w following = w.map .unknown := by
  have hget : r.get? w = none := by
    refine Option.eq_none_iff_forall_ne_some.2 fun s hs => ?_
    obtain ⟨hmem, hkey⟩ := Registry.get?_eq_some_iff.1 hs
    rw [lower_of_isNumeric hw] at hkey
    exact not_prefix_of_isNumeric hr hmem hw (hkey ▸ List.prefix_rfl)
  rw [closeWord]
  split
  · rename_i hnil
    rw [hnil, List.map_nil]
  · rw [hplain, hget]
    exact pieces_of_isNumeric hr following _ hw

/-- What becomes of a word of digits and points: it spells nothing, so it stays pending as long as a
longer literal starts with it. -/
theorem extend?_of_isNumeric {w following : Text} {c : Char} (hw : IsNumeric (w ++ [c])) :
    extend? r w c following =
      if r.startingWith (w ++ [c]) = [] then
        if startsNumeral (w ++ [c]) following then some ([], .numeral (w ++ [c]) (c = '.')) else none
      else some ([], .word (w ++ [c])) := by
  simp only [extend?, lower_of_isNumeric hw]
  cases hstart : r.startingWith (w ++ [c]) with
  | nil => simp
  | cons s rest =>
    cases rest with
    | nil =>
      have hmem : s ∈ r.startingWith (w ++ [c]) := hstart ▸ List.mem_cons_self
      have hkey : s.key ≠ w ++ [c] := by
        intro hkey
        exact not_prefix_of_isNumeric hr (mem_of_mem_startingWith hmem).1 hw (hkey ▸ List.prefix_rfl)
      simp [hkey]
    | cons t rest => simp

end Words

/-! ## The tokens of a formula of digits and points -/

/-- Without a literal that starts with digits and a point, no pending word has a point. -/
theorem startingWith_point_eq_nil (hpointed : ∀ s ∈ r.symbols, s.startsPointed = false) {w : Text}
    (hw : Numeral.allDigits w = true) : r.startingWith (w ++ ['.']) = [] := by
  rw [List.eq_nil_iff_forall_not_mem]
  intro s hs
  obtain ⟨hmem, more, hkey⟩ := mem_of_mem_startingWith hs
  have hdigits : Char.isDigit ∘ Char.toLower = Char.isDigit := funext isDigit_toLower
  have hdrop : s.key.dropWhile Char.isDigit = Text.lower (s.literal.dropWhile Char.isDigit) := by
    rw [Symbol.key, Text.lower, List.dropWhile_map, hdigits]
    rfl
  rw [← hkey, List.append_assoc, List.dropWhile_append_of_pos (Numeral.allDigits_iff.1 hw)] at hdrop
  have hpoint := hpointed s hmem
  rw [Symbol.startsPointed, decide_eq_false_iff_not] at hpoint
  cases hrest : s.literal.dropWhile Char.isDigit with
  | nil => simp [hrest] at hdrop
  | cons c rest =>
    rw [hrest, Text.lower_cons] at hdrop
    have hc : '.' = c.toLower := (List.cons.inj hdrop).1
    rw [(toLower_eq_iff (by decide)).1 hc.symm] at hrest
    rw [hrest] at hpoint
    exact hpoint rfl

/-- The pending characters of a formula of digits and points, and what comes after them: digits, or a
number with its point.  A point by itself is pending only before a digit. -/
def Pending.IsNumeral (following : Text) : Pending → Prop
  | word w => Numeral.allDigits w = true
  | numeral w false => Numeral.allDigits w = true ∧ w ≠ []
  | numeral w true => '.' ∈ w ∧
      (Numeral.isPlain w = true ∨ w = ['.'] ∧ following.head?.any Char.isDigit = true)

section Tokens

variable (hr : ∀ s ∈ r.symbols, ¬ IsNumeric s.literal)
  (hpointed : ∀ s ∈ r.symbols, s.startsPointed = false)

include hr

/-- A digit is added to what is pending. -/
theorem readChar_digit {c : Char} (hc : c.isDigit = true) {following : Text} {p : Pending}
    (hp : p.IsNumeral (c :: following)) :
    ∃ p' : Pending, readChar r p c following = ([], p') ∧ p'.IsNumeral following := by
  have hsolid : isDelimiter c = false := not_isDelimiter_of_isDigit hc
  have hdigits : Numeral.allDigits [c] = true := Numeral.allDigits_iff.2 (by simpa using hc)
  have hcpoint : decide (c = '.') = false := by
    rw [decide_eq_false_iff_not]
    rintro rfl
    cases hc
  have happend : ∀ {w : Text}, Numeral.allDigits w = true → Numeral.allDigits (w ++ [c]) = true := by
    intro w hw
    rw [Numeral.allDigits_iff] at hw hdigits ⊢
    exact List.forall_mem_append.2 ⟨hw, hdigits⟩
  match p with
  | .word w =>
    have hlonger := happend hp
    have hnumeric : IsNumeric (w ++ [c]) := Numeral.isNumeric_of_allDigits hlonger
    have hstarts : startsNumeral (w ++ [c]) following = true := by
      rw [startsNumeral, Numeral.isPlain_of_allDigits hlonger (by simp), Bool.true_or]
    rw [readChar_word hsolid, extendWord, extend?_of_isNumeric hr hnumeric, if_pos hstarts, hcpoint]
    by_cases hlonger' : r.startingWith (w ++ [c]) = []
    · rw [if_pos hlonger']
      exact ⟨_, rfl, hlonger, by simp⟩
    · rw [if_neg hlonger']
      exact ⟨_, rfl, hlonger⟩
  | .numeral w false =>
    rw [readChar_numeral hsolid, extendNumeral, if_pos hc]
    exact ⟨_, rfl, happend hp.1, by simp⟩
  | .numeral w true =>
    rw [readChar_numeral hsolid, extendNumeral, if_pos hc]
    obtain ⟨hmem, hw⟩ := hp
    refine ⟨_, rfl, List.mem_append_left _ hmem, .inl ?_⟩
    rcases hw with hw | ⟨rfl, -⟩
    · exact Numeral.isPlain_append_digits hw hdigits
    · exact Numeral.isPlain_point_cons hdigits (by simp)

include hpointed

/-- What a point does after digits.  By itself it starts a number only before a digit. -/
theorem readChar_point_word {w : Text} (hw : Numeral.allDigits w = true) (following : Text) :
    (∃ p' : Pending, readChar r (.word w) '.' following = ([], p') ∧ p'.IsNumeral following) ∨
    (readChar r (.word w) '.' following = ([.unknown '.'], .none) ∧
      following.head?.any Char.isDigit = false) := by
  have hextend : extend? r w '.' following = _ :=
    extend?_of_isNumeric hr (Numeral.isNumeric_of_allDigits hw).append_point
  rw [if_pos (startingWith_point_eq_nil hpointed hw)] at hextend
  rw [readChar_word (by decide)]
  cases w with
  | nil =>
    cases hdigit : following.head?.any Char.isDigit with
    | true =>
      rw [List.nil_append, startsNumeral, hdigit] at hextend
      rw [extendWord, hextend]
      exact .inl ⟨_, rfl, List.mem_cons_self, .inr ⟨rfl, hdigit⟩⟩
    | false =>
      rw [List.nil_append, startsNumeral, hdigit] at hextend
      rw [extendWord_nil, startWord, hextend]
      exact .inr ⟨rfl, rfl⟩
  | cons d w =>
    have hplain := Numeral.isPlain_append_point hw (List.cons_ne_nil d w)
    rw [startsNumeral, hplain] at hextend
    rw [extendWord, hextend]
    exact .inl ⟨_, rfl, by simp, .inl hplain⟩

/-- What a point does. -/
theorem readChar_point {following : Text} {p : Pending} (hp : p.IsNumeral ('.' :: following)) :
    (∃ p' : Pending, readChar r p '.' following = ([], p') ∧ p'.IsNumeral following) ∨
    (readChar r p '.' following = ([.unknown '.'], .none) ∧
      following.head?.any Char.isDigit = false) ∨
    ∃ n, readChar r p '.' following = ([.number n, .repeatedPoint], .none) ∧
      Numeral.isPlain n = true ∧ '.' ∈ n := by
  have hsolid : isDelimiter '.' = false := by decide
  match p with
  | .word w => exact (readChar_point_word hr hpointed hp following).imp_right .inl
  | .numeral w false =>
    rw [readChar_numeral hsolid]
    exact .inl ⟨_, rfl, by simp, .inl (Numeral.isPlain_append_point hp.1 hp.2)⟩
  | .numeral w true =>
    obtain ⟨hmem, hw⟩ := hp
    have hplain : Numeral.isPlain w = true := by
      refine hw.resolve_right ?_
      rintro ⟨-, hdigit⟩
      cases hdigit
    have hclose : closeWord r w ('.' :: following) = [.number w] := by
      rw [closeWord, if_neg (Numeral.ne_nil_of_isPlain hplain), if_pos hplain]
    rw [readChar_numeral hsolid]
    refine .inr (.inr ⟨w, ?_, hplain, hmem⟩)
    rw [extendNumeral, hclose]
    rfl

theorem numeralTokens_tokensFrom {t : Text} (ht : IsNumeric t) {p : Pending}
    (hp : p.IsNumeral t) : NumeralTokens (tokensFrom r p t) := by
  induction t generalizing p with
  | nil =>
    have hplain : p.text ≠ [] → Numeral.isPlain p.text = true := by
      intro hne
      match p with
      | .word w => exact Numeral.isPlain_of_allDigits hp hne
      | .numeral w false => exact Numeral.isPlain_of_allDigits hp.1 hne
      | .numeral w true => exact hp.2.resolve_right fun h => nomatch h.2
    rw [tokensFrom, closeWord]
    split_ifs with hnil hnumber
    · exact .nil
    · exact .last hnumber
    · exact absurd (hplain hnil) hnumber
  | cons c t ih =>
    obtain ⟨hc, hrest⟩ := isNumeric_cons.1 ht
    rw [tokensFrom_cons]
    rcases hc with hc | rfl
    · obtain ⟨p', hread, hp'⟩ := readChar_digit hr hc hp
      rw [hread]
      exact ih hrest hp'
    · rcases readChar_point hr hpointed hp with
        ⟨p', hread, hp'⟩ | ⟨hread, hdigit⟩ | ⟨n, hread, hn, hmem⟩
      · rw [hread]
        exact ih hrest hp'
      · rw [hread]
        refine .point (ih hrest rfl) ?_
        rw [← List.nil_append t, ← Pending.text_none, ← text_tokensFrom r] at hdigit
        exact hdigit
      · rw [hread]
        exact .repeated hn hmem (ih hrest rfl)

/-- **The tokens of a formula of digits and points** follow the rules. -/
theorem numeralTokens_tokens {t : Text} (ht : IsNumeric t) : NumeralTokens (tokens r t) :=
  numeralTokens_tokensFrom hr hpointed ht rfl

end Tokens

/-! ## A literal that starts with digits and a point -/

section Pointed

variable (hr : ∀ s ∈ r.symbols, ¬ IsNumeric s.literal)

include hr

/-- The start of a literal stays pending. -/
theorem tokensFrom_of_key_start {s : Symbol} (hs : s ∈ r.symbols) (rest u : Text) :
    ∀ before : Text, IsNumeric (before ++ rest) → before ++ rest <+: s.key →
      tokensFrom r (.word before) (rest ++ u) = tokensFrom r (.word (before ++ rest)) u := by
  induction rest with
  | nil =>
    intro before _ _
    rw [List.nil_append, List.append_nil]
  | cons c rest ih =>
    intro before hnumeric hprefix
    have happend : before ++ [c] ++ rest = before ++ c :: rest := by simp
    rw [← happend] at hnumeric hprefix
    have hlonger : IsNumeric (before ++ [c]) := (isNumeric_append.1 hnumeric).1
    have hsolid : isDelimiter c = false := solid_of_isNumeric hlonger c (by simp)
    have hstart : r.startingWith (before ++ [c]) ≠ [] :=
      List.ne_nil_of_mem (mem_startingWith hs ((List.prefix_append _ _).trans hprefix))
    rw [List.cons_append, tokensFrom_cons, readChar_word hsolid, extendWord,
      extend?_of_isNumeric hr hlonger, if_neg hstart, List.nil_append,
      ih _ hnumeric hprefix, happend]

/-- A zero after a pending word.  If no literal starts with the longer word, this is a number, which
may take a point whether or not it has one. -/
theorem tokensFrom_zero {w : Text} (hplain : Numeral.isPlain (w ++ ['0']) = true) (u : Text) :
    tokensFrom r (.word w) ('0' :: u) =
      tokensFrom r (if r.startingWith (w ++ ['0']) = [] then .numeral (w ++ ['0']) false
        else .word (w ++ ['0'])) u := by
  have hstarts : startsNumeral (w ++ ['0']) u = true := by
    rw [startsNumeral, hplain, Bool.true_or]
  rw [tokensFrom_cons, readChar_word (by decide), extendWord,
    extend?_of_isNumeric hr (Numeral.isNumeric_of_isPlain hplain), if_pos hstarts]
  split_ifs <;> rfl

/-- A pending word becomes a number after so many zeros that no literal is as long. -/
theorem tokensFrom_zeros {k : Nat} {w : Text} (hplain : Numeral.isPlain (w ++ ['0']) = true)
    (hlong : ∀ s ∈ r.symbols, s.key.length < (w ++ ['0']).length + k) (u : Text) :
    tokensFrom r (.word w) ('0' :: List.replicate k '0' ++ u) =
      tokensFrom r (.numeral (w ++ '0' :: List.replicate k '0') false) u := by
  have hzeros : ∀ n, ∀ c ∈ List.replicate n '0', c.isDigit = true := by
    intro n c hc
    rw [List.eq_of_mem_replicate hc]
    rfl
  induction k generalizing w with
  | zero =>
    have hstart : r.startingWith (w ++ ['0']) = [] := by
      rw [List.eq_nil_iff_forall_not_mem]
      intro s hs
      obtain ⟨hmem, hprefix⟩ := mem_of_mem_startingWith hs
      exact absurd hprefix.length_le (Nat.not_le.2 (hlong s hmem))
    rw [List.cons_append, tokensFrom_zero hr hplain, if_pos hstart]
    rfl
  | succ k ih =>
    rw [List.cons_append, tokensFrom_zero hr hplain]
    split_ifs
    · rw [tokensFrom_digits (hzeros _), List.append_assoc, List.singleton_append]
    · have hdigit : Numeral.allDigits ['0'] = true := rfl
      have hlonger := Numeral.isPlain_append_digits hplain hdigit
      rw [List.replicate_succ, ih hlonger, List.append_assoc, List.singleton_append]
      intro s hs
      have hlt := hlong s hs
      rw [List.length_append, List.length_singleton]
      omega

/-- **A number may take two points** if it starts like a literal with digits and a point, and then
none of it can be read. -/
theorem exists_tokens_of_startsPointed {s : Symbol} (hs : s ∈ r.symbols)
    (hpointed : s.startsPointed = true) :
    ∃ n, Numeral.isPlain n = true ∧ '.' ∈ n ∧ tokens r (n ++ ['.']) = (n ++ ['.']).map .unknown := by
  obtain ⟨ds, more, hds, hliteral⟩ := Symbol.exists_of_startsPointed hpointed
  have hpoint : IsNumeric (ds ++ ['.']) := (Numeral.isNumeric_of_allDigits hds).append_point
  have hprefix : ds ++ ['.'] <+: s.key := by
    refine ⟨Text.lower more, ?_⟩
    rw [← lower_of_isNumeric hpoint, ← Text.lower_append, Symbol.key, hliteral]
    simp
  have hplain : Numeral.isPlain (ds ++ ['.'] ++ ['0']) = true := by
    refine Numeral.isPlain_iff.2 ⟨ds, ['0'], hds, rfl, .inr ⟨?_, .inr (by simp)⟩⟩
    simp
  obtain ⟨k, hk⟩ : ∃ k, ∀ s ∈ r.symbols, s.key.length < (ds ++ ['.'] ++ ['0']).length + k := by
    refine ⟨(r.symbols.map fun s => s.key.length).sum, fun s hs => ?_⟩
    have hle := List.le_sum_of_mem (List.mem_map_of_mem (f := fun s => s.key.length) hs)
    simp only [List.length_append, List.length_singleton]
    omega
  have hzeros : Numeral.allDigits (List.replicate k '0') = true := by
    simp [Numeral.allDigits]
  have hnumber := Numeral.isPlain_append_digits hplain hzeros
  rw [List.append_assoc, List.singleton_append] at hnumber
  have hmem : '.' ∈ ds ++ ['.'] ++ '0' :: List.replicate k '0' := by simp
  refine ⟨_, hnumber, hmem, ?_⟩
  generalize hn : ds ++ ['.'] ++ '0' :: List.replicate k '0' = n at hnumber hmem
  have hnumeric : IsNumeric (n ++ ['.']) := (Numeral.isNumeric_of_isPlain hnumber).append_point
  have hnot : Numeral.isPlain (n ++ ['.']) = false := by
    by_contra h
    rw [Bool.not_eq_false] at h
    cases Numeral.eq_nil_of_isPlain_append h hmem (.inr rfl)
  calc tokens r (n ++ ['.'])
      = tokensFrom r (.word []) (ds ++ ['.'] ++ ('0' :: List.replicate k '0' ++ ['.'])) := by
        rw [← hn, List.append_assoc _ _ ['.']]
        rfl
    _ = tokensFrom r (.word (ds ++ ['.'])) ('0' :: List.replicate k '0' ++ ['.']) :=
        tokensFrom_of_key_start hr hs _ _ [] hpoint hprefix
    _ = tokensFrom r (.numeral n false) ['.'] := by
        rw [tokensFrom_zeros hr hplain hk, hn]
    _ = closeWord r (n ++ ['.']) [] := tokensFrom_point n []
    _ = (n ++ ['.']).map .unknown := closeWord_of_isNumeric hr hnumeric hnot []

end Pointed

end Formula

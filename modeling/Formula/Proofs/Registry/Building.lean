import Mathlib.Data.List.Forall2
import Mathlib.Data.List.Induction
import Formula.Proofs.Characters
import Formula.Proofs.Registry.Standard

/-!
# Registries and the symbols they are built from

Symbols are registered one after another.  The first one that is at fault stops the building, and
what is reported is the earliest check that it fails.  If none is at fault, the registry finds each
symbol by its literal, whatever the letter case, and lists all of them by length, those of one length
in the order of registration.
-/

namespace Formula

/-- Characters that are the same, or an ASCII letter in its two cases. -/
def SameLetter (c d : Char) : Prop :=
  c = d ∨ (c.isUpper = true ∧ d.toNat = c.toNat + 32) ∨ (d.isUpper = true ∧ c.toNat = d.toNat + 32)

/-- Texts that differ in the case of ASCII letters at most. -/
def Text.SameLetters (s t : Text) : Prop := List.Forall₂ SameLetter s t

/-- Folding case identifies the characters that are the same letter, and no others. -/
theorem sameLetter_iff {c d : Char} : SameLetter c d ↔ c.toLower = d.toLower := by
  rw [SameLetter, ← Char.toNat_inj (c := c), ← Char.toNat_inj (c := c.toLower), toNat_toLower,
    toNat_toLower]
  simp only [isUpper_iff]
  split <;> split <;> omega

theorem Text.sameLetters_iff {s t : Text} : s.SameLetters t ↔ s.lower = t.lower := by
  rw [SameLetters, lower, lower, ← List.forall₂_eq_eq_eq, List.forall₂_map_left_iff,
    List.forall₂_map_right_iff]
  exact ⟨.imp fun _ _ => sameLetter_iff.1, .imp fun _ _ => sameLetter_iff.2⟩

/-- What is wrong with a symbol that is registered after the symbols `earlier`, and what is reported
about it. -/
inductive Symbol.Fault (earlier : List Symbol) (s : Symbol) : RegistryError → Prop
  /-- Its literal is empty. -/
  | emptyLiteral (h : s.literal = []) : Fault earlier s (.flawed .emptyLiteral)
  /-- It is a constant, and the text of its value is not a number. -/
  | invalidConstant {literal expression : Text} (hs : s = .constant literal expression)
      (h : ∀ x, constantValue expression ≠ .ok x) :
      Fault earlier s (.flawed (.invalidConstant literal expression))
  /-- No parameter absorbs further arguments, and the native operation takes another number of
  arguments than there are parameters. -/
  | arityMismatch {f : Operation} {native : Nat} (hs : s.operation? = some f)
      (hnative : f.native.arity = some native)
      (hfixed : ∀ p ∈ f.signature.parameters, p.parameter.absorbing = false)
      (h : f.signature.parameters.length ≠ native) :
      Fault earlier s (.flawed (.arityMismatch f.literal f.signature.parameters.length native))
  /-- An earlier symbol has the same literal, up to letter case. -/
  | duplicateLiteral {t : Symbol} (ht : t ∈ earlier) (h : t.literal.SameLetters s.literal) :
      Fault earlier s (.duplicateLiteral s.key)

/-- The checks are made in this order. -/
def RegistryError.check : RegistryError → Nat
  | flawed .emptyLiteral => 0
  | flawed (.invalidConstant ..) | flawed (.arityMismatch ..) => 1
  | duplicateLiteral _ => 2

/-- No symbol of a list is at fault after those before it. -/
def Faultless (symbols : List Symbol) : Prop :=
  ∀ before s after, symbols = before ++ s :: after → ∀ e, ¬ s.Fault before e

/-- The first symbol of a list that is at fault fails a check with the error `e`, and no earlier
check. -/
def IsFirstFault (symbols : List Symbol) (e : RegistryError) : Prop :=
  ∃ before s after, symbols = before ++ s :: after ∧ Faultless before ∧ s.Fault before e ∧
    ∀ e', s.Fault before e' → e.check ≤ e'.check

/-- There is a largest number of arguments if no parameter absorbs more of them. -/
theorem Signature.maximum?_eq_some_iff {f : Signature} {n : Nat} : f.maximum? = some n ↔
    (∀ p ∈ f.parameters, p.parameter.absorbing = false) ∧ f.parameters.length = n := by
  rw [maximum?]
  split
  · rename_i h
    obtain ⟨p, hp, habsorbing⟩ := List.any_eq_true.1 h
    simp only [reduceCtorEq, false_iff, not_and]
    intro hfixed
    rw [hfixed p hp] at habsorbing
    cases habsorbing
  · rename_i h
    have hfixed : ∀ p ∈ f.parameters, p.parameter.absorbing = false := by simpa using h
    rw [Option.some.injEq, and_iff_right hfixed]

/-- An operation is flawed if its parameters are not as many as its native operation takes. -/
theorem Operation.flaw?_eq_some_iff {f : Operation} {flaw : Symbol.Flaw} :
    f.flaw? = some flaw ↔ ∃ native, f.native.arity = some native ∧
      (∀ p ∈ f.signature.parameters, p.parameter.absorbing = false) ∧
      f.signature.parameters.length ≠ native ∧
      flaw = .arityMismatch f.literal f.signature.parameters.length native := by
  rw [Operation.flaw?]
  split
  · rename_i native declared hnative hdeclared
    obtain ⟨hfixed, rfl⟩ := Signature.maximum?_eq_some_iff.1 hdeclared
    simp only [hnative, Option.some.injEq, exists_eq_left', and_iff_right hfixed]
    split
    · rename_i hlength
      simp [hlength]
    · rename_i hlength
      rw [Option.some.injEq, and_iff_right (show _ ≠ _ from hlength)]
      exact eq_comm
  · rename_i hnone
    simp only [reduceCtorEq, false_iff]
    rintro ⟨native, hnative, hfixed, -⟩
    exact hnone _ _ hnative (Signature.maximum?_eq_some_iff.2 ⟨hfixed, rfl⟩)

namespace Symbol

variable {s : Symbol} {earlier later : List Symbol} {e : RegistryError} {flaw : Flaw}

/-- A symbol that is at fault after some symbols is at fault after more of them. -/
theorem Fault.mono (h : s.Fault earlier e) (hsub : earlier ⊆ later) : s.Fault later e := by
  cases h with
  | emptyLiteral h => exact .emptyLiteral h
  | invalidConstant hs h => exact .invalidConstant hs h
  | arityMismatch hs hnative hfixed h => exact .arityMismatch hs hnative hfixed h
  | duplicateLiteral ht h => exact .duplicateLiteral (hsub ht) h

/-- The faults of a symbol that has a literal, other than that the literal is taken. -/
theorem fault_flawed_iff (hne : s.literal ≠ []) :
    s.Fault earlier (.flawed flaw) ↔ s.flaw? = some flaw := by
  simp only [flaw?, if_neg hne]
  constructor
  · intro h
    cases h with
    | emptyLiteral h => exact absurd h hne
    | @invalidConstant literal expression hs h =>
      subst hs
      cases hvalue : constantValue expression with
      | ok x => exact absurd hvalue (h x)
      | error _ => simp [hvalue]
    | @arityMismatch f native hs hnative hfixed h =>
      have hflaw := Operation.flaw?_eq_some_iff.2 ⟨native, hnative, hfixed, h, rfl⟩
      cases s with
      | operator op =>
        obtain rfl := Option.some.inj hs
        exact hflaw
      | function g =>
        obtain rfl := Option.some.inj hs
        exact hflaw
      | constant | free => cases hs
  · intro h
    cases s with
    | operator op =>
      obtain ⟨native, hnative, hfixed, hlength, rfl⟩ := Operation.flaw?_eq_some_iff.1 h
      exact .arityMismatch rfl hnative hfixed hlength
    | function f =>
      obtain ⟨native, hnative, hfixed, hlength, rfl⟩ := Operation.flaw?_eq_some_iff.1 h
      exact .arityMismatch rfl hnative hfixed hlength
    | constant literal expression =>
      cases hvalue : constantValue expression with
      | ok x => simp [hvalue] at h
      | error _ =>
        obtain rfl : _ = flaw := by simpa [hvalue] using h
        exact .invalidConstant rfl (by simp [hvalue])
    | free literal => cases h

theorem fault_duplicateLiteral_iff {key : Text} : s.Fault earlier (.duplicateLiteral key) ↔
    key = s.key ∧ s.key ∈ earlier.map Symbol.key := by
  simp only [List.mem_map, Symbol.key, ← Text.sameLetters_iff]
  constructor
  · rintro ⟨⟩
    rename_i t ht h
    exact ⟨rfl, t, ht, h⟩
  · rintro ⟨rfl, t, ht, h⟩
    exact .duplicateLiteral ht h

theorem check_flawed_le (flaw : Flaw) : (RegistryError.flawed flaw).check ≤ 1 := by
  cases flaw <;> simp [RegistryError.check]

/-- Only the check of the literal comes before the one that finds a flaw. -/
theorem check_le_of_flawed (hne : s.literal ≠ []) (h : s.Fault earlier e) :
    (RegistryError.flawed flaw).check ≤ e.check := by
  refine Nat.le_trans (check_flawed_le flaw) ?_
  cases h with
  | emptyLiteral h => exact absurd h hne
  | invalidConstant | arityMismatch => exact Nat.le_refl 1
  | duplicateLiteral => exact Nat.le_succ 1

end Symbol

namespace Registry

variable {r : Registry} {s : Symbol} {e : RegistryError}

/-- A registration fails if the symbol has a flaw or, if it has none, if its key is taken. -/
theorem register_eq_error : r.register s = .error e ↔
    (∃ flaw, s.flaw? = some flaw ∧ e = .flawed flaw) ∨
      s.flaw? = none ∧ s.key ∈ r.symbols.map Symbol.key ∧ e = .duplicateLiteral s.key := by
  unfold register
  split
  · rename_i flaw hflaw
    simp [hflaw, eq_comm]
  · rename_i hflaw
    split
    · rename_i hkey
      simp [hflaw, hkey, eq_comm]
    · rename_i hkey
      simp [hflaw, hkey]

/-- **A registration reports the earliest check that the symbol fails.** -/
theorem register_eq_error_iff : r.register s = .error e ↔ s.Fault r.symbols e ∧
    ∀ e', s.Fault r.symbols e' → e.check ≤ e'.check := by
  rw [register_eq_error]
  by_cases hne : s.literal = []
  · have hflaw : s.flaw? = some .emptyLiteral := by simp [Symbol.flaw?, hne]
    simp only [hflaw, Option.some.injEq, exists_eq_left', reduceCtorEq, false_and, or_false]
    constructor
    · rintro rfl
      exact ⟨.emptyLiteral hne, fun _ _ => Nat.zero_le _⟩
    · rintro ⟨h, hleast⟩
      have hcheck : e.check ≤ 0 := hleast _ (.emptyLiteral hne)
      cases h with
      | emptyLiteral => rfl
      | invalidConstant | arityMismatch | duplicateLiteral =>
        simp [RegistryError.check] at hcheck
  · constructor
    · rintro (⟨flaw, hflaw, rfl⟩ | ⟨hflaw, hkey, rfl⟩)
      · exact ⟨(Symbol.fault_flawed_iff hne).2 hflaw, fun _ => Symbol.check_le_of_flawed hne⟩
      · refine ⟨Symbol.fault_duplicateLiteral_iff.2 ⟨rfl, hkey⟩, fun e' h => ?_⟩
        cases e' with
        | flawed flaw =>
          rw [Symbol.fault_flawed_iff hne, hflaw] at h
          cases h
        | duplicateLiteral => exact Nat.le_refl 2
    · rintro ⟨h, hleast⟩
      cases e with
      | flawed flaw => exact .inl ⟨flaw, (Symbol.fault_flawed_iff hne).1 h, rfl⟩
      | duplicateLiteral key =>
        obtain ⟨rfl, hkey⟩ := Symbol.fault_duplicateLiteral_iff.1 h
        cases hflaw : s.flaw? with
        | none => exact .inr ⟨rfl, hkey, rfl⟩
        | some flaw =>
          -- the flaw would have been reported first
          have hcheck := hleast _ ((Symbol.fault_flawed_iff hne).2 hflaw)
          exact absurd (Nat.le_trans hcheck (Symbol.check_flawed_le flaw))
            (by simp [RegistryError.check])

/-- A registration succeeds if nothing is wrong with the symbol. -/
theorem exists_register_iff : (∃ r', r.register s = .ok r') ↔ ∀ e, ¬ s.Fault r.symbols e := by
  constructor
  · rintro ⟨r', h⟩ e hfault
    obtain ⟨hflaw, hkey, -⟩ := symbols_register h
    cases e with
    | flawed flaw =>
      rw [Symbol.fault_flawed_iff (Symbol.literal_ne_nil hflaw), hflaw] at hfault
      cases hfault
    | duplicateLiteral key => exact hkey (Symbol.fault_duplicateLiteral_iff.1 hfault).2
  · intro h
    cases hregister : r.register s with
    | ok r' => exact ⟨r', rfl⟩
    | error e => exact absurd (register_eq_error_iff.1 hregister).1 (h e)

end Registry

/-! ## Lists of symbols -/

theorem faultless_nil : Faultless [] := by
  intro before s after h
  simp at h

/-- A list is faultless if all but its last symbol are and nothing is wrong with the last one. -/
theorem faultless_concat_iff {symbols : List Symbol} {s : Symbol} :
    Faultless (symbols ++ [s]) ↔ Faultless symbols ∧ ∀ e, ¬ s.Fault symbols e := by
  constructor
  · intro h
    refine ⟨fun before t after ht => h before t (after ++ [s]) ?_, h symbols s [] rfl⟩
    rw [ht, List.append_assoc, List.cons_append]
  · rintro ⟨hsymbols, hs⟩ before t after ht
    rcases List.eq_nil_or_concat' after with rfl | ⟨more, u, rfl⟩
    · obtain ⟨rfl, hst⟩ := List.append_inj' ht rfl
      obtain rfl : s = t := by simpa using hst
      exact hs
    · rw [← List.cons_append, ← List.append_assoc] at ht
      exact hsymbols before t more (List.append_inj' ht rfl).1

namespace Registry

variable {r : Registry} {symbols : List Symbol} {s : Symbol} {e : RegistryError}

theorem ofSymbols_concat : ofSymbols (symbols ++ [s]) = ofSymbols symbols >>= (·.register s) := by
  simp [ofSymbols, List.foldlM_append]

/-- What is wrong with a symbol after others is what is wrong with it when they are registered. -/
theorem fault_symbols_iff (h : ofSymbols symbols = .ok r) :
    s.Fault r.symbols e ↔ s.Fault symbols e :=
  ⟨fun hs => hs.mono fun _ => (mem_ofSymbols h).1, fun hs => hs.mono fun _ => (mem_ofSymbols h).2⟩

/-- **Building succeeds if no symbol is at fault.** -/
theorem exists_ofSymbols_iff : (∃ r, ofSymbols symbols = .ok r) ↔ Faultless symbols := by
  induction symbols using List.reverseRecOn with
  | nil => exact iff_of_true ⟨empty, rfl⟩ faultless_nil
  | append_singleton symbols s ih =>
    rw [ofSymbols_concat, faultless_concat_iff, ← ih]
    cases h : ofSymbols symbols with
    | error e => simp [bind, Except.bind]
    | ok r => simpa [bind, Except.bind, fault_symbols_iff h] using exists_register_iff (r := r)

/-- **Building reports what is wrong with the first symbol that is at fault.** -/
theorem ofSymbols_eq_error_iff : ofSymbols symbols = .error e ↔ IsFirstFault symbols e := by
  constructor
  · intro h
    induction symbols using List.reverseRecOn with
    | nil => cases h
    | append_singleton symbols s ih =>
      rw [ofSymbols_concat] at h
      cases hr : ofSymbols symbols with
      | error e' =>
        rw [hr] at h
        obtain rfl : e' = e := by simpa [bind, Except.bind] using h
        obtain ⟨before, t, after, hsymbols, hfault⟩ := ih hr
        exact ⟨before, t, after ++ [s], by simp [hsymbols], hfault⟩
      | ok r =>
        rw [hr] at h
        have hregister := register_eq_error_iff.1 (show r.register s = .error e from h)
        simp only [fault_symbols_iff hr] at hregister
        exact ⟨symbols, s, [], rfl, exists_ofSymbols_iff.1 ⟨r, hr⟩, hregister⟩
  · rintro ⟨before, s, after, rfl, hfaultless, hfault, hleast⟩
    obtain ⟨r, hr⟩ := exists_ofSymbols_iff.2 hfaultless
    have hregister : r.register s = .error e := by
      rw [register_eq_error_iff]
      simp only [fault_symbols_iff hr]
      exact ⟨hfault, hleast⟩
    rw [ofSymbols, List.foldlM_append, ← ofSymbols, hr]
    change (s :: after).foldlM register r = .error e
    rw [List.foldlM_cons, hregister]
    rfl

/-! ## What is registered -/

theorem symbols_of_foldlM_register {r' : Registry} (h : symbols.foldlM register r = .ok r') :
    r'.symbols =
      symbols.foldl (fun sorted s => insertByKey (fun t => t.key.length) s sorted) r.symbols := by
  induction symbols generalizing r with
  | nil =>
    cases h
    rfl
  | cons s symbols ih =>
    rw [List.foldlM_cons] at h
    cases hs : r.register s with
    | error e => rw [hs] at h; cases h
    | ok r'' =>
      rw [hs] at h
      rw [ih h, (symbols_register hs).2.2, List.foldl_cons]

/-- **The symbols of a registry are sorted stably** by the length of their literals. -/
theorem symbols_ofSymbols (h : ofSymbols symbols = .ok r) :
    r.symbols = sortByKey (fun s => s.key.length) symbols :=
  symbols_of_foldlM_register h

/-- What a registry knows of a list of symbols. -/
structure Describes (r : Registry) (symbols : List Symbol) : Prop where
  /-- A symbol is found by the texts that are its literal up to letter case. -/
  get?_iff : ∀ t s, r.get? t = some s ↔ s ∈ symbols ∧ s.literal.SameLetters t
  /-- No two symbols have the same literal, up to letter case. -/
  unique : symbols.Pairwise fun s t => ¬ s.literal.SameLetters t.literal
  /-- Each symbol is listed once. -/
  perm : r.symbols.Perm symbols
  /-- Shorter literals come first. -/
  sorted : r.symbols.Pairwise fun s t => s.key.length ≤ t.key.length
  /-- Symbols of one length are listed in the order of the list. -/
  stable : ∀ n, r.symbols.filter (·.key.length == n) = symbols.filter (·.key.length == n)
  /-- A search finds the symbols whose literals in lower case start with a text, in the order in
  which they are listed. -/
  startingWith_eq : ∀ t, r.startingWith t = r.symbols.filter fun s => t <+: s.literal.lower

theorem describes_of_ofSymbols (h : ofSymbols symbols = .ok r) : r.Describes symbols where
  get?_iff t s := by rw [get?_eq_some_iff, mem_ofSymbols h, Text.sameLetters_iff, Symbol.key]
  unique := by
    have hperm : r.symbols.Perm symbols := symbols_ofSymbols h ▸ perm_sortByKey _ symbols
    refine (hperm.pairwise_iff fun hne heq => hne ?_).1 (r.distinct.imp fun hne heq => hne ?_)
    · exact Text.sameLetters_iff.2 (Text.sameLetters_iff.1 heq).symm
    · exact Text.sameLetters_iff.1 heq
  perm := symbols_ofSymbols h ▸ perm_sortByKey _ symbols
  sorted := r.sorted
  stable n := symbols_ofSymbols h ▸ filter_sortByKey _ symbols n
  startingWith_eq t := by
    refine List.filter_congr fun s _ => ?_
    rw [Bool.eq_iff_iff, List.isPrefixOf_iff_prefix, decide_eq_true_iff, Symbol.key]

/-- **Building a registry.**  It fails if some symbol is at fault after those before it, and then the
error is the one of the first such symbol.  Otherwise the registry describes the symbols: look-up,
listing and search see all of them and nothing else. -/
theorem ofSymbols_describes (symbols : List Symbol) :
    ((∃ e, ofSymbols symbols = .error e) ↔
      ∃ before s after e, symbols = before ++ s :: after ∧ s.Fault before e) ∧
    (∀ e, ofSymbols symbols = .error e ↔ IsFirstFault symbols e) ∧
    ∀ r, ofSymbols symbols = .ok r → r.Describes symbols := by
  refine ⟨⟨?_, ?_⟩, fun e => ofSymbols_eq_error_iff, fun r => describes_of_ofSymbols⟩
  · rintro ⟨e, h⟩
    obtain ⟨before, s, after, hsymbols, -, hfault, -⟩ := ofSymbols_eq_error_iff.1 h
    exact ⟨before, s, after, e, hsymbols, hfault⟩
  · rintro ⟨before, s, after, e, hsymbols, hfault⟩
    cases h : ofSymbols symbols with
    | error e' => exact ⟨e', rfl⟩
    | ok r => exact absurd hfault (exists_ofSymbols_iff.1 ⟨r, h⟩ before s after hsymbols e)

/-- The standard symbols, and a constant whose literal is taken. -/
theorem ofSymbols_describes_standard :
    ofSymbols standardSymbols = .ok standard ∧ standard.Describes standardSymbols ∧
      ofSymbols [.free ['x'], .constant ['X'] ['1']] = .error (.duplicateLiteral ['x']) ∧
      IsFirstFault [.free ['x'], .constant ['X'] ['1']] (.duplicateLiteral ['x']) := by
  have h : ofSymbols [.free ['x'], .constant ['X'] ['1']] = .error (.duplicateLiteral ['x']) := rfl
  exact ⟨ofSymbols_standardSymbols,
    (ofSymbols_describes standardSymbols).2.2 standard ofSymbols_standardSymbols, h,
    ((ofSymbols_describes _).2.1 _).1 h⟩

end Registry

end Formula

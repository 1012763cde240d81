import Formula.Symbol.Basic

/-!
# Registries of symbols

A registry holds the symbols that a formula may use, sorted by the length of their literals and in
the order of registration among literals of one length.  Symbols are told apart by their keys, so
two literals that differ in letter case only cannot both be registered.

Each registration is checked, and the first symbol that cannot be registered stops the building of
a registry.  What the checks ensure is part of the type.

## Main definitions

* `Registry` — symbols with distinct keys, sorted by length, none of them flawed.
* `Registry.register`, `Registry.ofSymbols` — building a registry.
* `Registry.get?` — look-up regardless of letter case.
* `Registry.startingWith` — the symbols whose keys start with a text.
* `Registry.multiplication?` — the operator between neighbouring values.
-/

namespace Formula

/-- The symbols that a formula may use. -/
structure Registry where
  /-- The symbols, shorter literals first. -/
  symbols : List Symbol
  /-- No two symbols share a key. -/
  distinct : symbols.Pairwise fun s t => s.key ≠ t.key
  /-- Shorter literals come first. -/
  sorted : symbols.Pairwise fun s t => s.key.length ≤ t.key.length
  /-- Every symbol can be used. -/
  sound : ∀ s ∈ symbols, s.flaw? = none

/-- Why a registry cannot be built. -/
inductive RegistryError
  /-- A symbol cannot be used. -/
  | flawed (flaw : Symbol.Flaw)
  /-- The key of a symbol is taken. -/
  | duplicateLiteral (key : Text)
  deriving DecidableEq, Repr

/-- The wording of a registration that fails. -/
def RegistryError.message : RegistryError → Text
  | .duplicateLiteral key =>
    "Symbol '".toList ++ key ++ "' is registered more than once".toList
  | .flawed .emptyLiteral => "Symbol literal cannot be empty".toList
  | .flawed (.invalidConstant literal expression) =>
    "Constant '".toList ++ literal ++ "' stands for '".toList ++ expression ++
      "', which is not a number".toList
  | .flawed (.arityMismatch literal declared native) =>
    "'".toList ++ literal ++ "' declares ".toList ++ .ofNat declared ++
      " argument(s), but its native operation takes ".toList ++ .ofNat native

namespace Registry

/-- The registry without symbols. -/
def empty : Registry := ⟨[], .nil, .nil, by simp⟩

/-- Add a symbol. -/
def register (r : Registry) (s : Symbol) : Except RegistryError Registry :=
  match hs : s.flaw? with
  | some flaw => .error (.flawed flaw)
  | none =>
    if hk : s.key ∈ r.symbols.map Symbol.key then .error (.duplicateLiteral s.key)
    else .ok {
      symbols := insertByKey (fun t => t.key.length) s r.symbols
      distinct := by
        refine (List.Perm.pairwise_iff (fun h => Ne.symm h) (perm_insertByKey _ s _)).2 ?_
        refine List.pairwise_cons.2 ⟨fun t ht heq => hk ?_, r.distinct⟩
        exact List.mem_map.2 ⟨t, ht, heq.symm⟩
      sorted := pairwise_insertByKey r.sorted
      sound := by
        intro t ht
        rcases mem_insertByKey.1 ht with rfl | ht
        · exact hs
        · exact r.sound t ht }

/-- What a registration checks, and the symbols after it. -/
theorem symbols_register {r r' : Registry} {s : Symbol} (h : r.register s = .ok r') :
    s.flaw? = none ∧ s.key ∉ r.symbols.map Symbol.key ∧
      r'.symbols = insertByKey (fun t => t.key.length) s r.symbols := by
  unfold register at h
  split at h
  · cases h
  · rename_i hs
    split at h
    · cases h
    · rename_i hk
      cases h
      exact ⟨hs, hk, rfl⟩

/-- The registry of a list of symbols, registered in order. -/
def ofSymbols (symbols : List Symbol) : Except RegistryError Registry :=
  symbols.foldlM register empty

/-- The symbol with a literal, regardless of letter case. -/
def get? (r : Registry) (literal : Text) : Option Symbol :=
  r.symbols.find? (·.key = literal.lower)

/-- The symbols whose keys start with a text, shorter literals first. -/
def startingWith (r : Registry) (t : Text) : List Symbol :=
  r.symbols.filter (t.isPrefixOf ·.key)

/-- The literal of the operator that stands for a multiplication. -/
def multiplicationLiteral : Text := ['*']

/-- The operator that multiplies neighbouring values, if there is one. -/
def multiplication? (r : Registry) : Option Operator :=
  match r.get? multiplicationLiteral with
  | some (.operator op) => some op
  | _ => none

/-- The number of symbols. -/
def size (r : Registry) : Nat := r.symbols.length

/-- Symbols with one key are the same symbol. -/
theorem eq_of_key_eq {r : Registry} {s t : Symbol} (hs : s ∈ r.symbols) (ht : t ∈ r.symbols)
    (h : s.key = t.key) : s = t := by
  have hd := r.distinct
  generalize r.symbols = l at hs ht hd
  induction l with
  | nil => cases hs
  | cons u l ih =>
    rw [List.pairwise_cons] at hd
    rcases List.mem_cons.1 hs with hsu | hsl <;> rcases List.mem_cons.1 ht with htu | htl
    · rw [hsu, htu]
    · exact absurd (hsu ▸ h) (hd.1 t htl)
    · exact absurd (htu ▸ h.symm) (hd.1 s hsl)
    · exact ih hsl htl hd.2

/-- The symbol that is found is the one that is registered under the key asked for. -/
theorem get?_eq_some_iff {r : Registry} {literal : Text} {s : Symbol} :
    r.get? literal = some s ↔ s ∈ r.symbols ∧ s.key = literal.lower := by
  constructor
  · intro h
    exact ⟨List.mem_of_find?_eq_some h, by simpa using List.find?_some h⟩
  · rintro ⟨hs, hk⟩
    cases h : r.get? literal with
    | none =>
      have := List.find?_eq_none.1 h s hs
      simp [hk] at this
    | some t =>
      have htk : t.key = literal.lower := by simpa using List.find?_some h
      rw [eq_of_key_eq (List.mem_of_find?_eq_some h) hs (htk.trans hk.symm)]

/-- Letter case does not matter for a look-up. -/
theorem get?_congr {r : Registry} {s t : Text} (h : s.lower = t.lower) : r.get? s = r.get? t := by
  simp only [get?, h]

/-- A registered literal is not empty. -/
theorem key_ne_nil {r : Registry} {s : Symbol} (h : s ∈ r.symbols) : s.key ≠ [] := by
  have := Symbol.literal_ne_nil (r.sound s h)
  simpa [Symbol.key, Text.lower] using this

/-- Nor is a word that spells it. -/
theorem ne_nil_of_lower {r : Registry} {s : Symbol} (h : s ∈ r.symbols) {w : Text}
    (hw : w.lower = s.key) : w ≠ [] := by
  rintro rfl
  exact key_ne_nil h hw.symm

end Registry

end Formula

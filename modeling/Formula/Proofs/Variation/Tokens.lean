import Formula.Proofs.Grammar.Standard
import Formula.Proofs.Variation.Basic

/-!
# The tokens of a variation

The tokens of a formula and of its variation are read side by side, scope by scope.  What is written
between two values is an operator, so it matters whether a value stands before the rest of a scope,
and whether an operator has just been written there, which a value must follow.

No token is read in another way because of what is written elsewhere: a number is followed by an
operator or a parenthesis at most, and nothing is written between a function name and the
parenthesis after it.
-/

namespace Formula

/-- What stands before the rest of a scope that is varied. -/
inductive Before
  /-- Nothing, or an operator. -/
  | other
  /-- A value. -/
  | value
  /-- An operator that has just been written. -/
  | written
  deriving DecidableEq

/-- The token of an operator that is written. -/
def Operator.token (op : Operator) : Token := .symbol (.operator op) op.literal

/-- The rest of a scope and what it is in a variation. -/
inductive Rewrites (V : Variation) : Before → List Token → List Token → Prop
  /-- The scope ends. -/
  | nil {b : Before} (hb : b ≠ .written) : Rewrites V b [] []
  /-- A blank. -/
  | silent {b : Before} {tok : Token} {ts ts' : List Token} (hb : b ≠ .written)
    (htok : tok.isSilent = true) (rest : Rewrites V b ts ts') :
    Rewrites V b (tok :: ts) (tok :: ts')
  /-- An operator. -/
  | operator {b : Before} {op : Operator} {w : Text} {ts ts' : List Token} (hb : b ≠ .written)
    (rest : Rewrites V .other ts ts') :
    Rewrites V b (.symbol (.operator op) w :: ts) (.symbol (.operator op) w :: ts')
  /-- A number. -/
  | number {b : Before} {n : Text} {ts ts' : List Token} (rest : Rewrites V .value ts ts') :
    Rewrites V b (.number n :: ts) (.number n :: ts')
  /-- A constant. -/
  | constant {b : Before} {literal expression w : Text} {ts ts' : List Token}
    (rest : Rewrites V .value ts ts') :
    Rewrites V b (.symbol (.constant literal expression) w :: ts)
      (.symbol (.constant literal expression) w :: ts')
  /-- A variable that stays. -/
  | free {b : Before} {literal w : Text} {ts ts' : List Token} (hstays : V.number? literal = none)
    (rest : Rewrites V .value ts ts') :
    Rewrites V b (.symbol (.free literal) w :: ts) (.symbol (.free literal) w :: ts')
  /-- A variable that becomes a number in parentheses. -/
  | replaced {b : Before} {literal w n : Text} {ts ts' : List Token}
    (hnumber : V.number? literal = some n) (rest : Rewrites V .value ts ts') :
    Rewrites V b (.symbol (.free literal) w :: ts) ([Token.opening, .number n, .closing] ++ ts')
  /-- A scope in parentheses. -/
  | group {b : Before} {inner inner' ts ts' : List Token} (hinner : Rewrites V .other inner inner')
    (rest : Rewrites V .value ts ts') :
    Rewrites V b ([Token.opening] ++ inner ++ [Token.closing] ++ ts)
      ([Token.opening] ++ inner' ++ [Token.closing] ++ ts')
  /-- A function name and its slots. -/
  | call {b : Before} {f : Operation} {w : Text} {gap : List Token}
    {first : List Token × List Token} {more : List (List Token × List Token)}
    {ts ts' : List Token} (hgap : isSilent gap = true)
    (hslots : ∀ slot ∈ first :: more, Rewrites V .other slot.1 slot.2)
    (rest : Rewrites V .value ts ts') :
    Rewrites V b
      ([Token.symbol (.function f) w] ++ gap ++ [Token.opening] ++
        commaJoin first.1 (more.map Prod.fst) ++ [Token.closing] ++ ts)
      ([Token.symbol (.function f) w] ++ gap ++ [Token.opening] ++
        commaJoin first.2 (more.map Prod.snd) ++ [Token.closing] ++ ts')
  /-- An operator is written after a value. -/
  | product {op : Operator} {ts ts' : List Token} (hop : V.product? = some op)
    (rest : Rewrites V .written ts ts') : Rewrites V .value ts (op.token :: ts')

/-- A token, or a number in parentheses instead of it. -/
def Variation.token (V : Variation) : Token → List Token
  | .symbol (.free literal) w =>
    match V.number? literal with
    | some n => [.opening, .number n, .closing]
    | none => [.symbol (.free literal) w]
  | tok => [tok]

/-- Tokens with numbers in parentheses instead of variables. -/
def Variation.tokens (V : Variation) (ts : List Token) : List Token := ts.flatMap V.token

variable {V : Variation}

theorem Variation.tokens_append (ss ts : List Token) :
    V.tokens (ss ++ ts) = V.tokens ss ++ V.tokens ts := List.flatMap_append

theorem Variation.tokens_cons (tok : Token) (ts : List Token) :
    V.tokens (tok :: ts) = V.token tok ++ V.tokens ts := List.flatMap_cons

/-- Where no variable becomes a number, the tokens stay as they are. -/
theorem Variation.tokens_eq_self (hV : ∀ literal, V.number? literal = none) (ts : List Token) :
    V.tokens ts = ts := by
  have htoken : ∀ tok, V.token tok = [tok] := by
    intro tok
    rw [Variation.token.eq_def]
    split
    · rw [hV]
    · rfl
  rw [Variation.tokens, funext htoken]
  exact List.flatMap_singleton' ts

theorem Variation.tokens_of_isSilent {ts : List Token} (h : isSilent ts = true) :
    V.tokens ts = ts := by
  induction ts with
  | nil => rfl
  | cons tok ts ih =>
    simp only [isSilent, List.all_cons, Bool.and_eq_true] at h
    rw [tokens_cons, ih h.2]
    cases tok with
    | blank | uncalled => rfl
    | opening | closing | comma | number | symbol | unknown | repeatedPoint => cases h.1

theorem Variation.tokens_commaJoin (first : List Token) (more : List (List Token)) :
    V.tokens (commaJoin first more) = commaJoin (V.tokens first) (more.map V.tokens) := by
  have hmore : V.tokens (more.flatMap (.comma :: ·)) =
      (more.map V.tokens).flatMap (.comma :: ·) := by
    induction more with
    | nil => rfl
    | cons slot more ih =>
      rw [List.flatMap_cons, tokens_append, ih, tokens_cons, List.map_cons, List.flatMap_cons]
      rfl
  rw [commaJoin, tokens_append, hmore, commaJoin]

/-- A call whose slots become something else, each by itself. -/
theorem rewrites_call_map {b : Before} {f : Operation} {w : Text} {gap first ts ts' : List Token}
    {more : List (List Token)} (g : List Token → List Token) (hgap : isSilent gap = true)
    (hslots : ∀ slot ∈ first :: more, Rewrites V .other slot (g slot))
    (hts : Rewrites V .value ts ts') :
    Rewrites V b
      ([Token.symbol (.function f) w] ++ gap ++ [Token.opening] ++
        commaJoin first more ++ [Token.closing] ++ ts)
      ([Token.symbol (.function f) w] ++ gap ++ [Token.opening] ++
        commaJoin (g first) (more.map g) ++ [Token.closing] ++ ts') := by
  have hcall := @Rewrites.call V b f w gap (first, g first) (more.map fun slot => (slot, g slot))
    ts ts' hgap ?_ hts
  · simpa only [List.map_map, Function.comp_def, List.map_id'] using hcall
  · intro pair hpair
    have hmap : pair ∈ (first :: more).map fun slot => (slot, g slot) := hpair
    obtain ⟨slot, hslot, rfl⟩ := List.mem_map.1 hmap
    exact hslots slot hslot

/-- **The variables of a scope may become numbers.** -/
theorem Scope.rewrites {g : Grammar} {last : Last} {ts : List Token} (h : Scope g last ts) :
    ∀ b ≠ Before.written, Rewrites V b ts (V.tokens ts) := by
  induction h with
  | nil => exact fun b hb => .nil hb
  | @silent last tok ts htok rest ih =>
    intro b hb
    have hsilent : V.token tok = [tok] := by
      cases tok with
      | blank | uncalled => rfl
      | opening | closing | comma | number | symbol | unknown | repeatedPoint => cases htok
    rw [Variation.tokens_cons, hsilent]
    exact .silent hb htok (ih b hb)
  | number rest ih => exact fun b _ => .number (ih .value (by decide))
  | constant rest ih => exact fun b _ => .constant (ih .value (by decide))
  | @free last literal w ts rest ih =>
    intro b hb
    rw [Variation.tokens_cons, Variation.token]
    cases hnumber : V.number? literal with
    | none => exact .free hnumber (ih .value (by decide))
    | some n => exact .replaced hnumber (ih .value (by decide))
  | operator hleft rest ih => exact fun b hb => .operator hb (ih .other (by decide))
  | group hinner rest ihinner ih =>
    intro b hb
    simp only [Variation.tokens_append]
    exact .group (ihinner .other (by decide)) (ih .value (by decide))
  | @call last f w gap first ts more hgap hslots hallows rest ihslots ih =>
    intro b hb
    simp only [Variation.tokens_append, Variation.tokens_commaJoin,
      Variation.tokens_of_isSilent hgap]
    exact rewrites_call_map V.tokens hgap (fun slot hslot => ihslots slot hslot .other (by decide))
      (ih .value (by decide))

/-! ## What follows a token -/

/-- What a variation writes can be read: its numbers are plain and its operator is a standard
symbol. -/
structure Variation.Legible (V : Variation) : Prop where
  /-- The numbers are plain. -/
  number : ∀ literal n, V.number? literal = some n → Numeral.isPlain n = true
  /-- The operator is a standard symbol. -/
  product : ∀ op, V.product? = some op → .operator op ∈ standardSymbols

theorem continuesNumeral_append {w : Text} (hw : w ≠ []) (u : Text) :
    continuesNumeral (w ++ u) = continuesNumeral w := by
  obtain ⟨c, w, rfl⟩ := List.exists_cons_of_ne_nil hw
  rfl

/-- No text goes on with a digit or a point where another one does not. -/
def GoesOnAs (t t' : Text) : Prop := continuesNumeral t = false → continuesNumeral t' = false

theorem goesOnAs_append {w : Text} (hw : w ≠ []) (t t' : Text) : GoesOnAs (w ++ t) (w ++ t') := by
  intro h
  rw [continuesNumeral_append hw] at h ⊢
  exact h

theorem Token.Lexeme.text_ne_nil {following : Text} {tok : Token} (h : tok.Lexeme following) :
    tok.text ≠ [] := by
  cases tok with
  | number n => exact Numeral.ne_nil_of_isPlain (isNumeral_iff.1 h.1)
  | symbol s w => exact Registry.ne_nil_of_lower (Registry.mem_standard.2 h.1) h.2.1
  | uncalled => exact h.elim
  | blank | opening | closing | comma | unknown | repeatedPoint => exact List.cons_ne_nil _ _

/-- A piece that is no function name is a piece before another text, which does not go on with a
digit or a point where the first one does not. -/
theorem Token.Lexeme.of_goesOnAs {following following' : Text} {tok : Token}
    (h : tok.Lexeme following) (hcall : ∀ f w, tok ≠ .symbol (.function f) w)
    (hfollowing : GoesOnAs following following') : tok.Lexeme following' := by
  cases tok with
  | number n =>
    refine ⟨h.1, continuesNumeral_eq_false_iff.1 (hfollowing ?_)⟩
    exact continuesNumeral_eq_false_iff.2 h.2
  | symbol s w =>
    refine ⟨h.1, h.2.1, ?_⟩
    intro hcallable
    cases s with
    | function f => exact absurd rfl (hcall f w)
    | operator | constant | free => cases hcallable
  | blank | opening | closing | comma | unknown | repeatedPoint | uncalled => exact h

/-- Blanks are pieces whatever follows them. -/
theorem lexemes_of_isSilent {after : Text} {ts : List Token} (hts : isSilent ts = true)
    (h : InContext Token.Lexeme after ts) (after' : Text) : InContext Token.Lexeme after' ts := by
  induction ts with
  | nil => trivial
  | cons tok ts ih =>
    simp only [isSilent, List.all_cons, Bool.and_eq_true] at hts
    refine ⟨?_, ih hts.2 h.2⟩
    cases tok with
    | blank => exact h.1
    | uncalled => exact h.1.elim
    | opening | closing | comma | number | symbol | unknown | repeatedPoint => cases hts.1

/-- Blanks do not keep a function name from its parenthesis. -/
theorem startsCall_of_isSilent {after : Text} {ts : List Token} (hts : isSilent ts = true)
    (h : InContext Token.Lexeme after ts) (u : Text) :
    startsCall (ts.flatMap Token.text ++ '(' :: u) = true := by
  induction ts with
  | nil => rfl
  | cons tok ts ih =>
    simp only [isSilent, List.all_cons, Bool.and_eq_true] at hts
    have hrest := ih hts.2 h.2
    cases tok with
    | blank c =>
      have hc : isBlank c = true := h.1
      simpa [startsCall, Token.text, hc] using hrest
    | uncalled => exact h.1.elim
    | opening | closing | comma | number | symbol | unknown | repeatedPoint => cases hts.1

/-! ## Pieces -/

/-- The tokens of a scope stay pieces when it is varied, and the text does not go on with a digit or
a point where it did not. -/
def KeepsLexemes (ts ts' : List Token) : Prop :=
  ∀ after after' : Text, GoesOnAs after after' → InContext Token.Lexeme after ts →
    InContext Token.Lexeme after' ts' ∧
      GoesOnAs (ts.flatMap Token.text ++ after) (ts'.flatMap Token.text ++ after')

theorem keepsLexemes_cons {tok : Token} {ts ts' : List Token}
    (hcall : ∀ f w, tok ≠ .symbol (.function f) w) (h : KeepsLexemes ts ts') :
    KeepsLexemes (tok :: ts) (tok :: ts') := by
  intro after after' hafter hlexemes
  obtain ⟨htok, hts⟩ := hlexemes
  obtain ⟨hts', hgoes⟩ := h after after' hafter hts
  refine ⟨⟨htok.of_goesOnAs hcall hgoes, hts'⟩, ?_⟩
  rw [List.flatMap_cons, List.flatMap_cons, List.append_assoc, List.append_assoc]
  exact goesOnAs_append htok.text_ne_nil _ _

theorem keepsLexemes_append {ss ss' ts ts' : List Token} (hss : KeepsLexemes ss ss')
    (hts : KeepsLexemes ts ts') : KeepsLexemes (ss ++ ts) (ss' ++ ts') := by
  intro after after' hafter hlexemes
  rw [inContext_append] at hlexemes
  obtain ⟨hts', hgoes⟩ := hts after after' hafter hlexemes.2
  obtain ⟨hss', hgoes'⟩ := hss _ _ hgoes hlexemes.1
  refine ⟨inContext_append.2 ⟨hss', hts'⟩, ?_⟩
  simpa only [List.flatMap_append, List.append_assoc] using hgoes'

theorem keepsLexemes_nil : KeepsLexemes [] [] := fun _ _ hafter _ => ⟨trivial, hafter⟩

theorem keepsLexemes_commaJoin {first : List Token × List Token}
    {more : List (List Token × List Token)}
    (h : ∀ slot ∈ first :: more, KeepsLexemes slot.1 slot.2) :
    KeepsLexemes (commaJoin first.1 (more.map Prod.fst))
      (commaJoin first.2 (more.map Prod.snd)) := by
  refine keepsLexemes_append (h first List.mem_cons_self) ?_
  obtain ⟨-, hmore⟩ := List.forall_mem_cons.1 h
  induction more with
  | nil => exact keepsLexemes_nil
  | cons slot more ih =>
    obtain ⟨hslot, hmore⟩ := List.forall_mem_cons.1 hmore
    simp only [List.map_cons, List.flatMap_cons]
    exact keepsLexemes_append (keepsLexemes_cons (by simp) hslot)
      (ih (List.forall_mem_cons.2 ⟨h first List.mem_cons_self, hmore⟩) hmore)

theorem keepsLexemes_closing : KeepsLexemes [.closing] [.closing] :=
  keepsLexemes_cons (by simp) keepsLexemes_nil

/-- Nothing is written between a function name and the parenthesis after it. -/
theorem keepsLexemes_call {f : Operation} {w : Text} {gap ts ts' : List Token}
    (hgap : isSilent gap = true) (h : KeepsLexemes ts ts') :
    KeepsLexemes (.symbol (.function f) w :: (gap ++ .opening :: ts))
      (.symbol (.function f) w :: (gap ++ .opening :: ts')) := by
  intro after after' hafter hlexemes
  obtain ⟨hname, hrest⟩ := hlexemes
  obtain ⟨hblanks, hlist⟩ := inContext_append.1 hrest
  have hts : InContext Token.Lexeme after ts := hlist.2
  refine ⟨⟨⟨hname.1, hname.2.1, fun _ => startsCall_iff.1 ?_⟩, ?_⟩, ?_⟩
  · have hstarts := startsCall_of_isSilent hgap hblanks (ts'.flatMap Token.text ++ after')
    simpa [Token.text] using hstarts
  · obtain ⟨hts', -⟩ := h after after' hafter hts
    exact inContext_append.2 ⟨lexemes_of_isSilent hgap hblanks _, trivial, hts'⟩
  · have hne : w ≠ [] := Registry.ne_nil_of_lower (Registry.mem_standard.2 hname.1) hname.2.1
    simpa [Token.text] using goesOnAs_append hne _ _

/-- **Pieces of a formula become pieces of a formula.** -/
theorem Rewrites.keepsLexemes (hV : V.Legible) {b : Before} {ts ts' : List Token}
    (h : Rewrites V b ts ts') : KeepsLexemes ts ts' := by
  induction h with
  | nil => exact keepsLexemes_nil
  | @silent b tok ts ts' hb htok rest ih =>
    refine keepsLexemes_cons ?_ ih
    rintro f w rfl
    cases htok
  | operator hb rest ih => exact keepsLexemes_cons (by simp) ih
  | number rest ih => exact keepsLexemes_cons (by simp) ih
  | constant rest ih => exact keepsLexemes_cons (by simp) ih
  | free hstays rest ih => exact keepsLexemes_cons (by simp) ih
  | @replaced b literal w n ts ts' hnumber rest ih =>
    intro after after' hafter hlexemes
    have hn := isNumeral_iff.2 (hV.number literal n hnumber)
    obtain ⟨hts', -⟩ := ih after after' hafter hlexemes.2
    exact ⟨⟨trivial, ⟨hn, by simp [Token.text]⟩, trivial, hts'⟩, fun _ => rfl⟩
  | group hinner rest ihinner ih =>
    exact keepsLexemes_append (keepsLexemes_append (keepsLexemes_cons (by simp) ihinner)
      keepsLexemes_closing) ih
  | @call b f w gap first more ts ts' hgap hslots rest ihslots ih =>
    have hrest := keepsLexemes_append (keepsLexemes_append (keepsLexemes_commaJoin ihslots)
      keepsLexemes_closing) ih
    have hcall := keepsLexemes_call (f := f) (w := w) hgap hrest
    simpa using hcall
  | @product op ts ts' hop rest ih =>
    intro after after' hafter hlexemes
    have hmem := hV.product op hop
    obtain ⟨hts', -⟩ := ih after after' hafter hlexemes
    refine ⟨⟨⟨hmem, rfl, fun hcall => by cases hcall⟩, hts'⟩, fun _ => ?_⟩
    have hstart : continuesNumeral op.literal = false :=
      continuesNumeral_eq_false leavesNumerals_standard (Registry.mem_standard.2 hmem)
        (List.prefix_refl _)
    have hne : op.literal ≠ [] := Registry.ne_nil_of_lower (Registry.mem_standard.2 hmem) rfl
    rw [List.flatMap_cons, List.append_assoc, Operator.token, Token.text,
      continuesNumeral_append hne, hstart]

/-- **The tokens of a variation are what is written.** -/
theorem Rewrites.tokens_eq (hV : V.Legible) {g : Grammar} {last : Last} {b : Before} {t : Text}
    {ts' : List Token} (h : Rewrites V b (tokens .standard t) ts')
    (hscope : Scope g last (tokens .standard t)) :
    tokens .standard (ts'.flatMap Token.text) = ts' := by
  obtain ⟨hlexemes, -⟩ := lexemes_of_scope hscope
  exact tokens_of_lexemes (h.keepsLexemes hV [] [] id hlexemes).1

end Formula

import Formula.Proofs.Evaluation
import Formula.Proofs.Variation.Building
import Formula.Proofs.Variation.Compilation

/-!
# A number in the place of a variable

A variable has the value that it is bound to, so a formula has the same value if the number is
written down in the place of the variable, in parentheses.  The parentheses keep the number apart
from the characters around it, and from a sign in front of it.
-/

namespace Formula

/-- A text that starts at a position, with another text in the place of pieces of it, which are in
the order in which they stand. -/
def replaceFrom (w : Text) (position : Nat) (text : Text) : List Excerpt → Text
  | [] => text
  | e :: es =>
    text.take (e.start - position) ++ w ++ replaceFrom w e.stop (text.drop (e.stop - position)) es

namespace Parse

/-- The places where a variable is written, in order. -/
def occurrences (p : Parse) (name : Text) : List Excerpt :=
  (walkAll p.items).filterMap fun part =>
    if part.freeName? = some name then some part.excerpt else none

/-- The formula with a number in parentheses in each place of a variable. -/
def substitute (p : Parse) (name n : Text) : Text :=
  replaceFrom ('(' :: n ++ [')']) 0 p.text (p.occurrences name)

end Parse

/-- A text before all pieces stays as it is. -/
theorem replaceFrom_append {w u t : Text} {position : Nat} {es : List Excerpt}
    (h : ∀ e ∈ es, position + u.length ≤ e.start) :
    replaceFrom w position (u ++ t) es = u ++ replaceFrom w (position + u.length) t es := by
  cases es with
  | nil => rfl
  | cons e es =>
    have hstart : position + u.length ≤ e.start := h e List.mem_cons_self
    have hstop : e.start ≤ e.stop := Nat.le_add_right _ _
    have htake : u.length ≤ e.start - position := by omega
    have hdrop : u.length ≤ e.stop - position := by omega
    rw [replaceFrom, replaceFrom, List.take_append, List.drop_append, List.take_of_length_le htake,
      List.drop_of_length_le hdrop, Nat.sub_sub, Nat.sub_sub]
    simp only [List.append_assoc, List.nil_append]

/-- A token that writes a variable, at its position. -/
def Token.occurrence? (name : Text) (position : Nat) : Token → Option Excerpt
  | symbol (.free literal) w => if literal = name then some ⟨position, w⟩ else none
  | _ => none

/-- The places where a variable is written by tokens of which the first one is at a position. -/
def occurrencesFrom (name : Text) : Nat → List Token → List Excerpt
  | _, [] => []
  | position, tok :: ts =>
    (tok.occurrence? name position).toList ++ occurrencesFrom name (position + tok.text.length) ts

theorem occurrence?_eq_some {name : Text} {position : Nat} {tok : Token} {e : Excerpt}
    (h : tok.occurrence? name position = some e) :
    ∃ w, tok = .symbol (.free name) w ∧ e = ⟨position, w⟩ := by
  rw [Token.occurrence?.eq_def] at h
  split at h
  · rename_i literal w
    by_cases hname : literal = name
    · rw [if_pos hname] at h
      obtain rfl := Option.some.inj h
      exact ⟨w, by rw [hname], rfl⟩
    · rw [if_neg hname] at h
      cases h
  · cases h

/-- A leaf that is a variable. -/
def Leaf.occurrence? (name : Text) : Leaf → Option Excerpt
  | symbol (.free literal) e => if literal = name then some e else none
  | _ => none

theorem le_start_of_mem_occurrencesFrom {name : Text} {ts : List Token} {position : Nat} :
    ∀ e ∈ occurrencesFrom name position ts, position ≤ e.start := by
  induction ts generalizing position with
  | nil => simp [occurrencesFrom]
  | cons tok ts ih =>
    intro e he
    rcases List.mem_append.1 he with he | he
    · obtain ⟨w, -, rfl⟩ := occurrence?_eq_some (Option.mem_toList.1 he)
      exact Nat.le_refl _
    · have hlater := ih e he
      omega

/-- The places in a tree are the places in its leaves. -/
theorem occurrences_eq_filterMap (p : Parse) (name : Text) :
    p.occurrences name = (leaves p.items).filterMap (Leaf.occurrence? name) := by
  have hpart : ∀ part : Part, (if part.freeName? = some name then some part.excerpt else none) =
      part.leaf?.bind (Leaf.occurrence? name) := by
    intro part
    cases part with
    | free literal e => simp [Part.freeName?, Part.leaf?, Leaf.occurrence?, Part.excerpt]
    | number | operator | constant | group | call => rfl
  rw [Parse.occurrences, leaves, List.filterMap_filterMap, funext hpart]

namespace Builder

variable {text : Text} {name : Text}

/-- A token adds the place that it writes a variable at, and no other. -/
theorem occurrence_of_leafStep {position : Nat} {tok : Token} {ls ls' : List Leaf}
    (h : LeafStep position tok ls ls') :
    ls'.filterMap (Leaf.occurrence? name) =
      ls.filterMap (Leaf.occurrence? name) ++ (tok.occurrence? name position).toList := by
  cases h with
  | number t =>
    rw [List.filterMap_append]
    rfl
  | signed t ls op sign =>
    rw [List.filterMap_append, List.filterMap_append, List.append_assoc]
    rfl
  | symbol s t =>
    rw [List.filterMap_append]
    cases s with
    | free literal =>
      by_cases hname : literal = name
      · simp [Leaf.occurrence?, Token.occurrence?, hname]
      · simp [Leaf.occurrence?, Token.occurrence?, hname]
    | operator | function | constant => rfl
  | other _ _ _ hsymbol =>
    cases tok with
    | symbol s t => exact absurd rfl (hsymbol s t)
    | _ => exact (List.append_nil _).symm

theorem occurrences_run (b : Builder) (ts : List Token) :
    (b.run text ts).leaves.filterMap (Leaf.occurrence? name) =
      b.leaves.filterMap (Leaf.occurrence? name) ++ occurrencesFrom name b.position ts := by
  induction ts generalizing b with
  | nil => simp [occurrencesFrom, run]
  | cons tok ts ih =>
    rw [run_cons, ih, occurrence_of_leafStep (leafStep_step b tok), occurrencesFrom,
      List.append_assoc, position_step]

end Builder

theorem occurrences_parse (r : Registry) (text name : Text) :
    (parse r text).occurrences name = occurrencesFrom name 0 (tokens r text) := by
  rw [occurrences_eq_filterMap, leaves_parse, Builder.occurrences_run]
  rfl

/-! ## Writing a number -/

namespace Variation

/-- A number in the place of a variable. -/
def substituting (name n : Text) : Variation where
  number? literal := if literal = name then some n else none
  product? := none

theorem legible_substituting {n : Text} (hn : Numeral.isPlain n = true) (name : Text) :
    (substituting name n).Legible := by
  refine ⟨?_, ?_⟩
  · intro literal m hm
    simp only [substituting] at hm
    split at hm
    · obtain rfl := Option.some.inj hm
      exact hn
    · cases hm
  · intro op hop
    cases hop

/-- **The text of the tokens in which a variable becomes a number.** -/
theorem replaceFrom_occurrencesFrom (name n : Text) (ts : List Token) (position : Nat) :
    replaceFrom ('(' :: n ++ [')']) position (ts.flatMap Token.text)
      (occurrencesFrom name position ts) =
    ((substituting name n).tokens ts).flatMap Token.text := by
  induction ts generalizing position with
  | nil => rfl
  | cons tok ts ih =>
    rw [tokens_cons, List.flatMap_append, List.flatMap_cons, occurrencesFrom,
      ← ih (position + tok.text.length)]
    cases hplace : tok.occurrence? name position with
    | none =>
      have hstays : (substituting name n).token tok = [tok] := by
        rw [token.eq_def]
        split
        · rename_i literal w
          by_cases hname : literal = name
          · simp [Token.occurrence?, hname] at hplace
          · simp [substituting, hname]
        · rfl
      rw [hstays, Option.toList_none, List.nil_append, List.flatMap_singleton]
      exact replaceFrom_append le_start_of_mem_occurrencesFrom
    | some e =>
      obtain ⟨w, rfl, rfl⟩ := occurrence?_eq_some hplace
      have hnumber : (substituting name n).token (.symbol (.free name) w) =
          [.opening, .number n, .closing] := by simp [token, substituting]
      rw [hnumber, Option.toList_some, List.singleton_append, replaceFrom]
      simp [Token.text, Excerpt.stop]

end Variation

/-! ## The value of a variation -/

theorem evaluateBy_of_compile {p : Parse} {root : Expr} {operations : List Operation}
    {names : List Text} {value? : Text → Option Float} {values : List Float}
    (h : compile p = .ok ⟨root, operations, names⟩)
    (hvalues : Evaluator.lookUp value? names = .ok values) :
    (Evaluator.ofParse p).evaluateBy value? = .ok (root.eval operations values) := by
  rw [Evaluator.evaluateBy_of_compiled ((Evaluator.compiled_ofParse p).trans h), hvalues]
  rfl

/-- **An expression has the value of its variation**, if the variable has the value of the number
and the other variables have the same values in both. -/
theorem translates_substituting {t t' : SymbolTable} {name n : Text} {x : Float}
    {values values' : List Float} (hx : constantValue n = .ok x)
    (hoperations : t'.operations = t.operations)
    (hmultiplication : t'.multiplication? = t.multiplication?)
    (hname : values[t.variableIndex name]? = some x)
    (hothers : ∀ m ≠ name, values[t.variableIndex m]? = values'[t'.variableIndex m]?) :
    Translates (Variation.substituting name n) t t' fun e e' =>
      e.eval t.operations values = e'.eval t'.operations values' where
  const _ := rfl
  call f args args' hargs := by
    have hindex : t'.operationIndex f = t.operationIndex f := by
      rw [SymbolTable.operationIndex, SymbolTable.operationIndex, hoperations]
    have hvalues : args.map (Expr.eval t.operations values) =
        args'.map (Expr.eval t'.operations values') := by
      induction hargs with
      | nil => rfl
      | cons harg _ ih => rw [List.map_cons, List.map_cons, harg, ih]
    rw [Expr.eval, Expr.eval, hindex, Expr.evalAll_eq_map, Expr.evalAll_eq_map, hvalues,
      hoperations]
  free m hm := by
    have hne : m ≠ name := by
      rintro rfl
      simp [Variation.substituting] at hm
    rw [Expr.eval, Expr.eval, hothers m hne]
  replaced m k hm := by
    simp only [Variation.substituting] at hm
    split at hm
    · rename_i heq
      obtain rfl := Option.some.inj hm
      exact ⟨x, hx, by rw [heq, Expr.eval, Expr.eval, hname]; rfl⟩
    · cases hm
  multiplication := hmultiplication
  product op hop := by cases hop

section Tables

variable {p p' : Parse} {name n : Text}

/-- The operations stay the same when a variable becomes a number. -/
theorem operations_substituting
    (hvary : VaryAll (.substituting name n) false p.items p'.items)
    (hregistry : p'.registry = p.registry) :
    (SymbolTable.ofParse p').operations = (SymbolTable.ofParse p).operations := by
  have hused : foundIn Symbol.operation? (walkAll p'.items) =
      foundIn Symbol.operation? (walkAll p.items) := by
    apply hvary.foundIn_walkAll
    · exact fun _ _ => rfl
    · exact fun _ _ => rfl
    · exact fun op hop => by cases hop
  simp only [SymbolTable.ofParse, filterMap_operation?, hused, hregistry]

/-- The variable that becomes a number is gone, and the others are still there. -/
theorem mem_names_substituting
    (hvary : VaryAll (.substituting name n) false p.items p'.items) (m : Text) :
    m ∈ (SymbolTable.ofParse p').names ↔ m ∈ (SymbolTable.ofParse p).names ∧ m ≠ name := by
  have hfound : foundIn Symbol.freeName? (walkAll p'.items) =
      foundIn (excluding Symbol.freeName? name) (walkAll p.items) := by
    apply hvary.foundIn_walkAll
    · intro s hs
      refine (excluding_of_ne ?_).symm
      intro hfree
      cases s with
      | free literal =>
        obtain rfl := Option.some.inj hfree
        simpa [Variation.substituting] using hs literal rfl
      | operator | function | constant => cases hfree
    · intro literal hnumber
      have heq : literal = name := by
        by_contra hne
        simp [Variation.substituting, hne] at hnumber
      exact excluding_eq_none (congrArg some heq)
    · exact fun op hop => by cases hop
  rw [mem_names_ofParse, mem_names_ofParse, hfound, mem_foundIn_excluding]

end Tables

/-- **Writing a number in the place of a variable is binding the variable to it.** -/
theorem evaluateBy_substitute {text name n : Text} {value? : Text → Option Float}
    {f : CompiledFormula} (hcompile : compile (parse .standard text) = .ok f)
    (hname : name ∈ f.names) (hn : Numeral.isPlain n = true)
    (hbound : ∀ m ∈ f.names, m ≠ name → value? m ≠ none) :
    let p := parse .standard text
    let p' := parse .standard (p.substitute name n)
    p'.isClean = true ∧ (compile p').isOk = true ∧
      ∃ x y, constantValue n = .ok x ∧ (Evaluator.ofParse p').evaluateBy value? = .ok y ∧
        (Evaluator.ofParse p).evaluateBy (fun m => if m = name then some x else value? m) =
          .ok y := by
  intro p p'
  obtain ⟨hclean, tree, -, rfl⟩ := builds_of_compile hcompile
  have hscope := (isClean_parse_iff_scope minusStandsAlone_standard text).1 hclean
  have hrewrites : Rewrites (.substituting name n) .other (tokens .standard text) _ :=
    hscope.rewrites .other (by decide)
  have htext : p.substitute name n =
      ((Variation.substituting name n).tokens (tokens .standard text)).flatMap Token.text := by
    rw [← Variation.replaceFrom_occurrencesFrom name n _ 0, text_tokens, Parse.substitute,
      occurrences_parse]
    rfl
  obtain ⟨hvary, hclean'⟩ :=
    varyAll_of_rewrites (Variation.legible_substituting hn name) hclean hrewrites
  rw [← htext] at hvary hclean'
  obtain ⟨x, hx⟩ := Numeral.constantValue_of_isPlain hn
  have hnames := mem_names_substituting hvary
  -- the values of the variables, in the order of each of the two formulas
  obtain ⟨values, hvalues⟩ : ∃ values, Evaluator.lookUp
      (fun m => if m = name then some x else value? m) (SymbolTable.ofParse p).names =
        .ok values := by
    apply exists_lookUp
    intro m hm
    by_cases heq : m = name
    · simp [heq]
    · simpa [heq] using hbound m hm heq
  obtain ⟨values', hvalues'⟩ : ∃ values', Evaluator.lookUp value? (SymbolTable.ofParse p').names =
      .ok values' := by
    apply exists_lookUp
    intro m hm
    obtain ⟨hm, hne⟩ := (hnames m).1 hm
    exact hbound m hm hne
  have hothers : ∀ m ≠ name, values[(SymbolTable.ofParse p).variableIndex m]? =
      values'[(SymbolTable.ofParse p').variableIndex m]? := by
    intro m hne
    have hiff : m ∈ (SymbolTable.ofParse p).names ↔ m ∈ (SymbolTable.ofParse p').names := by
      rw [hnames m, and_iff_left hne]
    rw [SymbolTable.variableIndex, SymbolTable.variableIndex, getElem?_of_lookUp hvalues,
      getElem?_of_lookUp hvalues', if_neg hne, if_congr hiff rfl rfl]
  have hvalue : values[(SymbolTable.ofParse p).variableIndex name]? = some x := by
    rw [SymbolTable.variableIndex, getElem?_of_lookUp hvalues, if_pos hname, if_pos rfl]
  have hoperations : (SymbolTable.ofParse p').operations = (SymbolTable.ofParse p).operations :=
    operations_substituting hvary rfl
  have htranslates := translates_substituting hx hoperations rfl hvalue hothers
  obtain ⟨root, hroot, hequal⟩ := exists_compile_varied htranslates hvary hclean' hcompile
  refine ⟨hclean', by rw [hroot]; rfl, x, _, hx, evaluateBy_of_compile hroot hvalues', ?_⟩
  rw [evaluateBy_of_compile hcompile hvalues, ← hequal]

/-- A variable that is written twice, once after a sign. -/
theorem evaluateBy_substitute_sign :
    (parse .standard "-x(y-1)X".toList).substitute "x".toList ".5".toList =
        "-(.5)(y-1)(.5)".toList ∧
      ∃ x z, constantValue ".5".toList = .ok x ∧
        (Evaluator.ofParse (parse .standard "-(.5)(y-1)(.5)".toList)).evaluateBy
          (fun m => if m = "y".toList then some 3 else none) = .ok z ∧
        (Evaluator.ofParse (parse .standard "-x(y-1)X".toList)).evaluateBy
          (fun m => if m = "x".toList then some x
            else if m = "y".toList then some 3 else none) = .ok z := by
  have htext : (parse .standard "-x(y-1)X".toList).substitute "x".toList ".5".toList =
      "-(.5)(y-1)(.5)".toList := by decide +kernel
  have hok : (compile (parse .standard "-x(y-1)X".toList)).isOk = true := by decide +kernel
  obtain ⟨f, hf⟩ := exists_of_isOk hok
  have hnames : f.names = ["x".toList, "y".toList] := by
    obtain ⟨-, tree, -, rfl⟩ := builds_of_compile hf
    dsimp only
    decide +kernel
  refine ⟨htext, ?_⟩
  rw [← htext]
  refine (evaluateBy_substitute hf (by simp [hnames]) (by decide) ?_).2.2
  intro m hm hne
  rw [hnames] at hm
  rcases List.mem_cons.1 hm with rfl | hm
  · exact absurd rfl hne
  · obtain rfl := List.mem_singleton.1 hm
    simp

end Formula

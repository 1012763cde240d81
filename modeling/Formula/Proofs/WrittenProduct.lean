import Formula.Proofs.Variation.Compilation
import Formula.Proofs.Variation.Neighbours

/-!
# Products that are written

Two values that stand side by side are multiplied.  The formula means the same if the multiplication
is written between them: the two are compiled to expressions that are written in the same way, or
neither can be compiled, because something in it is empty.

The operations may be numbered in another way, since the multiplication occurs where it did not
before.  Expressions are therefore compared by how they are written, with the table of each formula.
-/

namespace Formula

/-- The formula with a multiplication sign before the character at a position. -/
def Parse.writeProduct (p : Parse) (n : Nat) : Text := p.text.take n ++ '*' :: p.text.drop n

theorem Expr.textAll_eq_map (operations names : List Text) (es : List Expr) :
    Expr.textAll operations names es = es.map (Expr.text operations names) := by
  induction es with
  | nil => rfl
  | cons e es ih => rw [Expr.textAll, ih, List.map_cons]

/-- The literal that a call is written with. -/
theorem getElem?_literal (t : SymbolTable) (f : Operation) :
    (t.operations.map Operation.literal)[t.operationIndex f]? =
      if f.literal ∈ t.operations.map Operation.literal then some f.literal else none := by
  rw [List.getElem?_map, SymbolTable.operationIndex]
  split
  · rename_i hmem
    obtain ⟨g, hg, hliteral⟩ := List.mem_map.1 hmem
    have hlt : t.operations.findIdx (·.literal = f.literal) < t.operations.length :=
      List.findIdx_lt_length_of_exists ⟨g, hg, by simpa using hliteral⟩
    rw [List.getElem?_eq_getElem hlt]
    exact congrArg some (of_decide_eq_true (List.findIdx_getElem (w := hlt)))
  · rename_i hnot
    have hlength : t.operations.findIdx (·.literal = f.literal) = t.operations.length := by
      apply List.findIdx_eq_length_of_false
      intro g hg
      simp only [decide_eq_false_iff_not]
      exact fun heq => hnot (List.mem_map.2 ⟨g, hg, heq⟩)
    rw [hlength, List.getElem?_length]
    rfl

/-- **An expression is written like its variation**, if the tables hold the same literals. -/
theorem translates_writing {op : Operator} {t t' : SymbolTable}
    (hoperations : ∀ literal, literal ∈ t'.operations.map Operation.literal ↔
      literal ∈ t.operations.map Operation.literal)
    (hnames : t'.names = t.names) (hmultiplication : t'.multiplication? = t.multiplication?)
    (hop : t.multiplication? = some op) :
    Translates (.writing op) t t' fun e e' =>
      e.text (t.operations.map Operation.literal) t.names =
        e'.text (t'.operations.map Operation.literal) t'.names where
  const _ := rfl
  call f args args' hargs := by
    have htexts : args.map (Expr.text (t.operations.map Operation.literal) t.names) =
        args'.map (Expr.text (t'.operations.map Operation.literal) t'.names) := by
      induction hargs with
      | nil => rfl
      | cons harg _ ih => rw [List.map_cons, List.map_cons, harg, ih]
    rw [Expr.text, Expr.text, getElem?_literal, getElem?_literal, Expr.textAll_eq_map,
      Expr.textAll_eq_map, htexts, if_congr (hoperations f.literal) rfl rfl]
  free name _ := by
    rw [Expr.text, Expr.text, SymbolTable.variableIndex, SymbolTable.variableIndex, hnames]
  replaced _ _ h := by cases h
  multiplication := hmultiplication
  product op' hop' := by
    obtain rfl := Option.some.inj hop'
    exact hop

section Tables

variable {p p' : Parse} {op : Operator}

/-- The variables stay the same when a product is written. -/
theorem names_writing (hvary : VaryAll (.writing op) false p.items p'.items) :
    (SymbolTable.ofParse p').names = (SymbolTable.ofParse p).names := by
  have hfound : foundIn Symbol.freeName? (walkAll p'.items) =
      foundIn Symbol.freeName? (walkAll p.items) := by
    apply hvary.foundIn_walkAll
    · exact fun _ _ => rfl
    · exact fun literal hnumber => absurd rfl hnumber
    · exact fun _ _ => rfl
  simp only [SymbolTable.ofParse, Parse.freeVariables, filterMap_freeName?, hfound]

/-- **The two tables hold the same literals**, since the multiplication is in both. -/
theorem mem_operations_writing (hvary : VaryAll (.writing op) false p.items p'.items)
    (hregistry : p'.registry = p.registry) (hop : p.registry.multiplication? = some op)
    (literal : Text) :
    literal ∈ (SymbolTable.ofParse p').operations.map Operation.literal ↔
      literal ∈ (SymbolTable.ofParse p).operations.map Operation.literal := by
  set h : Symbol → Option Text := fun s => s.operation?.map Operation.literal
  have hfound : foundIn (excluding h op.literal) (walkAll p'.items) =
      foundIn (excluding h op.literal) (walkAll p.items) := by
    apply hvary.foundIn_walkAll
    · exact fun _ _ => rfl
    · exact fun literal hnumber => absurd rfl hnumber
    · intro op' hop'
      obtain rfl := Option.some.inj hop'
      exact excluding_eq_none rfl
  have htable : ∀ q : Parse, q.registry.multiplication? = some op →
      (literal ∈ (SymbolTable.ofParse q).operations.map Operation.literal ↔
        literal = op.literal ∨ literal ∈ foundIn (excluding h op.literal) (walkAll q.items)) := by
    intro q hq
    have hproduct : literal ∈ [op].map Operator.literal ↔ literal = op.literal :=
      List.mem_singleton
    rw [mem_literals_ofParse, hq, Option.toList_some, hproduct, mem_foundIn_excluding]
    tauto
  rw [htable p hop, htable p' (hregistry ▸ hop), hfound]

end Tables

theorem legible_writing {op : Operator} (hop : Registry.standard.multiplication? = some op) :
    (Variation.writing op).Legible := by
  constructor
  · intro literal n hnumber
    cases hnumber
  · intro op' hop'
    obtain rfl := Option.some.inj hop'
    exact Registry.mem_standard.1 (mem_of_multiplication? hop)

/-- **A product that is written is compiled like one that is not.** -/
theorem compile_writeProduct {text : Text} (hclean : (parse .standard text).isClean = true)
    {before after : List Part} {l q : Part}
    (hl : SiblingList (parse .standard text).items (before ++ l :: q :: after))
    (hleft : l.isOperator = false) (hright : q.isOperator = false) :
    let p := parse .standard text
    let p' := parse .standard (p.writeProduct q.start)
    p'.isClean = true ∧
      ((∃ f f', compile p = .ok f ∧ compile p' = .ok f' ∧ f'.display = f.display) ∨
        ∃ start start', compile p = .error (.emptyExpression start) ∧
          compile p' = .error (.emptyExpression start')) := by
  intro p p'
  obtain ⟨op, hop⟩ := Option.ne_none_iff_exists'.1 Registry.multiplication?_standard
  have hliteral := literal_of_multiplication? hop
  -- the operator is written where the tokens are cut
  obtain ⟨ss, us, htokens, hlength, hrewrites⟩ := cuts_of_neighbours hclean hl hleft hright
  have htext : p.writeProduct q.start = (ss ++ op.token :: us).flatMap Token.text := by
    have hsplit : text = ss.flatMap Token.text ++ us.flatMap Token.text := by
      rw [← List.flatMap_append, ← htokens, text_tokens]
    have hp : p.text = ss.flatMap Token.text ++ us.flatMap Token.text := hsplit
    rw [Parse.writeProduct, hp, ← hlength, List.take_left, List.drop_left]
    simp [Operator.token, Token.text, hliteral]
  obtain ⟨hvary, hclean'⟩ := varyAll_of_rewrites (legible_writing hop) hclean hrewrites
  rw [← htext] at hvary hclean'
  refine ⟨hclean', ?_⟩
  cases hcompile : compile p with
  | ok f =>
    have hnames := names_writing hvary
    have htranslates := translates_writing (mem_operations_writing hvary rfl hop) hnames rfl hop
    obtain ⟨root, hroot, htexts⟩ := exists_compile_varied htranslates hvary hclean' hcompile
    obtain ⟨-, tree, -, rfl⟩ := builds_of_compile hcompile
    exact .inl ⟨_, _, rfl, hroot, htexts.symm⟩
  | error e =>
    -- nothing but an empty list keeps a formula from being compiled, and it is still there
    have hcause : ∀ {t : Text} {e : CompileError}, (parse .standard t).isClean = true →
        compile (parse .standard t) = .error e →
          HoldsEmptyList (parse .standard t).items ∧ ∃ start, e = .emptyExpression start :=
      fun hclean he => eq_emptyExpression Registry.multiplication?_standard
        not_unreadableDefault_standard not_misorderedFunction_standard (caused_of_compile hclean he)
    obtain ⟨hempty, start, rfl⟩ := hcause hclean hcompile
    refine .inr ⟨start, ?_⟩
    cases hcompile' : compile p' with
    | ok f => exact absurd (hvary.holdsEmptyList hempty) (not_holdsEmptyList_of_compile hcompile')
    | error e' =>
      obtain ⟨-, start', rfl⟩ := hcause hclean' hcompile'
      exact ⟨start', rfl, rfl⟩

/-- A product with the square of a call. -/
theorem compile_writeProduct_square :
    (parse .standard "2*sin(x)^2".toList).isClean = true ∧
      ∃ f f', compile (parse .standard "2sin(x)^2".toList) = .ok f ∧
        compile (parse .standard "2*sin(x)^2".toList) = .ok f' ∧ f'.display = f.display := by
  have hclean : (parse .standard "2sin(x)^2".toList).isClean = true := by decide +kernel
  have hlist : (parse .standard "2sin(x)^2".toList).items.map (fun p => (p.start, p.isOperator)) =
      [(0, false), (1, false), (7, true), (8, false)] := by decide +kernel
  obtain ⟨l, rest, hitems, hl, hrest⟩ := List.map_eq_cons_iff.1 hlist
  obtain ⟨q, after, rfl, hq, -⟩ := List.map_eq_cons_iff.1 hrest
  obtain ⟨-, hleft⟩ := Prod.mk.inj hl
  obtain ⟨hstart, hright⟩ := Prod.mk.inj hq
  have hwhole : SiblingList (parse .standard "2sin(x)^2".toList).items ([] ++ l :: q :: after) := by
    rw [List.nil_append, ← hitems]
    exact .whole
  have htext : (parse .standard "2sin(x)^2".toList).writeProduct q.start =
      "2*sin(x)^2".toList := by
    rw [hstart]
    rfl
  have hwrite := compile_writeProduct hclean hwhole hleft hright
  simp only [htext] at hwrite
  refine ⟨hwrite.1, hwrite.2.resolve_right ?_⟩
  rintro ⟨start, -, herror, -⟩
  have hok : (compile (parse .standard "2sin(x)^2".toList)).isOk = true := by decide +kernel
  rw [herror] at hok
  cases hok

end Formula

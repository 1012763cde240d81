import Formula.Parse
import Formula.Proofs.Part.Steps
import Formula.Proofs.Token.Context

/-!
# The leaves of a tree

The *leaves* of a tree are its numbers and symbols, in the order in which they are written; the name
of a function is a leaf, in front of the leaves of its slots.  Groups and slots only hold other
parts.

The builder adds one leaf for each number and each symbol that it takes in, at the end, whatever
parentheses are open.  The exception is a number that a minus sign touches, which takes the place of
the sign.  `LeafStep` lists these cases, and what is said of all leaves of a tree is proved from it.
-/

namespace Formula

/-- A number or a symbol, where it is written. -/
inductive Leaf
  /-- A number. -/
  | number (written : Excerpt)
  /-- A symbol; of a function, its name. -/
  | symbol (s : Symbol) (written : Excerpt)

/-- What is written. -/
def Leaf.excerpt : Leaf → Excerpt
  | number e => e
  | symbol _ e => e

@[simp] theorem Leaf.excerpt_number (e : Excerpt) : (Leaf.number e).excerpt = e := rfl

@[simp] theorem Leaf.excerpt_symbol (s : Symbol) (e : Excerpt) :
    (Leaf.symbol s e).excerpt = e := rfl

/-- The leaf that a part is by itself. -/
def Part.leaf? : Part → Option Leaf
  | .number e => some (.number e)
  | .operator op e => some (.symbol (.operator op) e)
  | .constant literal expression e => some (.symbol (.constant literal expression) e)
  | .free literal e => some (.symbol (.free literal) e)
  | .group _ _ => none
  | .call f e _ => some (.symbol (.function f) e)

/-- The leaves of a sibling list. -/
def leaves (items : List Part) : List Leaf :=
  (walkAll items).filterMap Part.leaf?

/-- The leaves of the slots of a call. -/
def slotLeaves (slots : List Slot) : List Leaf :=
  (walkSlots slots).filterMap Part.leaf?

theorem walkAll_cons (p : Part) (ps : List Part) : walkAll (p :: ps) = p.walk ++ walkAll ps := by
  rw [walkAll]

theorem walkSlots_cons (s : Slot) (ss : List Slot) :
    walkSlots (s :: ss) = walkAll s.items ++ walkSlots ss := by
  cases s
  simp [walkSlots, Slot.walk, Slot.items]

@[simp] theorem walkAll_append (xs ys : List Part) :
    walkAll (xs ++ ys) = walkAll xs ++ walkAll ys := by
  induction xs with
  | nil => simp [walkAll]
  | cons x xs ih => rw [List.cons_append, walkAll_cons, ih, walkAll_cons, List.append_assoc]

@[simp] theorem walkSlots_append (xs ys : List Slot) :
    walkSlots (xs ++ ys) = walkSlots xs ++ walkSlots ys := by
  induction xs with
  | nil => simp [walkSlots]
  | cons x xs ih => rw [List.cons_append, walkSlots_cons, ih, walkSlots_cons, List.append_assoc]

@[simp] theorem leaves_nil : leaves [] = [] := rfl

@[simp] theorem leaves_append (xs ys : List Part) : leaves (xs ++ ys) = leaves xs ++ leaves ys := by
  simp [leaves]

theorem leaves_cons (p : Part) (ps : List Part) : leaves (p :: ps) = leaves [p] ++ leaves ps :=
  leaves_append [p] ps

@[simp] theorem leaves_number (e : Excerpt) : leaves [.number e] = [.number e] := by
  simp [leaves, walkAll, Part.walk, Part.leaf?]

@[simp] theorem leaves_operator (op : Operator) (e : Excerpt) :
    leaves [.operator op e] = [.symbol (.operator op) e] := by
  simp [leaves, walkAll, Part.walk, Part.leaf?]

@[simp] theorem leaves_group (e : Excerpt) (items : List Part) :
    leaves [.group e items] = leaves items := by
  have hgroup : (Part.group e items).leaf? = none := rfl
  simp [leaves, walkAll, Part.walk, List.filterMap_cons_none hgroup]

@[simp] theorem leaves_call (f : Operation) (e : Excerpt) (slots : List Slot) :
    leaves [.call f e slots] = .symbol (.function f) e :: slotLeaves slots := by
  simp [leaves, slotLeaves, walkAll, Part.walk, Part.leaf?]

@[simp] theorem leaves_ofSymbol (s : Symbol) (e : Excerpt) :
    leaves [.ofSymbol s e] = [.symbol s e] := by
  cases s <;> simp [Part.ofSymbol, leaves, walkAll, walkSlots, Part.walk, Part.leaf?]

@[simp] theorem slotLeaves_nil : slotLeaves [] = [] := rfl

theorem slotLeaves_cons (s : Slot) (ss : List Slot) :
    slotLeaves (s :: ss) = leaves s.items ++ slotLeaves ss := by
  rw [slotLeaves, walkSlots_cons, List.filterMap_append, leaves, slotLeaves]

@[simp] theorem slotLeaves_concat (slots : List Slot) (e : Excerpt) (items : List Part) :
    slotLeaves (slots ++ [Slot.mk e items]) = slotLeaves slots ++ leaves items := by
  simp [slotLeaves, leaves, walkSlots, Slot.walk]

/-- The leaves of what an open parenthesis begins. -/
def Bracket.leaves : Bracket → List Leaf
  | group => []
  | call f name slots _ => .symbol (.function f) name :: slotLeaves slots.reverse

/-- The leaves before and at open parentheses, the innermost parenthesis first. -/
def frameLeaves : List Frame → List Leaf
  | [] => []
  | f :: outer => frameLeaves outer ++ leaves f.before.reverse ++ f.bracket.leaves

namespace Builder

variable {text : Text} {b : Builder}

/-- The leaves of what has been built so far. -/
def leaves (b : Builder) : List Leaf :=
  frameLeaves b.frames ++ Formula.leaves b.items.reverse

/-- Closing a parenthesis keeps the leaves. -/
theorem leaves_close (f : Frame) (items : List Part) (inner outer : Nat) :
    Formula.leaves (close text f items inner outer).reverse =
      Formula.leaves f.before.reverse ++ f.bracket.leaves ++ Formula.leaves items.reverse := by
  obtain ⟨bracket, position, before⟩ := f
  cases bracket <;> simp [close, Bracket.leaves]

/-- Closing the parentheses that are open at the end keeps the leaves. -/
theorem leaves_finish (b : Builder) : Formula.leaves (b.finish text) = b.leaves := by
  obtain ⟨position, items, frames, errors, hints⟩ := b
  simp only [finish, leaves]
  induction frames generalizing items with
  | nil => rfl
  | cons f outer ih => simp [closeAll, ih, leaves_close, frameLeaves]

/-- What a token at `position` does to the leaves. -/
inductive LeafStep (position : Nat) : Token → List Leaf → List Leaf → Prop
  /-- A number is a new leaf. -/
  | number (t : Text) (ls : List Leaf) :
    LeafStep position (.number t) ls (ls ++ [.number ⟨position, t⟩])
  /-- A number that a minus sign touches replaces the sign. -/
  | signed (t : Text) (ls : List Leaf) (op : Operator) (sign : Excerpt)
    (hop : op.literal = ['-']) (htouch : sign.stop = position) :
    LeafStep position (.number t) (ls ++ [.symbol (.operator op) sign])
      (ls ++ [.number ⟨sign.start, sign.text ++ t⟩])
  /-- A symbol is a new leaf. -/
  | symbol (s : Symbol) (t : Text) (ls : List Leaf) :
    LeafStep position (.symbol s t) ls (ls ++ [.symbol s ⟨position, t⟩])
  /-- Nothing else is a leaf. -/
  | other (tok : Token) (ls : List Leaf) (hnumber : ∀ t, tok ≠ .number t)
    (hsymbol : ∀ s t, tok ≠ .symbol s t) : LeafStep position tok ls ls

@[simp] theorem leaves_openBracket (b : Builder) : b.openBracket.leaves = b.leaves := by
  rw [openBracket]
  split
  · rename_i f name before h
    simp [leaves, frameLeaves, Bracket.leaves, h]
  · simp [leaves, frameLeaves, Bracket.leaves]

@[simp] theorem leaves_closeBracket (b : Builder) : (b.closeBracket text).leaves = b.leaves := by
  rw [closeBracket]
  split
  · rfl
  · rename_i f outer h
    simp [leaves, leaves_close, h, frameLeaves]

@[simp] theorem leaves_separate (b : Builder) : (b.separate text).leaves = b.leaves := by
  rw [separate]
  split
  · rename_i f name slots slotStart opened before outer h
    simp [leaves, h, frameLeaves, Bracket.leaves]
  · rfl

/-- **Each step of the builder is a `LeafStep`.** -/
theorem leafStep_step (b : Builder) (tok : Token) :
    LeafStep b.position tok b.leaves (b.step text tok).leaves := by
  change LeafStep b.position tok b.leaves (b.take text tok).leaves
  cases tok with
  | number t =>
    rcases push_eq_or (.number ⟨b.position, t⟩) b.items with h | ⟨e, op, sign, he, hb, hop, ht, h⟩
    · simp only [take, leaves, h, List.reverse_cons, leaves_append, leaves_number,
        ← List.append_assoc]
      exact .number ..
    · obtain rfl : ⟨b.position, t⟩ = e := Part.number.inj he
      rw [hb] at h
      simp only [take, leaves, h, hb, List.reverse_cons, List.reverse_nil, List.nil_append,
        leaves_number, leaves_operator]
      exact .signed _ _ _ _ hop ht
  | symbol s t =>
    simp only [take, leaves, push_ofSymbol, List.reverse_cons, leaves_append, leaves_ofSymbol,
      ← List.append_assoc]
    exact .symbol ..
  | opening => rw [take, leaves_openBracket]; exact .other _ _ (by simp) (by simp)
  | closing => rw [take, leaves_closeBracket]; exact .other _ _ (by simp) (by simp)
  | comma => rw [take, leaves_separate]; exact .other _ _ (by simp) (by simp)
  | blank => exact .other _ _ (by simp) (by simp)
  | unknown => exact .other _ _ (by simp) (by simp)
  | repeatedPoint => exact .other _ _ (by simp) (by simp)
  | uncalled => exact .other _ _ (by simp) (by simp)

end Builder

/-- A symbol is registered and spelled, and a number is plain, but for a sign in front of it. -/
def Leaf.Genuine (r : Registry) : Leaf → Prop
  | number e => Numeral.isPlain e.text = true ∨
      ∃ t, e.text = '-' :: t ∧ Numeral.isPlain t = true
  | symbol s e => s ∈ r.symbols ∧ Text.lower e.text = s.key

namespace Builder

variable {text : Text} {r : Registry}

theorem genuine_leafStep {position : Nat} {tok : Token} {ls ls' : List Leaf} {following : Text}
    (h : LeafStep position tok ls ls') (htok : tok.Fits r following)
    (hls : ∀ l ∈ ls, l.Genuine r) : ∀ l ∈ ls', l.Genuine r := by
  intro l hl
  cases h with
  | number t =>
    rcases List.mem_append.1 hl with hl | hl
    · exact hls l hl
    · obtain rfl := List.mem_singleton.1 hl
      exact .inl htok
  | signed t ls op sign hop =>
    rcases List.mem_append.1 hl with hl | hl
    · exact hls l (List.mem_append_left _ hl)
    · obtain rfl := List.mem_singleton.1 hl
      obtain ⟨-, hsign⟩ := hls _ (List.mem_append_right _ List.mem_cons_self)
      have hkey : (Symbol.operator op).key = ['-'] := by
        simp [Symbol.key, Symbol.literal, hop]
      have htext : sign.text = ['-'] := eq_singleton_of_lower (by decide) (hsign.trans hkey)
      exact .inr ⟨t, by simp [htext], htok⟩
  | symbol s t =>
    rcases List.mem_append.1 hl with hl | hl
    · exact hls l hl
    · obtain rfl := List.mem_singleton.1 hl
      exact ⟨htok.1, htok.2.1⟩
  | other => exact hls l hl

/-- **The leaves of what is built from tokens that fit are genuine.** -/
theorem genuine_leaves_run {after : Text} {ts : List Token} (b : Builder)
    (hts : InContext (Token.Fits r) after ts) (hb : ∀ l ∈ b.leaves, l.Genuine r) :
    ∀ l ∈ (b.run text ts).leaves, l.Genuine r := by
  induction ts generalizing b with
  | nil => exact hb
  | cons tok ts ih =>
    rw [run_cons]
    exact ih _ hts.2 (genuine_leafStep (leafStep_step b tok) hts.1 hb)

end Builder

/-- The leaves of a formula are what the builder has put together. -/
theorem leaves_parse (r : Registry) (text : Text) :
    leaves (parse r text).items = (Builder.empty.run text (tokens r text)).leaves :=
  Builder.leaves_finish _

/-- **The leaves of a formula are genuine.** -/
theorem genuine_leaves_parse (r : Registry) (text : Text) :
    ∀ l ∈ leaves (parse r text).items, l.Genuine r := by
  have hempty : ∀ l ∈ Builder.empty.leaves, l.Genuine r := by
    intro l hl
    cases hl
  rw [leaves_parse]
  exact Builder.genuine_leaves_run _ (fits_tokens r text) hempty

end Formula

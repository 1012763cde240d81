import Formula.Proofs.Part.Progress
import Formula.Proofs.Part.Shift
import Formula.Proofs.Tiling
import Formula.Proofs.Token.Enclosed

/-!
# Reading is compositional

What is inside a group or a slot is what the text inside it is read as on its own, moved to its
place.  This holds of every text, whatever is wrong with it, and of groups and calls that the end of
the formula cuts off.

While the builder takes in tokens, each open parenthesis has a builder of its own beside it that has
read only the tokens since the innermost list of that parenthesis began (`Reads`).  When the list
ends, the builder beside it is at its end as well, so that the list is what these tokens give alone
(`ReadAlone`), and they are the tokens of the text between the two marks.
-/

namespace Formula

theorem Token.length_text_of_isMark {tok : Token} (h : tok.isMark = true) : tok.text.length = 1 := by
  obtain ⟨c, hc, -⟩ := Token.exists_of_isMark h
  simp [hc]

/-- The tokens `mid` are read after a parenthesis or comma `d` that ends at `start`. -/
def Opens (ts mid : List Token) (d : Token) (start : Nat) : Prop :=
  d.isMark = true ∧
    ∃ before, ts = before ++ d :: mid ∧ (before.flatMap Token.text).length + 1 = start

/-- A list, or its slot, ends before `after`: with a closing parenthesis, a comma, or the formula. -/
def EndsList (after : List Token) : Prop :=
  ∀ tok ∈ after.head?, tok = .closing ∨ tok = .comma

/-- A sibling list, written at `e`, is what the tokens in it give alone.  These tokens are read
before `after`. -/
def ReadAlone (ts after : List Token) (e : Excerpt) (items : List Part) : Prop :=
  ∃ d mid, Opens ts (mid ++ after) d e.start ∧ e.text = mid.flatMap Token.text ∧
    items = shiftAll e.start ((Builder.empty.run e.text mid).finish e.text)

/-- The list of a slot is what its tokens give alone. -/
def Slot.Composed (ts : List Token) (s : Slot) : Prop :=
  ∃ tok more, (tok = .closing ∨ tok = .comma) ∧ ReadAlone ts (tok :: more) s.excerpt s.items

/-- The lists in a part are what their tokens give alone, and its parentheses are closed. -/
def Part.Composed (ts : List Token) : Part → Prop
  | .group e items => ∃ inner more, e.text = '(' :: inner ++ [')'] ∧
      ReadAlone ts (.closing :: more) ⟨e.start + 1, inner⟩ items
  | .call _ _ slots => ∀ s ∈ slots, s.Composed ts
  | _ => True

variable {text : Text} {ts mid : List Token} {d tok : Token} {n : Nat}

theorem Opens.append (h : Opens ts mid d n) (more : List Token) :
    Opens (ts ++ more) (mid ++ more) d n := by
  obtain ⟨hd, before, rfl, hstart⟩ := h
  exact ⟨hd, before, by simp, hstart⟩

theorem ReadAlone.append {after : List Token} {e : Excerpt} {items : List Part}
    (h : ReadAlone ts after e items) (more : List Token) :
    ReadAlone (ts ++ more) (after ++ more) e items := by
  obtain ⟨d, mid, hopens, htext, hitems⟩ := h
  refine ⟨d, mid, ?_, htext, hitems⟩
  rw [← List.append_assoc]
  exact hopens.append more

theorem Slot.Composed.append {s : Slot} (h : s.Composed ts) (more : List Token) :
    s.Composed (ts ++ more) := by
  obtain ⟨tok, rest, htok, h⟩ := h
  exact ⟨tok, rest ++ more, htok, h.append more⟩

theorem Part.Composed.append {p : Part} (h : p.Composed ts) (more : List Token) :
    p.Composed (ts ++ more) := by
  cases p with
  | group e items =>
    obtain ⟨inner, rest, htext, h⟩ := h
    exact ⟨inner, rest ++ more, htext, h.append more⟩
  | call f e slots => exact fun s hs => (h s hs).append more
  | number | operator | constant | free => trivial

/-- A symbol has no lists in it. -/
theorem composed_ofSymbol (s : Symbol) (e : Excerpt) : (Part.ofSymbol s e).Composed ts := by
  cases s with
  | function f =>
    intro s hs
    cases hs
  | operator | constant | free => trivial

/-- **A list that is what its tokens give is what its text is read as**, moved to its place. -/
theorem items_eq_of_readAlone {r : Registry} {after : List Token} {e : Excerpt} {items : List Part}
    (h : ReadAlone (tokens r text) after e items) (hafter : EndsList after) :
    items = shiftAll e.start (parse r e.text).items := by
  obtain ⟨d, mid, ⟨hd, before, hsplit, -⟩, htext, rfl⟩ := h
  have htokens : tokens r e.text = mid := by
    rw [htext]
    exact eq_tokens_between hd hsplit hafter
  rw [← htokens]
  rfl

/-- The position where the innermost list of an open parenthesis starts: its current slot, if it
begins the slots of a call. -/
def Frame.inner (f : Frame) : Nat :=
  match f.bracket with
  | .group => f.position + 1
  | .call _ _ _ slotStart => slotStart

/-- The complete slots of an open parenthesis. -/
def Bracket.slots : Bracket → List Slot
  | group => []
  | call _ _ slots _ => slots

namespace Builder

variable {b : Builder} {f : Frame} {outer : List Frame}

/-- A builder that has read only the tokens since the innermost list of `f` began stands beside the
one that has read all tokens. -/
def Reads (text : Text) (ts : List Token) (b : Builder) (f : Frame) (outer : List Frame) : Prop :=
  ∃ d mid, Opens ts mid d f.inner ∧ (f.bracket = .group → d = .opening) ∧
    Within f.inner (f :: outer) b (empty.run (text.drop f.inner) mid)

/-- Both builders take in a token that does not end the list. -/
theorem Reads.step (h : Reads text ts b f outer) (hclosing : tok = .closing → f :: outer ≠ b.frames)
    (hcomma : tok = .comma → f :: outer = b.frames → f.bracket = .group) :
    Reads text (ts ++ [tok]) (b.step text tok) f outer := by
  obtain ⟨d, mid, hopens, hgroup, hwithin⟩ := h
  refine ⟨d, mid ++ [tok], hopens.append [tok], hgroup, ?_⟩
  have hframes : (empty.run (text.drop f.inner) mid).frames = [] → f :: outer = b.frames := by
    intro hsub
    rw [hwithin.frames, hsub]
    rfl
  rw [run_append, run_singleton]
  refine hwithin.step tok ?_ ?_
  · intro htok hsub
    exact hclosing htok (hframes hsub)
  · intro htok hsub g hg
    obtain rfl : f = g := by simpa using hg
    exact hcomma htok (hframes hsub)

/-- A list that begins after a mark has a builder beside it that has read nothing. -/
theorem reads_of_isMark (htok : tok.isMark = true)
    (hposition : b.position = (ts.flatMap Token.text).length)
    (hitems : (b.step text tok).items = []) (hframes : (b.step text tok).frames = f :: outer)
    (hinner : f.inner = b.position + 1) (hgroup : f.bracket = .group → tok = .opening) :
    Reads text (ts ++ [tok]) (b.step text tok) f outer := by
  refine ⟨tok, [], ⟨htok, ts, rfl, by rw [hinner, hposition]⟩, hgroup, ?_⟩
  constructor
  · rw [position_step, Token.length_text_of_isMark htok, hinner]
    rfl
  · exact hitems
  · exact hframes

/-- An opening parenthesis begins a list in front of the open parentheses. -/
theorem exists_frame_opening (text : Text) (b : Builder) :
    ∃ f, (b.step text .opening).items = [] ∧ (b.step text .opening).frames = f :: b.frames ∧
      f.position = b.position ∧ f.inner = b.position + 1 ∧ f.bracket.slots = [] := by
  by_cases h : Ready b.items
  · rw [step_opening h]
    exact ⟨_, rfl, rfl, rfl, rfl, rfl⟩
  · simp only [Ready, ne_eq, not_forall, not_not] at h
    obtain ⟨f, name, before, hitems⟩ := h
    rw [step_opening_call hitems]
    exact ⟨_, rfl, rfl, rfl, rfl, rfl⟩

/-- What is written since a list began. -/
theorem Reads.slice_inner {rest : Text} (h : Reads text ts b f outer)
    (htext : text = ts.flatMap Token.text ++ rest) :
    ∃ d mid, Opens ts mid d f.inner ∧ (f.bracket = .group → d = .opening) ∧
      Within f.inner (f :: outer) b (empty.run (text.drop f.inner) mid) ∧
      b.position = f.inner + (mid.flatMap Token.text).length ∧
      text.drop f.inner = mid.flatMap Token.text ++ rest := by
  obtain ⟨d, mid, hopens, hgroup, hwithin⟩ := h
  refine ⟨d, mid, hopens, hgroup, hwithin, ?_, ?_⟩
  · rw [hwithin.position, position_run]
    exact congrArg _ (Nat.zero_add _)
  · obtain ⟨hd, before, rfl, hlength⟩ := hopens
    have hmark := Token.length_text_of_isMark hd
    have hstart : f.inner = ((before ++ [d]).flatMap Token.text).length := by
      rw [List.flatMap_append, List.length_append, List.flatMap_singleton, hmark, hlength]
    have hsplit : text = (before ++ [d]).flatMap Token.text ++ (mid.flatMap Token.text ++ rest) := by
      rw [htext]
      simp
    rw [hsplit, hstart, List.drop_left]

/-- A closing parenthesis takes the innermost open one away, if there is one. -/
theorem frames_closing (text : Text) (b : Builder) :
    (b.step text .closing).frames = b.frames.tail := by
  simp only [Builder.step, take, closeBracket]
  split
  · rename_i hnil
    simp [report, hnil]
  · rename_i hcons
    simp [hcons]

/-- **The builder beside an open parenthesis knows its list**, with the parentheses inside it closed
at the end. -/
theorem Reads.readAlone {rest : Text} {inner : List Frame} (h : Reads text ts b f outer)
    (hframes : b.frames = inner ++ f :: outer) (htext : text = ts.flatMap Token.text ++ rest)
    (after : List Token) :
    ReadAlone (ts ++ after) after ⟨f.inner, text.slice f.inner b.position⟩
      (closeAll text b.position b.items inner).reverse := by
  obtain ⟨d, mid, hopens, -, hwithin, hposition, hdrop⟩ := h.slice_inner htext
  have hslice : text.slice f.inner b.position = mid.flatMap Token.text := by
    rw [Text.slice, hdrop, hposition, Nat.add_sub_cancel_left, List.take_left]
  refine ⟨d, mid, hopens.append after, hslice, ?_⟩
  -- the builder beside has read the whole text up to here, and it looks at no more of it
  have hrun : empty.run (text.slice f.inner b.position) mid = empty.run (text.drop f.inner) mid := by
    refine run_take ?_
    rw [hposition, Nat.add_sub_cancel_left]
    exact Nat.le_of_eq (Nat.zero_add _)
  rw [hrun]
  generalize empty.run (text.drop f.inner) mid = sub at hwithin
  have hinner : inner = sub.frames.map (Frame.shift f.inner) :=
    List.append_cancel_right (hframes.symm.trans hwithin.frames)
  have hfinish : sub.finish (text.slice f.inner b.position) = sub.finish (text.drop f.inner) := by
    refine finish_take ?_
    rw [hwithin.position, Nat.add_sub_cancel_left]
  rw [hfinish, hinner, hwithin.items, hwithin.position, closeAll_shift, ← shiftAll_reverse, finish]

/-- What is written since a group began: its parenthesis and the text inside it. -/
theorem Reads.slice_group {rest : Text} (h : Reads text ts b f outer) (hgroup : f.bracket = .group)
    (htext : text = ts.flatMap Token.text ++ rest) (k : Nat) :
    text.slice f.position (b.position + k) =
      '(' :: text.slice f.inner b.position ++ rest.take k := by
  obtain ⟨d, mid, ⟨-, before, rfl, hlength⟩, hd, -, hposition, hdrop⟩ := h.slice_inner htext
  obtain rfl := hd hgroup
  have hinner : f.inner = f.position + 1 := by rw [Frame.inner, hgroup]
  have hbefore : f.position = (before.flatMap Token.text).length := by omega
  have hstart : text.drop f.position = '(' :: mid.flatMap Token.text ++ rest := by
    rw [htext, hbefore]
    simp [Token.text]
  have hlast : b.position + k - f.position = (mid.flatMap Token.text).length + k + 1 := by omega
  rw [Text.slice, Text.slice, hstart, hdrop, hlast, hposition, Nat.add_sub_cancel_left]
  simp [List.take_append]

/-- Each open parenthesis has a builder beside it, and the lists that are complete are what their
tokens give alone. -/
structure Scoped (text : Text) (ts : List Token) (b : Builder) : Prop where
  /-- All tokens have been taken in. -/
  position : b.position = (ts.flatMap Token.text).length
  /-- The builders beside open parentheses. -/
  reads : ∀ f outer, f :: outer <:+ b.frames → Reads text ts b f outer
  /-- Complete slots of open parentheses. -/
  slots : ∀ f ∈ b.frames, ∀ s ∈ f.bracket.slots, s.Composed ts
  /-- Complete parts. -/
  parts : ∀ p ∈ b.parts, p.Composed ts

namespace Scoped

variable {rest : Text}

theorem empty (text : Text) : Scoped text [] .empty where
  position := rfl
  reads f outer h := by simp [Builder.empty] at h
  slots f hf := by simp [Builder.empty] at hf
  parts p hp := by simp [Builder.empty, mem_parts, walkAll] at hp

theorem position_next (h : Scoped text ts b) (tok : Token) :
    (b.step text tok).position = ((ts ++ [tok]).flatMap Token.text).length := by
  rw [position_step, h.position, List.flatMap_append, List.length_append, List.flatMap_singleton]

/-- Parts that are added by a token other than a closing parenthesis have no lists in them. -/
theorem parts_step (h : Scoped text ts b) (hclosing : tok ≠ .closing) :
    ∀ p ∈ (b.step text tok).parts, p.Composed (ts ++ [tok]) := by
  intro p hp
  rcases mem_parts_step hp with hp | ⟨e, rfl⟩ | ⟨s, -, e, -, rfl⟩ | ⟨htok, -⟩
  · exact (h.parts p hp).append [tok]
  · trivial
  · exact composed_ofSymbol s e
  · exact absurd htok hclosing

/-- A token that is no parenthesis and no comma. -/
theorem other (h : Scoped text ts b) (htok : tok.isMark = false) :
    Scoped text (ts ++ [tok]) (b.step text tok) := by
  have hframes : (b.step text tok).frames = b.frames := by
    cases tok with
    | opening | closing | comma => cases htok
    | _ => rfl
  have hclosing : tok ≠ .closing := by
    rintro rfl
    cases htok
  refine ⟨h.position_next tok, ?_, ?_, h.parts_step hclosing⟩
  · intro f outer hsuffix
    rw [hframes] at hsuffix
    refine (h.reads f outer hsuffix).step (absurd · hclosing) ?_
    rintro rfl
    cases htok
  · intro f hf s hs
    rw [hframes] at hf
    exact (h.slots f hf s hs).append [tok]

theorem opening (h : Scoped text ts b) :
    Scoped text (ts ++ [Token.opening]) (b.step text .opening) := by
  obtain ⟨f, hitems, hframes, hposition, hinner, hslots⟩ := exists_frame_opening text b
  refine ⟨h.position_next _, ?_, ?_, h.parts_step (by simp)⟩
  · intro g outer hsuffix
    rw [hframes, List.suffix_cons_iff] at hsuffix
    rcases hsuffix with heq | hsuffix
    · rw [← heq] at hframes
      obtain rfl : g = f := (List.cons.inj heq).1
      exact reads_of_isMark rfl h.position hitems hframes hinner fun _ => rfl
    · exact (h.reads g outer hsuffix).step (by simp) (by simp)
  · intro g hg s hs
    rw [hframes] at hg
    rcases List.mem_cons.1 hg with rfl | hg
    · rw [hslots] at hs
      cases hs
    · exact (h.slots g hg s hs).append _

/-- The innermost list is what its tokens give alone. -/
theorem readAlone {f : Frame} {outer : List Frame} (h : Scoped text ts b)
    (hframes : b.frames = f :: outer) (htext : text = ts.flatMap Token.text ++ rest)
    (after : List Token) :
    ReadAlone (ts ++ after) after ⟨f.inner, text.slice f.inner b.position⟩ b.items.reverse := by
  have hreads : Reads text ts b f outer := h.reads f outer (hframes ▸ List.suffix_rfl)
  have hnil : b.frames = [] ++ f :: outer := hframes
  exact hreads.readAlone hnil htext after

theorem comma (h : Scoped text ts b) (htext : text = ts.flatMap Token.text ++ rest) :
    Scoped text (ts ++ [Token.comma]) (b.step text .comma) := by
  by_cases hgroup : ∀ f ∈ b.frames.head?, f.bracket = .group
  · have hframes : (b.step text .comma).frames = b.frames := by rw [step_comma_misplaced hgroup]
    refine ⟨h.position_next _, ?_, ?_, h.parts_step (by simp)⟩
    · intro f outer hsuffix
      rw [hframes] at hsuffix
      refine (h.reads f outer hsuffix).step (by simp) ?_
      intro _ heq
      exact hgroup f (by simp [← heq])
    · intro f hf s hs
      rw [hframes] at hf
      exact (h.slots f hf s hs).append _
  · obtain ⟨g, name, slots, slotStart, opened, before, outer, hframes⟩ :
        ∃ g name slots slotStart opened before outer,
          b.frames = ⟨.call g name slots slotStart, opened, before⟩ :: outer := by
      match b.frames, hgroup with
      | [], hgroup => simp at hgroup
      | ⟨.group, _, _⟩ :: _, hgroup => simp at hgroup
      | ⟨.call _ _ _ _, _, _⟩ :: _, _ => exact ⟨_, _, _, _, _, _, _, rfl⟩
    have hstep : b.step text .comma = _ := step_comma hframes
    have hold : ∀ s ∈ slots, s.Composed ts :=
      h.slots ⟨.call g name slots slotStart, opened, before⟩ (hframes ▸ List.mem_cons_self)
    refine ⟨h.position_next _, ?_, ?_, h.parts_step (by simp)⟩
    · intro f more hsuffix
      rw [hstep, List.suffix_cons_iff] at hsuffix
      rcases hsuffix with heq | hsuffix
      · have hframe := (List.cons.inj heq).1
        refine reads_of_isMark rfl h.position (by rw [hstep]) (by rw [hstep, heq]) ?_ ?_
        · rw [hframe, Frame.inner]
        · intro hbracket
          rw [hframe] at hbracket
          cases hbracket
      · have hmem : f :: more <:+ b.frames := hframes ▸ hsuffix.trans (List.suffix_cons _ _)
        refine (h.reads f more hmem).step (by simp) ?_
        intro _ heq
        have hlength := hsuffix.length_le
        rw [heq, hframes, List.length_cons] at hlength
        omega
    · intro f hf s hs
      rw [hstep] at hf
      rcases List.mem_cons.1 hf with rfl | hf
      · rcases List.mem_cons.1 hs with rfl | hs
        · exact ⟨.comma, [], .inr rfl, h.readAlone hframes htext [.comma]⟩
        · exact (hold s hs).append _
      · exact (h.slots f (hframes ▸ List.mem_cons_of_mem _ hf) s hs).append _

/-- What a closing parenthesis closes is what the tokens in it give alone. -/
theorem composed_of_close {f : Frame} {outer : List Frame} {p : Part} (h : Scoped text ts b)
    (hframes : b.frames = f :: outer) (htext : text = ts.flatMap Token.text ++ ')' :: rest)
    (hclose : close text f b.items b.position (b.position + 1) = p :: f.before) :
    p.Composed (ts ++ [Token.closing]) := by
  have halone := h.readAlone hframes htext [.closing]
  have hreads : Reads text ts b f outer := h.reads f outer (hframes ▸ List.suffix_rfl)
  obtain ⟨bracket, opened, before⟩ := f
  cases bracket with
  | group =>
    obtain rfl := (List.cons.inj hclose).1
    exact ⟨_, [], hreads.slice_group rfl htext 1, halone⟩
  | call g name slots slotStart =>
    obtain rfl := (List.cons.inj hclose).1
    intro s hs
    rcases List.mem_cons.1 (List.mem_reverse.1 hs) with rfl | hs
    · exact ⟨.closing, [], .inl rfl, halone⟩
    · have hold : ∀ s ∈ slots, s.Composed ts :=
        h.slots ⟨.call g name slots slotStart, opened, before⟩ (hframes ▸ List.mem_cons_self)
      exact (hold s hs).append _

theorem closing (h : Scoped text ts b) (htext : text = ts.flatMap Token.text ++ ')' :: rest) :
    Scoped text (ts ++ [Token.closing]) (b.step text .closing) := by
  have hframes := frames_closing text b
  refine ⟨h.position_next _, ?_, ?_, ?_⟩
  · intro f outer hsuffix
    rw [hframes] at hsuffix
    refine (h.reads f outer (hsuffix.trans (List.tail_suffix _))).step ?_ (by simp)
    intro _ heq
    have hlength := hsuffix.length_le
    rw [← heq, List.tail_cons, List.length_cons] at hlength
    omega
  · intro f hf s hs
    rw [hframes] at hf
    exact (h.slots f (List.mem_of_mem_tail hf) s hs).append _
  · intro p hp
    rcases mem_parts_step hp with hp | ⟨e, rfl⟩ | ⟨s, -, e, -, rfl⟩ | ⟨-, f, outer, hcons, hclose⟩
    · exact (h.parts p hp).append _
    · trivial
    · exact composed_ofSymbol s e
    · exact h.composed_of_close hcons htext hclose

/-- **The builder keeps the invariant.** -/
theorem step (h : Scoped text ts b)
    (htext : text = ts.flatMap Token.text ++ (tok.text ++ rest)) :
    Scoped text (ts ++ [tok]) (b.step text tok) := by
  by_cases htok : tok.isMark = true
  · cases tok with
    | opening => exact h.opening
    | closing => exact h.closing htext
    | comma => exact h.comma htext
    | _ => cases htok
  · exact h.other (by simpa using htok)

end Scoped

theorem scoped_run {rest : Text} {more : List Token} (h : Scoped text ts b)
    (htext : text = (ts ++ more).flatMap Token.text ++ rest) :
    Scoped text (ts ++ more) (b.run text more) := by
  induction more generalizing ts b with
  | nil =>
    rw [List.append_nil]
    exact h
  | cons tok more ih =>
    have hsplit : ts ++ tok :: more = (ts ++ [tok]) ++ more := by simp
    rw [hsplit] at htext ⊢
    have hsteptext : text = ts.flatMap Token.text ++
        (tok.text ++ (more.flatMap Token.text ++ rest)) := by
      rw [htext]
      simp [List.append_assoc]
    have hstep : Scoped text (ts ++ [tok]) (b.step text tok) := h.step hsteptext
    rw [run_cons]
    exact ih hstep htext

/-- The positions of the open parentheses, the innermost one first. -/
def opened (b : Builder) : List Nat := b.frames.map Frame.position

/-- Open parentheses stand one after another, and those of groups that are closed are others. -/
structure Located (b : Builder) : Prop where
  /-- Those further out stand further to the left. -/
  ordered : b.opened.Pairwise fun m n => n < m
  /-- All of them have been taken in. -/
  below : ∀ n ∈ b.opened, n < b.position
  /-- The parentheses of groups have been taken in and are not open any more. -/
  groups : ∀ e items, .group e items ∈ b.parts → e.start < b.position ∧ e.start ∉ b.opened

theorem opened_opening (text : Text) (b : Builder) :
    (b.step text .opening).opened = b.position :: b.opened := by
  obtain ⟨f, -, hframes, hposition, -⟩ := exists_frame_opening text b
  rw [opened, hframes, List.map_cons, hposition, opened]

theorem opened_closing (text : Text) (b : Builder) :
    (b.step text .closing).opened = b.opened.tail := by
  rw [opened, frames_closing, opened, List.map_tail]

theorem opened_step (htok : tok ≠ .opening) (htok' : tok ≠ .closing) :
    (b.step text tok).opened = b.opened := by
  cases tok with
  | opening => exact absurd rfl htok
  | closing => exact absurd rfl htok'
  | comma =>
    simp only [opened, Builder.step, take, separate]
    split
    · rename_i hframes
      simp [hframes]
    · rfl
  | _ => rfl

namespace Located

/-- No parenthesis is opened, and the groups that are new take open ones away. -/
theorem of_sublist {b' : Builder} (h : Located b) (hopened : b'.opened.Sublist b.opened)
    (hposition : b.position ≤ b'.position)
    (hgroups : ∀ e items, .group e items ∈ b'.parts →
      .group e items ∈ b.parts ∨ e.start ∈ b.opened ∧ e.start ∉ b'.opened) : Located b' where
  ordered := h.ordered.sublist hopened
  below n hn := Nat.lt_of_lt_of_le (h.below n (hopened.subset hn)) hposition
  groups e items hgroup := by
    rcases hgroups e items hgroup with hgroup | ⟨hmem, hnot⟩
    · obtain ⟨hstart, hnot⟩ := h.groups e items hgroup
      exact ⟨Nat.lt_of_lt_of_le hstart hposition, fun hmem => hnot (hopened.subset hmem)⟩
    · exact ⟨Nat.lt_of_lt_of_le (h.below _ hmem) hposition, hnot⟩

/-- A group is new only after a closing parenthesis, and it stands where the innermost parenthesis
was open. -/
theorem group_of_step {e : Excerpt} {items : List Part}
    (h : .group e items ∈ (b.step text tok).parts) :
    .group e items ∈ b.parts ∨ tok = .closing ∧ ∃ more, b.opened = e.start :: more := by
  rcases mem_parts_step h with h | ⟨e, heq⟩ | ⟨s, -, e, -, heq⟩ | ⟨htok, f, outer, hframes, hclose⟩
  · exact .inl h
  · cases heq
  · cases s <;> cases heq
  · obtain ⟨bracket, position, before⟩ := f
    cases bracket with
    | group =>
      obtain ⟨rfl, -⟩ := Part.group.inj (List.cons.inj hclose).1
      exact .inr ⟨htok, outer.map Frame.position, by rw [opened, hframes, List.map_cons]⟩
    | call => cases (List.cons.inj hclose).1

theorem opening (h : Located b) : Located (b.step text .opening) := by
  have hlt : b.position < (b.step text .opening).position := Nat.lt_succ_self _
  refine ⟨?_, ?_, ?_⟩
  · rw [opened_opening]
    exact List.pairwise_cons.2 ⟨h.below, h.ordered⟩
  · rw [opened_opening]
    refine List.forall_mem_cons.2 ⟨hlt, ?_⟩
    intro n hn
    exact Nat.lt_trans (h.below n hn) hlt
  · intro e items hgroup
    rcases group_of_step hgroup with hgroup | ⟨htok, -⟩
    · obtain ⟨hstart, hnot⟩ := h.groups e items hgroup
      rw [opened_opening, List.mem_cons, not_or]
      exact ⟨Nat.lt_trans hstart hlt, Nat.ne_of_lt hstart, hnot⟩
    · cases htok

theorem step (h : Located b) (tok : Token) : Located (b.step text tok) := by
  have hposition : b.position ≤ (b.step text tok).position := Nat.le_add_right ..
  by_cases hopening : tok = .opening
  · subst hopening
    exact h.opening
  · by_cases hclosing : tok = .closing
    · subst hclosing
      refine h.of_sublist (opened_closing text b ▸ List.tail_sublist _) hposition ?_
      intro e items hgroup
      rcases group_of_step hgroup with hgroup | ⟨-, more, hmore⟩
      · exact .inl hgroup
      · refine .inr ⟨hmore ▸ List.mem_cons_self, ?_⟩
        have hordered := h.ordered
        rw [hmore] at hordered
        rw [opened_closing, hmore, List.tail_cons]
        intro hmem
        exact Nat.lt_irrefl _ ((List.pairwise_cons.1 hordered).1 _ hmem)
    · have hopened : (b.step text tok).opened = b.opened := opened_step hopening hclosing
      refine h.of_sublist (hopened ▸ List.Sublist.refl _) hposition ?_
      intro e items hgroup
      rcases group_of_step hgroup with hgroup | ⟨htok, -⟩
      · exact .inl hgroup
      · exact absurd htok hclosing

theorem empty : Located .empty where
  ordered := .nil
  below n hn := by cases hn
  groups e items h := by simp [Builder.empty, mem_parts, walkAll] at h

end Located

theorem located_run (h : Located b) (ts : List Token) : Located (b.run text ts) := by
  induction ts generalizing b with
  | nil => exact h
  | cons tok ts ih =>
    rw [run_cons]
    exact ih (h.step tok)

end Builder

/-! ## Groups that are cut off -/

/-- The builder reports no open parenthesis before the end. -/
theorem Builder.not_unmatchedOpening_run {b : Builder} {ts : List Token}
    (h : ∀ e ∈ b.errors, e.cause ≠ .unmatchedOpening) :
    ∀ e ∈ (b.run text ts).errors, e.cause ≠ .unmatchedOpening := by
  induction ts generalizing b with
  | nil => exact h
  | cons tok ts ih =>
    rw [run_cons]
    refine ih ?_
    have hstep : ErrorStep b.position tok b.errors (b.step text tok).errors := errorStep_step b tok
    generalize (b.step text tok).errors = errors at hstep
    cases hstep with
    | other => exact h
    | unknown | repeatedPoint | unmatchedClosing | misplacedComma =>
      intro e he
      rcases List.mem_append.1 he with he | he
      · exact h e he
      · obtain rfl := List.mem_singleton.1 he
        simp [ParseError.unknown]

/-- **The open parentheses that are reported** are those that are open at the end. -/
theorem mem_errors_unmatchedOpening {r : Registry} :
    ⟨.unmatchedOpening, n, 1⟩ ∈ (parse r text).errors ↔
      n ∈ (Builder.empty.run text (tokens r text)).opened := by
  have herrors : ⟨.unmatchedOpening, n, 1⟩ ∉ (Builder.empty.run text (tokens r text)).errors := by
    intro hmem
    refine Builder.not_unmatchedOpening_run ?_ _ hmem rfl
    intro e he
    cases he
  simp only [parse]
  rw [mem_collapse_iff rfl]
  simp only [List.mem_append, Builder.allErrors, herrors, false_or, Builder.unclosed,
    Builder.opened, List.mem_map]
  constructor
  · rintro (⟨f, hf, heq⟩ | hmem)
    · exact ⟨f, hf, (ParseError.mk.inj heq).2.1⟩
    · cases concernsArguments_of_mem_argumentErrors _ hmem
  · rintro ⟨f, hf, rfl⟩
    exact .inl ⟨f, hf, rfl⟩

/-- Whether the end of the formula cuts a group off, whose parenthesis is then reported. -/
def Parse.cutsOff (p : Parse) (e : Excerpt) : Bool :=
  decide (⟨.unmatchedOpening, e.start, 1⟩ ∈ p.errors)

/-- The text inside a group, which is what is written without the parentheses. -/
def Parse.inside (p : Parse) (e : Excerpt) : Text :=
  if p.cutsOff e then e.text.drop 1 else (e.text.drop 1).dropLast

/-! ## Whole formulas -/

/-- A sibling list is what the text `t`, which is written at `start`, is read as on its own: the
parts are the same but for their places, and so are the rows of the outline, with the numbers of
operands and arguments. -/
structure ReadsAs (r : Registry) (t : Text) (start : Nat) (items : List Part) : Prop where
  /-- The parts of the text, moved. -/
  parts : items = shiftAll start (parse r t).items
  /-- The rows of the text, moved. -/
  rows : ∀ depth, rowsOf depth false items =
    (rowsOf depth false (parse r t).items).map (Row.shift start)

theorem ReadAlone.readsAs {r : Registry} {after : List Token} {e : Excerpt} {items : List Part}
    (h : ReadAlone (tokens r text) after e items) (hafter : EndsList after) :
    ReadsAs r e.text e.start items := by
  have hitems := items_eq_of_readAlone h hafter
  refine ⟨hitems, ?_⟩
  intro depth
  rw [hitems, rowsOf_shiftAll]

theorem scoped_tokens (r : Registry) (text : Text) :
    (Builder.empty.run text (tokens r text)).Scoped text (tokens r text) := by
  have htext : text = ([] ++ tokens r text).flatMap Token.text ++ [] := by
    rw [List.nil_append, text_tokens, List.append_nil]
  exact Builder.scoped_run (.empty text) htext

/-- A group of a formula, closed or cut off. -/
theorem readsAs_of_group {r : Registry} {e : Excerpt} {items : List Part}
    (h : .group e items ∈ walkAll (parse r text).items) :
    e.text = '(' :: (parse r text).inside e ++ (if (parse r text).cutsOff e then [] else [')']) ∧
      ReadsAs r ((parse r text).inside e) (e.start + 1) items := by
  have hscoped := scoped_tokens r text
  have htext : text = (tokens r text).flatMap Token.text ++ [] := by
    rw [text_tokens, List.append_nil]
  rcases Builder.mem_walkAll_finish h with hpart | ⟨inner, f, outer, hframes, hclose⟩
  · obtain ⟨-, hnot⟩ := (Builder.located_run .empty _).groups e items hpart
    have hcut : (parse r text).cutsOff e = false := by
      rw [Parse.cutsOff, decide_eq_false_iff_not, mem_errors_unmatchedOpening]
      exact hnot
    obtain ⟨inner, more, hwritten, halone⟩ := hscoped.parts _ hpart
    have hinside : (parse r text).inside e = inner := by
      simp [Parse.inside, hcut, hwritten]
    rw [hinside, hcut]
    exact ⟨hwritten, halone.readsAs (by simp [EndsList])⟩
  · have hsuffix : f :: outer <:+ (Builder.empty.run text (tokens r text)).frames :=
      hframes ▸ List.suffix_append _ _
    have hreads := hscoped.reads f outer hsuffix
    have halone := hreads.readAlone hframes htext []
    have hopen : f.position ∈ (Builder.empty.run text (tokens r text)).opened :=
      List.mem_map_of_mem (hsuffix.subset List.mem_cons_self)
    obtain ⟨bracket, opened, before⟩ := f
    cases bracket with
    | call => cases (List.cons.inj hclose).1
    | group =>
      obtain ⟨rfl, rfl⟩ := Part.group.inj (List.cons.inj hclose).1
      have hwritten := hreads.slice_group rfl htext 0
      rw [Nat.add_zero, List.take_zero, List.append_nil] at hwritten
      rw [List.append_nil] at halone
      have hcut : (parse r text).cutsOff ⟨opened, text.slice opened
          (Builder.empty.run text (tokens r text)).position⟩ = true :=
        decide_eq_true (mem_errors_unmatchedOpening.2 hopen)
      rw [Parse.inside, hcut, if_pos rfl, if_pos rfl, List.append_nil, hwritten, List.drop_one,
        List.tail_cons]
      exact ⟨rfl, halone.readsAs (by simp [EndsList])⟩

/-- A slot of a call, closed or cut off. -/
theorem readsAs_of_slot {r : Registry} {f : Operation} {name : Excerpt} {slots : List Slot}
    (h : .call f name slots ∈ walkAll (parse r text).items) :
    ∀ s ∈ slots, ReadsAs r s.excerpt.text s.excerpt.start s.items := by
  have hscoped := scoped_tokens r text
  have htext : text = (tokens r text).flatMap Token.text ++ [] := by
    rw [text_tokens, List.append_nil]
  have hcomposed : ∀ s : Slot, s.Composed (tokens r text) →
      ReadsAs r s.excerpt.text s.excerpt.start s.items := by
    rintro s ⟨tok, more, htok, halone⟩
    exact halone.readsAs (by simpa [EndsList] using htok)
  rcases Builder.mem_walkAll_finish h with hpart | ⟨inner, g, outer, hframes, hclose⟩
  · exact fun s hs => hcomposed s (hscoped.parts _ hpart s hs)
  · have hsuffix : g :: outer <:+ (Builder.empty.run text (tokens r text)).frames :=
      hframes ▸ List.suffix_append _ _
    have halone := (hscoped.reads g outer hsuffix).readAlone hframes htext []
    have hslots := hscoped.slots g (hsuffix.subset List.mem_cons_self)
    obtain ⟨bracket, opened, before⟩ := g
    cases bracket with
    | group => cases (List.cons.inj hclose).1
    | call g name slots slotStart =>
      obtain ⟨rfl, rfl, rfl⟩ := Part.call.inj (List.cons.inj hclose).1
      intro s hs
      rcases List.mem_cons.1 (List.mem_reverse.1 hs) with rfl | hs
      · rw [List.append_nil] at halone
        exact halone.readsAs (by simp [EndsList])
      · exact hcomposed s (hslots s hs)

/-- **Reading is compositional.**  The parts of a group are those of the text inside it, read on its
own with the same symbols and moved to its place, whether the group is closed or the end of the
formula cuts it off.  The same is true of the slots of a call, for whatever is written in them. -/
theorem parse_inside (r : Registry) (text : Text) :
    (∀ e items, .group e items ∈ walkAll (parse r text).items →
      e.text = '(' :: (parse r text).inside e ++ (if (parse r text).cutsOff e then [] else [')']) ∧
      ReadsAs r ((parse r text).inside e) (e.start + 1) items) ∧
    ∀ f name slots, .call f name slots ∈ walkAll (parse r text).items →
      ∀ s ∈ slots, ReadsAs r s.excerpt.text s.excerpt.start s.items := by
  constructor
  · intro e items h
    exact readsAs_of_group h
  · intro f name slots h
    exact readsAs_of_slot h

/-- A group that is cut off, in a call that is cut off. -/
theorem parse_inside_log :
    ∃ e items, .group e items ∈ walkAll (parse .standard "log(2, (-3x".toList).items ∧
      e = ⟨7, "(-3x".toList⟩ ∧ ReadsAs .standard "-3x".toList 8 items := by
  have hgroup : ∃ items, .group ⟨7, "(-3x".toList⟩ items ∈
      walkAll (parse .standard "log(2, (-3x".toList).items := by
    have hexcerpts : ((walkAll (parse .standard "log(2, (-3x".toList).items).filter
        Part.isGroup).map Part.excerpt = [⟨7, "(-3x".toList⟩] := by decide +kernel
    obtain ⟨p, hp, hexcerpt⟩ := List.map_eq_singleton_iff.1 hexcerpts
    have hmem : p ∈ [p] := List.mem_cons_self
    rw [← hp, List.mem_filter] at hmem
    cases p with
    | group e items =>
      obtain rfl : e = _ := hexcerpt
      exact ⟨items, hmem.1⟩
    | _ => cases hmem.2
  obtain ⟨items, hmem⟩ := hgroup
  have hinside : (parse .standard "log(2, (-3x".toList).inside ⟨7, "(-3x".toList⟩ =
      "-3x".toList := by decide +kernel
  have h := ((parse_inside .standard "log(2, (-3x".toList).1 _ _ hmem).2
  rw [hinside] at h
  exact ⟨_, _, hmem, rfl, h⟩

end Formula

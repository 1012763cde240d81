import Formula.Bindings
import Mathlib.Data.List.Induction
import Mathlib.Data.List.Nodup
import Mathlib.Tactic.Common
import Mathlib.Util.Superscript

/-!
# Lists of pairs and the maps made of them

In a list of pairs the first pair of a name counts, in a map that is made of the list the last one,
be the map sorted or hashed.  As long as no name occurs twice this is the same, and the order of the
pairs does not matter either, so a list, the sorted bindings and a hash map give every name the same
value.
-/

namespace Formula

section Lists

variable {name : Text} {value : Float} {l l' : List (Text × Float)}

theorem firstValue?_eq_none_iff : firstValue? name l = none ↔ name ∉ l.map Prod.fst := by
  induction l with
  | nil => simp [firstValue?]
  | cons e l ih =>
    by_cases he : e.1 = name
    · simp [firstValue?, he]
    · rw [firstValue?, if_neg he, ih, List.map_cons, List.mem_cons, not_or]
      exact (and_iff_right (Ne.symm he)).symm

theorem mem_of_firstValue? (h : firstValue? name l = some value) : (name, value) ∈ l := by
  induction l with
  | nil => cases h
  | cons e l ih =>
    by_cases he : e.1 = name
    · rw [firstValue?, if_pos he] at h
      obtain rfl := Option.some.inj h
      exact List.mem_cons.2 (.inl (by rw [← he]))
    · rw [firstValue?, if_neg he] at h
      exact List.mem_cons_of_mem e (ih h)

/-- **The value of a name** in a list without repeated names. -/
theorem firstValue?_eq_some_iff (hl : (l.map Prod.fst).Nodup) :
    firstValue? name l = some value ↔ (name, value) ∈ l := by
  refine ⟨mem_of_firstValue?, fun hmem => ?_⟩
  have hname : firstValue? name l ≠ none := fun hnone =>
    firstValue?_eq_none_iff.1 hnone (List.mem_map_of_mem hmem)
  obtain ⟨other, hother⟩ := Option.ne_none_iff_exists'.1 hname
  have hsame : (name, other) = (name, value) :=
    List.inj_on_of_nodup_map hl (mem_of_firstValue? hother) hmem rfl
  rw [hother, (Prod.mk.inj hsame).2]

/-- **The order of the pairs does not matter** if no name occurs twice. -/
theorem firstValue?_perm (hl : (l.map Prod.fst).Nodup) (h : l.Perm l') (name : Text) :
    firstValue? name l = firstValue? name l' := by
  have hl' : (l'.map Prod.fst).Nodup := (h.map Prod.fst).nodup_iff.1 hl
  ext value
  rw [firstValue?_eq_some_iff hl, firstValue?_eq_some_iff hl', h.mem_iff]

/-- In a hash map that is made of a list, the last of several pairs of a name counts. -/
theorem getElem?_hashMap (l : List (Text × Float)) (name : Text) :
    (Std.HashMap.ofList l)[name]? = firstValue? name l.reverse := by
  rw [Std.HashMap.ofList_eq_insertMany_empty]
  induction l using List.reverseRecOn with
  | nil =>
    rw [Std.HashMap.insertMany_nil, Std.HashMap.getElem?_empty, List.reverse_nil, firstValue?]
  | append_singleton l e ih =>
    rw [Std.HashMap.insertMany_append, Std.HashMap.insertMany_list_singleton,
      Std.HashMap.getElem?_insert, ih, List.reverse_append, List.reverse_singleton,
      List.singleton_append, firstValue?]
    exact if_congr beq_iff_eq rfl rfl

end Lists

namespace Bindings

/-- **Of several pairs of a name the last one counts.** -/
theorem get?_ofList (l : List (Text × Float)) (name : Text) :
    (ofList l).get? name = firstValue? name l.reverse := by
  induction l using List.reverseRecOn with
  | nil => rfl
  | append_singleton l e ih =>
    have hlast : ofList (l ++ [e]) = (ofList l).insert e.1 e.2 := by
      rw [ofList, List.foldl_append]
      rfl
    rw [hlast, get?_insert, ih, List.reverse_append, List.reverse_singleton, List.singleton_append]
    rfl

/-- A value is put at the end of a list in which all names precede its name. -/
theorem insertEntry_of_precedes {name : Text} {l : List (Text × Float)} (value : Float)
    (h : ∀ e ∈ l, e.1.precedes name = true) : insertEntry name value l = l ++ [(name, value)] := by
  induction l with
  | nil => rfl
  | cons e l ih =>
    obtain ⟨he, hl⟩ := List.forall_mem_cons.1 h
    rw [insertEntry, if_pos he, ih hl, List.cons_append]

theorem entries_foldl_insert {b : Bindings} {l : List (Text × Float)}
    (h : (b.entries ++ l).Pairwise fun a b => a.1.precedes b.1 = true) :
    (l.foldl (fun b e => b.insert e.1 e.2) b).entries = b.entries ++ l := by
  induction l generalizing b with
  | nil => simp
  | cons e l ih =>
    have hbefore : ∀ a ∈ b.entries, a.1.precedes e.1 = true := fun a ha =>
      (List.pairwise_append.1 h).2.2 a ha e List.mem_cons_self
    have hnext : (b.insert e.1 e.2).entries = b.entries ++ [e] :=
      insertEntry_of_precedes e.2 hbefore
    rw [List.foldl_cons, ih (by rw [hnext]; simpa using h), hnext, List.append_assoc,
      List.singleton_append]

/-- Bindings are made of their own entries. -/
theorem ofList_entries (b : Bindings) : ofList b.entries = b := by
  obtain ⟨entries, hsorted⟩ := b
  have h : (ofList entries).entries = entries := entries_foldl_insert (b := empty) hsorted
  cases hb : ofList entries with
  | mk entries' hsorted' =>
    rw [hb] at h
    subst h
    rfl

end Bindings

end Formula

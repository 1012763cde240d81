import Mathlib.Data.List.Range
import Mathlib.Data.Nat.Nth
import Formula.Compile

/-!
# Positions of parameters

Declarations get their positions by a search: each one that claims no position takes the lowest one
that is neither claimed nor below the one found last.  What is found in this way can be said without
a search: the declaration that comes after `k` others without a claim has the position below which
`k` positions are unclaimed (`getElem?_assignPositions`).

No two positions are the same, unless they are claimed.  If all claims are below the number of
declarations, counting shows that no position is left out: below that number there are as many
unclaimed positions as there are declarations without a claim.
-/

namespace Formula

section Search

variable (claimed : List Nat)

theorem infinite_unclaimed : (Set.ofPred (· ∉ claimed)).Infinite := by
  have hfinite : (Set.ofPred (· ∈ claimed)).Finite := List.finite_toSet claimed
  exact hfinite.infinite_compl

/-- Of one position more than there are claims, one is unclaimed. -/
theorem exists_unclaimed (n : Nat) : ∃ i < claimed.length + 1, n + i ∉ claimed := by
  by_contra hclaimed
  push Not at hclaimed
  have hsubset : (List.range (claimed.length + 1)).map (n + ·) ⊆ claimed := by
    intro m hm
    obtain ⟨i, hi, rfl⟩ := List.mem_map.1 hm
    exact hclaimed i (List.mem_range.1 hi)
  have hnodup : ((List.range (claimed.length + 1)).map (n + ·)).Nodup :=
    List.nodup_range.map fun i j h => Nat.add_left_cancel h
  have hle := (List.subperm_of_subset hnodup hsubset).length_le
  simp at hle

/-- **The search finds the lowest unclaimed position** from `n` on. -/
theorem isLeast_nextFree (n : Nat) : IsLeast {i | i ∉ claimed ∧ n ≤ i} (nextFree claimed n) := by
  rw [nextFree]
  cases hfound : ((List.range (claimed.length + 1)).map (n + ·)).find? (· ∉ claimed) with
  | none =>
    obtain ⟨i, hi, hfree⟩ := exists_unclaimed claimed n
    have hmem : n + i ∈ (List.range (claimed.length + 1)).map (n + ·) :=
      List.mem_map.2 ⟨i, List.mem_range.2 hi, rfl⟩
    simpa [hfree] using List.find?_eq_none.1 hfound (n + i) hmem
  | some m =>
    obtain ⟨hfree, i, hi, hm, hbefore⟩ := List.find?_eq_some_iff_getElem.1 hfound
    simp only [List.length_map, List.length_range, List.getElem_map, List.getElem_range,
      decide_eq_true_eq, decide_not, Bool.not_not, Bool.not_eq_true', decide_eq_false_iff_not]
      at hi hm hfree hbefore
    refine ⟨⟨hfree, by simp [← hm]⟩, ?_⟩
    rintro j ⟨hj, hnj⟩
    by_contra hlt
    refine hj ?_
    have hclaimed := hbefore (j - n) (by simp at hlt; omega)
    rwa [show n + (j - n) = j by omega] at hclaimed

theorem nextFree_eq_nth (n : Nat) :
    nextFree claimed n = Nat.nth (· ∉ claimed) (Nat.count (· ∉ claimed) n) := by
  rw [Nat.nth_count_eq_sInf]
  exact (isLeast_nextFree claimed n).csInf_eq.symm

/-- One more position is taken after the search. -/
theorem count_nextFree (n : Nat) :
    Nat.count (· ∉ claimed) (nextFree claimed n + 1) = Nat.count (· ∉ claimed) n + 1 := by
  rw [nextFree_eq_nth, Nat.count_nth_succ_of_infinite (infinite_unclaimed claimed)]

end Search

namespace Declaration

/-- The positions that declarations claim. -/
def claims (ds : List Declaration) : List Nat :=
  ds.filterMap (·.position?)

/-- The number of declarations that claim no position. -/
def unclaiming (ds : List Declaration) : Nat :=
  ds.countP (·.position?.isNone)

/-- The parameter of the declaration at index `i`, at its position.  This is the position that it
claims.  If it claims none, and `k` of the declarations before it claim none either, it is the one
below which `k` positions are unclaimed. -/
noncomputable def placeAt (ds : List Declaration) (i : Nat) (d : Declaration) : PlacedParameter :=
  ⟨d.parameter, d.position?.getD (Nat.nth (· ∉ claims ds) (unclaiming (ds.take i)))⟩

/-- Each declaration claims a position or does not. -/
theorem length_claims_add_unclaiming (ds : List Declaration) :
    (claims ds).length + unclaiming ds = ds.length := by
  induction ds with
  | nil => rfl
  | cons d ds ih =>
    cases hd : d.position? <;> simp [claims, unclaiming, hd] at ih ⊢ <;> omega

end Declaration

open Declaration

/-- **What is assigned**, said without a search. -/
theorem getElem?_assignPositions (claimed : List Nat) (n : Nat) (ds : List Declaration) (i : Nat) :
    (assignPositions claimed n ds)[i]? = ds[i]?.map fun d => ⟨d.parameter, d.position?.getD
      (Nat.nth (· ∉ claimed) (Nat.count (· ∉ claimed) n + unclaiming (ds.take i)))⟩ := by
  fun_induction assignPositions claimed n ds generalizing i with
  | case1 n => rfl
  | case2 n parameter position ds ih =>
    cases i with
    | zero => rfl
    | succ i => simpa [unclaiming] using ih i
  | case3 n parameter ds position ih =>
    cases i with
    | zero => simp [position, nextFree_eq_nth, unclaiming]
    | succ i =>
      have hcount : Nat.count (· ∉ claimed) (position + 1) + unclaiming (ds.take i) =
          Nat.count (· ∉ claimed) n + unclaiming (⟨parameter, none⟩ :: ds.take i) := by
        rw [count_nextFree, unclaiming, unclaiming, List.countP_cons_of_pos rfl]
        omega
      rw [List.getElem?_cons_succ, List.getElem?_cons_succ, ih i, hcount, List.take_succ_cons]

theorem assignPositions_eq (ds : List Declaration) :
    assignPositions (claims ds) 0 ds = ds.mapIdx (placeAt ds) := by
  refine List.ext_getElem? fun i => ?_
  rw [getElem?_assignPositions, List.getElem?_mapIdx, Nat.count_zero]
  simp only [Nat.zero_add]
  rfl

/-- The positions that are assigned are the claimed ones and the unclaimed ones, without a gap, from
the lowest on. -/
theorem positions_perm (claimed : List Nat) (n : Nat) (ds : List Declaration) :
    ((assignPositions claimed n ds).map (·.position)).Perm (claims ds ++
      (List.range' (Nat.count (· ∉ claimed) n) (unclaiming ds)).map (Nat.nth (· ∉ claimed))) := by
  fun_induction assignPositions claimed n ds with
  | case1 n => exact .refl _
  | case2 n parameter position ds ih => simpa [claims, unclaiming] using ih
  | case3 n parameter ds position ih =>
    have hrange : List.range' (Nat.count (· ∉ claimed) n) (unclaiming (⟨parameter, none⟩ :: ds)) =
        Nat.count (· ∉ claimed) n ::
          List.range' (Nat.count (· ∉ claimed) (position + 1)) (unclaiming ds) := by
      rw [count_nextFree, unclaiming, List.countP_cons_of_pos rfl, List.range'_succ, unclaiming]
    rw [hrange, List.map_cons, List.map_cons, ← nextFree_eq_nth]
    exact (ih.cons position).trans List.perm_middle.symm

/-- Positions are distinct if the claimed ones are. -/
theorem nodup_positions {ds : List Declaration} (h : (claims ds).Nodup) :
    ((assignPositions (claims ds) 0 ds).map (·.position)).Nodup := by
  have hinfinite := infinite_unclaimed (claims ds)
  rw [(positions_perm (claims ds) 0 ds).nodup_iff, List.nodup_append]
  refine ⟨h, List.Nodup.map (Nat.nth_injective hinfinite) List.nodup_range', ?_⟩
  rintro n hn m hm rfl
  obtain ⟨k, -, rfl⟩ := List.mem_map.1 hm
  exact Nat.nth_mem_of_infinite hinfinite k hn

/-! ## No position is left out -/

/-- Below a number there are at least as many unclaimed positions as are left when each claim takes
one away. -/
theorem le_count_unclaimed (claimed : List Nat) (n : Nat) :
    n ≤ claimed.length + Nat.count (· ∉ claimed) n := by
  have hfilter : ((Finset.range n).filter (· ∈ claimed)).card ≤ claimed.length := by
    refine le_trans (Finset.card_le_card fun m hm => ?_) claimed.toFinset_card_le
    exact List.mem_toFinset.2 (Finset.mem_filter.1 hm).2
  have hsum := Finset.card_filter_add_card_filter_not (s := Finset.range n) (· ∈ claimed)
  rw [Finset.card_range] at hsum
  rw [Nat.count_eq_card_filter_range]
  omega

/-- If all claims are below the number of declarations, so are all positions. -/
theorem position_lt {ds : List Declaration} (h : ∀ n ∈ claims ds, n < ds.length) :
    ∀ n ∈ (assignPositions (claims ds) 0 ds).map (·.position), n < ds.length := by
  intro n hn
  rcases List.mem_append.1 ((positions_perm (claims ds) 0 ds).mem_iff.1 hn) with hn | hn
  · exact h n hn
  · obtain ⟨k, hk, rfl⟩ := List.mem_map.1 hn
    refine Nat.nth_lt_of_lt_count ?_
    have hcount := le_count_unclaimed (claims ds) ds.length
    have hlength := length_claims_add_unclaiming ds
    simp only [Nat.count_zero, List.mem_range'_1, Nat.zero_add] at hk
    omega

/-! ## Signatures -/

/-- What a signature makes of its declarations. -/
structure NormalForm (ds : List Declaration) (ps : List PlacedParameter) : Prop where
  /-- The parameters are the declared ones, each at its position. -/
  perm : ps.Perm (ds.mapIdx (placeAt ds))
  /-- No two parameters have the same position. -/
  distinct : (ps.map (·.position)).Nodup
  /-- The parameters are sorted by position. -/
  sorted : (ps.map (·.position)).Pairwise (· ≤ ·)
  /-- If no claim is too high, the positions are the numbers below the number of declarations. -/
  gapless : (∀ n ∈ claims ds, n < ds.length) → ps.map (·.position) = List.range ds.length

theorem perm_place (ds : List Declaration) : (place ds).Perm (ds.mapIdx (placeAt ds)) :=
  assignPositions_eq ds ▸ perm_sortByKey _ _

/-- Sorted and distinct numbers below their number are all of them. -/
theorem eq_range_of_sorted {l : List Nat} (hsorted : l.Pairwise (· ≤ ·)) (hdistinct : l.Nodup)
    (hlt : ∀ n ∈ l, n < l.length) : l = List.range l.length := by
  have hsubset : l ⊆ List.range l.length := fun n hn => List.mem_range.2 (hlt n hn)
  have hperm : l.Perm (List.range l.length) :=
    (List.subperm_of_subset hdistinct hsubset).perm_of_length_le (by simp)
  exact hperm.eq_of_pairwise (fun a b _ _ => Nat.le_antisymm) hsorted List.pairwise_le_range

theorem normalForm_place {ds : List Declaration} (h : (claims ds).Nodup) :
    NormalForm ds (place ds) := by
  have hperm : ((place ds).map (·.position)).Perm
      ((assignPositions (claims ds) 0 ds).map (·.position)) :=
    (perm_sortByKey _ _).map _
  have hdistinct : ((place ds).map (·.position)).Nodup := hperm.nodup_iff.2 (nodup_positions h)
  have hsorted : ((place ds).map (·.position)).Pairwise (· ≤ ·) :=
    List.pairwise_map.2 (pairwise_sortByKey _ _)
  refine ⟨perm_place ds, hdistinct, hsorted, fun hlt => ?_⟩
  have hlength : ((place ds).map (·.position)).length = ds.length := by simp
  have hrange := eq_range_of_sorted hsorted hdistinct fun n hn => by
    rw [hlength]
    exact position_lt hlt n (hperm.mem_iff.1 hn)
  rwa [hlength] at hrange

/-- If no position is left out, index and position are the same. -/
theorem position_eq_index {ps : List PlacedParameter} {n : Nat}
    (h : ps.map (·.position) = List.range n) {i : Nat} (hi : i < ps.length) :
    ps[i].position = i := by
  have hget : (ps.map (·.position))[i]? = some ps[i].position := by simp [hi]
  rw [h] at hget
  exact (List.getElem?_eq_some_iff.1 hget).2.symm.trans (List.getElem_range _)

/-- If no position is left out, the parameters from an index on are those from that position on. -/
theorem drop_eq_filter_position {ps : List PlacedParameter} {n : Nat}
    (h : ps.map (·.position) = List.range n) (k : Nat) :
    ps.drop k = ps.filter (k ≤ ·.position) := by
  have htake : (ps.take k).filter (k ≤ ·.position) = [] := by
    refine List.filter_eq_nil_iff.2 fun p hp => ?_
    obtain ⟨i, hi, rfl⟩ := List.mem_take_iff_getElem.1 hp
    rw [position_eq_index h, decide_eq_true_eq]
    omega
  have hdrop : (ps.drop k).filter (k ≤ ·.position) = ps.drop k := by
    refine List.filter_eq_self.2 fun p hp => ?_
    obtain ⟨i, hi, rfl⟩ := List.mem_drop_iff_getElem.1 hp
    rw [position_eq_index h, decide_eq_true_eq]
    omega
  conv_rhs => rw [← List.take_append_drop k ps, List.filter_append, htake, hdrop, List.nil_append]

/-- **The parameters of a signature are in normal form** if no position is claimed twice.  If no
claim is too high either, then the index of a parameter is its position, and the arguments that a
call leaves out are those of the parameters from the number of its arguments on. -/
theorem normalForm_declare (literal name : Text) {ds : List Declaration} (h : (claims ds).Nodup) :
    NormalForm ds (Signature.declare literal name ds).parameters ∧
      ((∀ n ∈ claims ds, n < ds.length) → ∀ f : Operation, f.signature = .declare literal name ds →
        (∀ (i : Nat) p, f.signature.parameters[i]? = some p → p.position = i) ∧
        ∀ start supplied, missingArguments f start supplied = defaultArguments f.literal start
          supplied (f.signature.parameters.filter (supplied ≤ ·.position))) := by
  have hnormal : NormalForm ds (Signature.declare literal name ds).parameters := normalForm_place h
  refine ⟨hnormal, fun hlt f hf => ?_⟩
  have hrange := hnormal.gapless hlt
  rw [← hf] at hrange
  constructor
  · intro i p hp
    obtain ⟨hi, rfl⟩ := List.getElem?_eq_some_iff.1 hp
    exact position_eq_index hrange hi
  · intro start supplied
    rw [missingArguments, drop_eq_filter_position hrange]

/-- Three declarations, of which the second one takes the position that the others leave. -/
theorem normalForm_declare_clamp :
    (claims [⟨.optional ['1'], some 2⟩, .required, ⟨.optional ['0'], some 1⟩]).Nodup ∧
      NormalForm [⟨.optional ['1'], some 2⟩, .required, ⟨.optional ['0'], some 1⟩]
        [⟨.required, 0⟩, ⟨.optional ['0'], 1⟩, ⟨.optional ['1'], 2⟩] ∧
      ∀ start, missingArguments ⟨.declare ['c'] ['C']
        [⟨.optional ['1'], some 2⟩, .required, ⟨.optional ['0'], some 1⟩], .clamp⟩ start 2 =
          defaultArguments ['c'] start 2 [⟨.optional ['1'], 2⟩] := by
  have hclaims : (claims [⟨.optional ['1'], some 2⟩, .required,
      ⟨.optional ['0'], some 1⟩]).Nodup := by decide
  have hparameters : (Signature.declare ['c'] ['C'] [⟨.optional ['1'], some 2⟩, .required,
      ⟨.optional ['0'], some 1⟩]).parameters =
        [⟨.required, 0⟩, ⟨.optional ['0'], 1⟩, ⟨.optional ['1'], 2⟩] := by decide
  obtain ⟨hnormal, hindexed⟩ := normalForm_declare ['c'] ['C'] hclaims
  rw [hparameters] at hnormal
  refine ⟨hclaims, hnormal, fun start => ?_⟩
  exact (hindexed (by decide) ⟨_, .clamp⟩ rfl).2 start 2

end Formula

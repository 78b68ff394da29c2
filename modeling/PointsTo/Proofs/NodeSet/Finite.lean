import PointsTo.Proofs.NodeSet
import Mathlib.Data.Finset.Card
import Mathlib.Data.Finset.Lattice.Lemmas

/-!
# Node sets as finite sets

The list of an ascending set is determined by the finite set of its nodes
(`toFinset`), and the operations are those on finite sets. What a union reports is
then a difference of two cardinalities, and any two ways of working it out come to
the same list: `union_on_every_path`. The queries walk along both lists with a cursor
in each; `queries_exact` says what they answer.
-/

namespace PointsTo

namespace NodeSet

def toFinset (s : NodeSet) : Finset Nat := s.elements.toFinset

instance (x : Nat) (s : NodeSet) : Decidable (x ∈ s) :=
  inferInstanceAs (Decidable (x ∈ s.elements))

variable {s t : NodeSet} {x : Nat}

@[simp] theorem mem_toFinset : x ∈ s.toFinset ↔ x ∈ s := List.mem_toFinset

theorem Ascending.card_toFinset (hs : s.Ascending) : s.toFinset.card = s.size :=
  List.toFinset_card_of_nodup hs.nodup

theorem Ascending.toFinset_inj (hs : s.Ascending) (ht : t.Ascending) :
    s.toFinset = t.toFinset ↔ s = t := by
  constructor
  · intro h
    refine ext_of_ascending hs ht fun x => ?_
    rw [← mem_toFinset, h, mem_toFinset]
  · exact congrArg toFinset

/-! ## Joining -/

theorem toFinset_insert (hs : s.Ascending) (x : Nat) :
    (s.insert x).1.toFinset = Insert.insert x s.toFinset := by
  ext y
  rw [mem_toFinset, mem_insert hs, Finset.mem_insert, mem_toFinset]

@[simp] theorem toFinset_ofList (xs : List Nat) : (ofList xs).toFinset = xs.toFinset := by
  ext y
  rw [mem_toFinset, mem_ofList, List.mem_toFinset]

namespace Unites

variable {result : NodeSet × Nat}

theorem toFinset_eq (h : Unites s t result) :
    result.1.toFinset = s.toFinset ∪ t.toFinset := by
  ext y
  rw [mem_toFinset, h.mem, Finset.mem_union, mem_toFinset, mem_toFinset]

theorem snd_eq (h : Unites s t result) (hs : s.Ascending) :
    result.2 = (s.toFinset ∪ t.toFinset).card - s.toFinset.card := by
  have hcard := h.ascending.card_toFinset
  rw [h.toFinset_eq, h.size] at hcard
  rw [hcard, hs.card_toFinset, Nat.add_sub_cancel_left]

/-- There is one result that a union can have. -/
theorem unique {result' : NodeSet × Nat} (h : Unites s t result) (h' : Unites s t result')
    (hs : s.Ascending) : result = result' := by
  have hsets : result.1 = result'.1 :=
    (h.ascending.toFinset_inj h'.ascending).1 (h.toFinset_eq.trans h'.toFinset_eq.symm)
  have hcounts : result.2 = result'.2 := (h.snd_eq hs).trans (h'.snd_eq hs).symm
  exact Prod.ext hsets hcounts

end Unites

/-- The result of one walk along both lists, whatever their lengths. -/
def mergeAll (s t : NodeSet) : NodeSet × Nat :=
  (⟨merge s.elements t.elements⟩, (merge s.elements t.elements).length - s.size)

theorem mergeAll_unites (hs : s.Ascending) (ht : t.Ascending) : Unites s t (s.mergeAll t) where
  ascending := pairwise_merge hs ht
  mem _ := mem_merge
  size := by
    have hle := length_le_length_merge s.elements t.elements
    simp only [mergeAll, size] at *
    omega

/-- A union of ascending sets has the nodes of both, in ascending order, and reports how many
of them the first one lacked. Inserting the nodes one by one gives the same set and the same
number as one walk along both lists, so it does not matter which of them the sizes select; and
without any node on one side neither is needed. A single insertion and the collection of any
list keep to the nodes that are put in. -/
theorem union_on_every_path {s t : NodeSet} (hs : s.Ascending) (ht : t.Ascending) :
    ((s.union t).1.Ascending ∧ (s.union t).1.toFinset = s.toFinset ∪ t.toFinset ∧
      (s.union t).2 = (s.toFinset ∪ t.toFinset).card - s.toFinset.card) ∧
    (s.union t = s.insertAll t.elements ∧ s.union t = s.mergeAll t ∧
      s.union empty = (s, 0) ∧ empty.union t = (t, t.size)) ∧
    (∀ x, (s.insert x).1.Ascending ∧ (s.insert x).1.toFinset = Insert.insert x s.toFinset ∧
      ((s.insert x).2 = true ↔ x ∉ s)) ∧
    ∀ xs, (ofList xs).Ascending ∧ (ofList xs).toFinset = xs.toFinset := by
  have hunion := union_unites hs ht
  refine ⟨⟨hunion.ascending, hunion.toFinset_eq, hunion.snd_eq hs⟩, ⟨?_, ?_, ?_, ?_⟩,
    fun x => ⟨ascending_insert hs, toFinset_insert hs x, insert_fresh_iff hs⟩,
    fun xs => ⟨ascending_ofList xs, toFinset_ofList xs⟩⟩
  · exact hunion.unique (insertAll_unites hs t.elements) hs
  · exact hunion.unique (mergeAll_unites hs ht) hs
  · rfl
  · rw [union]
    split
    next hempty =>
      rw [List.isEmpty_iff] at hempty
      cases t
      cases hempty
      rfl
    next => rfl

/-- The even nodes below 24. -/
def evens : NodeSet := ⟨(List.range 12).map (2 * ·)⟩

/-- One node is put into a set more than eight times as large, a larger set is merged with it,
and what is there already is not counted. -/
theorem union_on_every_path_evens :
    evens.Ascending ∧ (ofList [7]).Ascending ∧ (ofList [30, 4, 7, 4]).Ascending ∧
      (evens.union (ofList [7])).2 = 1 ∧
      evens.union (ofList [7]) = evens.mergeAll (ofList [7]) ∧
      (evens.union (ofList [30, 4, 7, 4])).2 = 2 ∧
      evens.union (ofList [30, 4, 7, 4]) = evens.insertAll [4, 7, 30] := by
  have hevens : evens.Ascending := by unfold Ascending; decide
  have hone := ascending_ofList [7]
  have hmore := ascending_ofList [30, 4, 7, 4]
  obtain ⟨⟨_, _, hcount⟩, ⟨_, hmerged, _⟩, _⟩ := union_on_every_path hevens hone
  obtain ⟨⟨_, _, hcount'⟩, ⟨hinserted, _⟩, _⟩ := union_on_every_path hevens hmore
  exact ⟨hevens, hone, hmore, hcount.trans (by decide), hmerged, hcount'.trans (by decide),
    hinserted⟩

/-! ## Queries -/

theorem toFinset_difference (hs : s.Ascending) (ht : t.Ascending) :
    (s.difference t).toFinset = s.toFinset \ t.toFinset := by
  ext y
  rw [mem_toFinset, mem_difference hs ht, Finset.mem_sdiff, mem_toFinset, mem_toFinset]

/-- The difference lists what is left of the first list as it stands there. -/
theorem elements_difference (hs : s.Ascending) (ht : t.Ascending) :
    (s.difference t).elements = s.elements.filter fun x => decide (x ∉ t.elements) := by
  have hfilter : Ascending ⟨s.elements.filter fun x => decide (x ∉ t.elements)⟩ :=
    hs.sublist List.filter_sublist
  refine congrArg NodeSet.elements
    (ext_of_ascending (ascending_difference t hs) hfilter fun x => ?_)
  rw [mem_difference hs ht, mem_def, mem_def, mem_def, List.mem_filter, decide_eq_true_iff]

theorem isSubset_iff (hs : s.Ascending) (ht : t.Ascending) :
    s.isSubset t = true ↔ ∀ x ∈ s, x ∈ t := by
  have hdifference : (s.difference t).isEmpty = true ↔ ∀ x ∈ s, x ∈ t := by
    rw [isEmpty_iff]
    refine forall_congr' fun x => ?_
    rw [mem_difference hs ht, not_and, not_not]
  rw [isSubset, Bool.and_eq_true, hdifference, decide_eq_true_iff]
  refine ⟨And.right, fun hsub => ⟨?_, hsub⟩⟩
  -- a set without repetitions that is part of another is no larger
  exact (hs.nodup.subperm hsub).length_le

theorem meet_iff {xs ys : List Nat} (hxs : xs.Pairwise (· < ·)) (hys : ys.Pairwise (· < ·)) :
    meet xs ys = true ↔ ∃ z ∈ xs, z ∈ ys := by
  fun_induction meet xs ys with
  | case1 x xs y ys hlt ih =>
      -- the smaller head is below all of the other list
      have hx : x ∉ y :: ys := by
        intro hmem
        rcases List.mem_cons.1 hmem with rfl | hmem
        · exact Nat.lt_irrefl _ hlt
        · exact Nat.lt_asymm hlt (List.rel_of_pairwise_cons hys hmem)
      rw [ih hxs.of_cons hys, List.exists_mem_cons_iff, or_iff_right hx]
  | case2 x xs y ys _ hlt ih =>
      have hy : y ∉ x :: xs := by
        intro hmem
        rcases List.mem_cons.1 hmem with rfl | hmem
        · exact Nat.lt_irrefl _ hlt
        · exact Nat.lt_asymm hlt (List.rel_of_pairwise_cons hxs hmem)
      rw [ih hxs hys.of_cons]
      refine exists_congr fun z => and_congr_right fun hz => ?_
      rw [List.mem_cons, or_iff_right]
      rintro rfl
      exact hy hz
  | case3 x xs y ys hxy hyx =>
      obtain rfl : x = y := by omega
      exact iff_of_true rfl ⟨x, List.mem_cons_self, List.mem_cons_self⟩
  | case4 xs ys hcons =>
      refine iff_of_false Bool.false_ne_true ?_
      rintro ⟨z, hzx, hzy⟩
      cases xs with
      | nil => cases hzx
      | cons x xs =>
          cases ys with
          | nil => cases hzy
          | cons y ys => exact hcons x xs y ys rfl rfl

theorem intersects_iff (hs : s.Ascending) (ht : t.Ascending) :
    s.intersects t = true ↔ ∃ x ∈ s, x ∈ t :=
  meet_iff hs ht

/-- The difference of ascending sets lists the nodes that only the first one has, in the order
in which they stand there; being part, having a node in common and holding a node are what
they say. So a set falls into its difference with another one and what the two share. -/
theorem queries_exact {s t : NodeSet} (hs : s.Ascending) (ht : t.Ascending) :
    ((s.difference t).Ascending ∧
      (s.difference t).elements = s.elements.filter fun x => decide (x ∉ t.elements)) ∧
    (s.isSubset t = true ↔ ∀ x ∈ s, x ∈ t) ∧
    (s.intersects t = true ↔ ∃ x ∈ s, x ∈ t) ∧
    (∀ x, s.contains x = true ↔ x ∈ s) ∧
    Disjoint (s.difference t).toFinset (s.toFinset ∩ t.toFinset) ∧
    (s.difference t).toFinset ∪ (s.toFinset ∩ t.toFinset) = s.toFinset := by
  refine ⟨⟨ascending_difference t hs, elements_difference hs ht⟩, isSubset_iff hs ht,
    intersects_iff hs ht, fun x => contains_iff hs, ?_, ?_⟩
  · rw [toFinset_difference hs ht]
    exact Finset.disjoint_sdiff_inter _ _
  · rw [toFinset_difference hs ht]
    exact Finset.sdiff_union_inter _ _

/-- Sets that overlap at an end of both, and a set that is part of another. -/
theorem queries_exact_evens :
    evens.Ascending ∧ (ofList [22, 23, 7]).Ascending ∧
      ((ofList [22, 23, 7]).difference evens).elements = [7, 23] ∧
      (ofList [22, 23, 7]).intersects evens = true ∧
      (ofList [22, 23, 7]).isSubset evens = false ∧
      (evens.difference evens).elements = [] ∧ evens.isSubset evens = true ∧
      evens.contains 22 = true := by
  have hevens : evens.Ascending := by unfold Ascending; decide
  have hother := ascending_ofList [22, 23, 7]
  obtain ⟨⟨_, hdifference⟩, hsubset, hintersects, _⟩ := queries_exact hother hevens
  obtain ⟨⟨_, hdifference'⟩, hsubset', _, hcontains, _⟩ := queries_exact hevens hevens
  refine ⟨hevens, hother, hdifference.trans (by decide),
    hintersects.2 ⟨22, by decide, by decide⟩, ?_, hdifference'.trans (by decide),
    hsubset'.2 fun _ => id, (hcontains 22).2 (by decide)⟩
  refine Bool.eq_false_iff.2 fun h => ?_
  have h7 : 7 ∈ evens := hsubset.1 h 7 (by decide)
  exact absurd h7 (by decide)

end NodeSet

end PointsTo

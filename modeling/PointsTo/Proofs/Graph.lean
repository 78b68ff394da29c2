import PointsTo.Graph
import PointsTo.Proofs.Grouping
import PointsTo.Proofs.NodeSet
import Mathlib.Data.Finset.Card

/-!
# What a graph lists

A graph answers by its table of representatives, and its lists are read off the same
table: the classes are the nodes grouped by representative, and the entries are the
nodes whose sets are not empty. The statistics are counted when a graph is frozen,
by the table and the sets that it is frozen from.
-/

namespace PointsTo

namespace Graph

/-! ## Classes -/

section Classes

variable {g : Graph} {n : Nat} {c : List Nat}

theorem zipIdx_representatives (g : Graph) :
    g.representatives.toList.zipIdx =
      (List.range g.representatives.size).map fun n => (g.representativeOf n, n) := by
  refine List.ext_getElem (by simp) fun n hn _ => ?_
  have hlt : n < g.representatives.size := by simpa using hn
  simp [representativeOf, Array.getD_eq_getD_getElem?, hlt]

theorem toList_representatives (g : Graph) :
    g.representatives.toList = (List.range g.representatives.size).map g.representativeOf := by
  have hfst := congrArg (List.map Prod.fst) g.zipIdx_representatives
  rwa [List.zipIdx_map_fst, List.map_map] at hfst

/-- The classes are the nodes grouped by their representatives. -/
theorem classes_eq (g : Graph) :
    g.classes = groupsBy g.representativeOf (List.range g.representatives.size) := by
  rw [classes, groupsBy, ← toList_representatives, zipIdx_representatives]
  refine List.map_congr_left fun rep _ => ?_
  rw [List.filter_map, List.map_map]
  exact List.map_id _

/-- A list is among the classes if it lists what is of one class with some node. -/
theorem mem_classes_iff : c ∈ g.classes ↔
    ∃ n < g.representatives.size, c = (List.range g.representatives.size).filter
      fun m => g.sameClass m n := by
  rw [classes_eq, mem_groupsBy]
  simp only [List.mem_range]
  rfl

theorem flatten_classes_perm (g : Graph) :
    g.classes.flatten.Perm (List.range g.representatives.size) := by
  rw [classes_eq]
  exact flatten_groupsBy_perm _ List.nodup_range

theorem ascending_of_mem_classes (hc : c ∈ g.classes) : c.Pairwise (· < ·) := by
  obtain ⟨_, _, rfl⟩ := mem_classes_iff.1 hc
  exact List.pairwise_lt_range.filter _

/-- The smallest member of a class is below all members of the classes that follow. -/
theorem classes_ordered (g : Graph) :
    g.classes.Pairwise fun c d => ∀ m ∈ d, ∃ l ∈ c, l < m := by
  rw [classes_eq]
  exact groupsBy_ordered _ List.pairwise_lt_range

end Classes

/-! ## Entries -/

section Entries

variable {g : Graph} {n : Nat} {s : NodeSet}

theorem mem_entries_iff :
    (n, s) ∈ g.entries ↔ n < g.numNodes ∧ s = g.pointsTo n ∧ ∃ o, o ∈ s := by
  have hempty : (!s.isEmpty) = true ↔ ∃ o, o ∈ s := by
    rw [Bool.not_eq_true', ← Bool.not_eq_true, NodeSet.isEmpty_iff]
    exact not_forall_not
  rw [entries, List.mem_filter, List.mem_map]
  simp only [List.mem_range, Prod.mk.injEq, hempty]
  constructor
  · rintro ⟨⟨_, hlt, rfl, rfl⟩, hs⟩
    exact ⟨hlt, rfl, hs⟩
  · rintro ⟨hlt, rfl, hs⟩
    exact ⟨⟨n, hlt, rfl, rfl⟩, hs⟩

theorem entries_ascending (g : Graph) : (g.entries.map Prod.fst).Pairwise (· < ·) := by
  have hkeys : ((List.range g.numNodes).map fun n => (n, g.pointsTo n)).map Prod.fst =
      List.range g.numNodes := by
    rw [List.map_map]
    exact List.map_id _
  have hsub : (g.entries.map Prod.fst).Sublist (List.range g.numNodes) := by
    rw [← hkeys]
    exact List.filter_sublist.map _
  exact List.pairwise_lt_range.sublist hsub

end Entries

/-! ## Statistics -/

section Stats

variable {nodes : Array Node} {representatives : List Nat} {sets : List NodeSet}

/-- Every node either represents its class or counts as merged. -/
theorem totalClasses_add_mergedNodes (hlength : representatives.length = nodes.size) :
    (freeze nodes representatives sets).stats.totalClasses +
      (freeze nodes representatives sets).stats.mergedNodes =
        (freeze nodes representatives sets).stats.totalNodes := by
  have hsplit := List.length_eq_length_filter_add (l := representatives.zipIdx)
    fun p => p.1 == p.2
  rw [List.length_zipIdx, hlength] at hsplit
  exact hsplit.symm

theorem mergedNodes_freeze :
    (freeze nodes representatives sets).stats.mergedNodes =
      ((Finset.range representatives.length).filter fun n =>
        (freeze nodes representatives sets).representativeOf n ≠ n).card := by
  have hzip := (freeze nodes representatives sets).zipIdx_representatives
  have hlist : (freeze nodes representatives sets).representatives.toList = representatives := rfl
  have hsize : (freeze nodes representatives sets).representatives.size = representatives.length :=
    rfl
  rw [hlist, hsize] at hzip
  have hmerged : (freeze nodes representatives sets).stats.mergedNodes =
      (representatives.zipIdx.filter fun p => p.1 != p.2).length := rfl
  rw [hmerged, hzip, List.filter_map, List.length_map,
    ← List.toFinset_card_of_nodup (List.nodup_range.filter _)]
  congr 1
  ext n
  simp

theorem totalMemberships_freeze :
    (freeze nodes representatives sets).stats.totalMemberships =
      (sets.map NodeSet.size).foldr (· + ·) 0 :=
  rfl

end Stats

end Graph

end PointsTo

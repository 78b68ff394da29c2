import PointsTo.Proofs.Graph
import PointsTo.Proofs.NodeTable.Classes
import PointsTo.Proofs.Solver.Freeze
import PointsTo.Proofs.Solver.Membership
import PointsTo.Proofs.Solver.Partition

/-!
# What a frozen graph answers

A solver answers through the links of its table, a graph through a list of
representatives that was made of them at once. So both give the same sets and the
same classes (`Graph.Mirrors`). What a graph counts anew when it is frozen are the
nodes that lost their place and the sizes of the sets. The table has counted the
former with every merge, those before the run included, and the account of the solver
the latter.
-/

namespace PointsTo

/-- The graph `g` answers what the solver `s` would, and lists and counts the same. -/
structure Graph.Mirrors (g : Graph) (s : Solver) : Prop where
  pointsTo_eq (n : Nat) : g.pointsTo n = s.pointsTo n
  pointsTo_outside (n : Nat) : s.table.size ≤ n → g.pointsTo n = .empty
  representativeOf_eq (n : Nat) : g.representativeOf n = s.table.root n
  representativeOf_find (n : Nat) : g.representativeOf n = (s.table.sets.find n).1
  idempotent (n : Nat) : g.representativeOf (g.representativeOf n) = g.representativeOf n
  sameClass_iff (a b : Nat) : g.sameClass a b = true ↔ s.table.root a = s.table.root b
  /-- Every node is listed in one class. -/
  classes_perm : g.classes.flatten.Perm (List.range s.table.size)
  mem_classes_iff (c : List Nat) : c ∈ g.classes ↔
    ∃ n < s.table.size, c = (List.range s.table.size).filter fun m => g.sameClass m n
  classes_ascending (c : List Nat) : c ∈ g.classes → c.Pairwise (· < ·)
  /-- The smallest member of a class is below all members of the classes that follow. -/
  classes_ordered : g.classes.Pairwise fun c d => ∀ m ∈ d, ∃ l ∈ c, l < m
  mem_entries_iff (n : Nat) (set : NodeSet) :
    (n, set) ∈ g.entries ↔ set = g.pointsTo n ∧ ∃ o, o ∈ set
  entries_ascending : (g.entries.map Prod.fst).Pairwise (· < ·)
  totalNodes_eq : g.stats.totalNodes = s.table.size
  totalClasses_add : g.stats.totalClasses + g.stats.mergedNodes = g.stats.totalNodes
  mergedNodes_eq : g.stats.mergedNodes = s.table.merges
  totalMemberships_eq : g.stats.totalMemberships = s.stats.totalMemberships

namespace Solver

section Answers

variable {s s₀ : Solver} {g : Graph} {n : Nat}

theorem pointsTo_of_size_le (hn : s.table.size ≤ n) : s.pointsTo n = .empty := by
  have hout : ¬s.table.contains n = true := fun h =>
    Nat.not_lt.2 hn (NodeTable.contains_iff.1 h)
  rw [pointsTo, if_neg hout]

theorem sum_size_pts (s : Solver) :
    ((s.cells.toList.map Cell.pts).map NodeSet.size).foldr (· + ·) 0 = s.store.held := by
  have hcells : s.cells.toList = (List.range s.cells.size).map s.cell := by
    refine List.ext_getElem (by simp) fun n hn _ => ?_
    have hlt : n < s.cells.size := by simpa using hn
    simp [cell, Array.getD_eq_getD_getElem?, hlt]
  rw [hcells, List.map_map, List.map_map]
  rfl

theorem size_representatives_freeze (h : s.freeze = .ok g) :
    g.representatives.size = s.table.size := by
  obtain ⟨_, rfl⟩ := freeze_eq_ok h
  simp [Graph.freeze, NodeTable.roots]

theorem numNodes_freeze (h : s.freeze = .ok g) : g.numNodes = s.table.size := by
  obtain ⟨_, rfl⟩ := freeze_eq_ok h
  rfl

/-- The nodes that count as merged are the merges of the table. -/
theorem mergedNodes_freeze (ht : s.table.Reachable) (h : s.freeze = .ok g) :
    g.stats.mergedNodes = s.table.merges := by
  have hlength : s.table.roots.length = s.table.size := by simp [NodeTable.roots]
  have hrep := representativeOf_freeze ht.wellFormed.toCoherent h
  obtain ⟨_, rfl⟩ := freeze_eq_ok h
  rw [Graph.mergedNodes_freeze, hlength]
  simp only [hrep]
  exact ht.card_merged

theorem totalMemberships_freeze (h : s.freeze = .ok g) :
    g.stats.totalMemberships = s.store.held := by
  obtain ⟨_, rfl⟩ := freeze_eq_ok h
  exact Graph.totalMemberships_freeze.trans s.sum_size_pts

/-- A node with a set that is not empty is a node of the table. -/
theorem mem_entries_freeze (hs : s.store.WellFormed) (h : s.freeze = .ok g) (set : NodeSet) :
    (n, set) ∈ g.entries ↔ set = g.pointsTo n ∧ ∃ o, o ∈ set := by
  rw [Graph.mem_entries_iff, numNodes_freeze h]
  refine ⟨And.right, fun hmem => ⟨?_, hmem⟩⟩
  obtain ⟨rfl, o, ho⟩ := hmem
  by_contra hge
  rw [pointsTo_freeze hs h, pointsTo_of_size_le (Nat.le_of_not_lt hge)] at ho
  exact NodeSet.not_mem_empty o ho

/-- Every solver that calls of `step` and `solve` come to can be frozen once it is solved,
and the graph says of nodes, classes and sets what the solver says. The table may have been
merged in before. -/
theorem freeze_mirrors {t : NodeTable} (ht : t.Reachable) (config : Config) (order : Schedule)
    (cs : List Constraint) (hs : (new config order t cs).Attains s) (hphase : s.phase = .solved) :
    ∃ g, s.freeze = .ok g ∧ g.Mirrors s := by
  have hblank := blank_new ht.wellFormed config order cs
  have hreached := hs.reached hblank
  have hwf := hreached.wellFormed hblank
  have hcoherent : s.table.Coherent := hwf.table.toCoherent
  have htable : s.table.Reachable := hreached.reachable hblank (.applyLimits config.limits ht)
  obtain ⟨g, hg⟩ := freeze_ok hwf hphase
  have hroot := representativeOf_freeze hcoherent hg
  have hsize := size_representatives_freeze hg
  refine ⟨g, hg, ?_⟩
  refine
    { pointsTo_eq := pointsTo_freeze hwf hg
      pointsTo_outside := fun n hn => (pointsTo_freeze hwf hg n).trans (pointsTo_of_size_le hn)
      representativeOf_eq := hroot
      representativeOf_find := fun n => (hroot n).trans (hcoherent.sets.find_spec n).1.symm
      idempotent := fun n => by rw [hroot, hroot, hcoherent.root_root]
      sameClass_iff := fun a b => by rw [Graph.sameClass, beq_iff_eq, hroot, hroot]
      classes_perm := hsize ▸ g.flatten_classes_perm
      mem_classes_iff := fun c => hsize ▸ Graph.mem_classes_iff
      classes_ascending := fun c => Graph.ascending_of_mem_classes
      classes_ordered := g.classes_ordered
      mem_entries_iff := fun n => mem_entries_freeze hwf hg
      entries_ascending := g.entries_ascending
      totalNodes_eq := ?_
      totalClasses_add := ?_
      mergedNodes_eq := mergedNodes_freeze htable hg
      totalMemberships_eq := ?_ }
  · obtain ⟨_, rfl⟩ := freeze_eq_ok hg
    rfl
  · obtain ⟨_, rfl⟩ := freeze_eq_ok hg
    refine Graph.totalClasses_add_mergedNodes ?_
    rw [NodeTable.roots, List.length_map, List.length_range]
    rfl
  · rw [totalMemberships_freeze hg, hs.totalMemberships_eq hblank hphase]
    exact hreached.held_eq hblank rfl

/-- The run over the mixed program merges one of the four nodes. -/
theorem freeze_mirrors_mixed :
    let s := (new ((Preset.config .thorough).set (.sccInterval 1)) .newest .mixed
      Constraint.mixed).afterAll [.solve]
    ∃ g, s.freeze = .ok g ∧ g.Mirrors s ∧ g.stats.mergedNodes = 1 ∧
      g.classes = [[0], [1, 3], [2]] := by
  intro s
  have hattains : (new ((Preset.config .thorough).set (.sccInterval 1)) .newest .mixed
      Constraint.mixed).Attains s :=
    attains_afterAll (blank_new NodeTable.reachable_mixed.wellFormed _ _ _) [.solve]
  have hsolved : s.phase = .solved := by decide +kernel
  obtain ⟨g, hg, hmirrors⟩ := freeze_mirrors NodeTable.reachable_mixed _ _ _ hattains hsolved
  have hmerges : s.table.merges = 1 := by decide +kernel
  have hclasses : s.freeze.toOption.map Graph.classes = some [[0], [1, 3], [2]] := by
    decide +kernel
  rw [hg] at hclasses
  exact ⟨g, hg, hmirrors, hmirrors.mergedNodes_eq.trans hmerges, Option.some.inj hclasses⟩

end Answers

end Solver

end PointsTo

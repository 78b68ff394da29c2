import PointsTo.Proofs.Solver.Fixpoint

/-!
# Freezing a solver

A frozen graph answers for every node what the solver would: `representativeOf`
is the root of a node and `pointsTo` the set of its class. A solver freezes only
when it is solved, so the sets of a frozen graph are the least solution. As they
are ascending they are determined by it, whatever the classes are.
-/

namespace PointsTo

theorem NodeTable.Coherent.getD_roots {t : NodeTable} (ht : t.Coherent) (n : Nat) :
    t.roots.getD n n = t.root n := by
  rw [NodeTable.roots, List.getD_eq_getElem?_getD, List.getElem?_map]
  by_cases hn : n < t.size
  · rw [List.getElem?_range hn]
    rfl
  · rw [List.getElem?_eq_none (by simpa using hn)]
    exact (ht.root_of_size_le (Nat.le_of_not_lt hn)).symm

/-- The graph `g` is over the nodes of `t` and has the sets of the family `S`. -/
structure Graph.Represents (g : Graph) (t : NodeTable) (S : Family) : Prop where
  nodes_eq : g.nodes = t.nodes
  ascending (n : Nat) : (g.pointsTo n).Ascending
  sets_eq (n : Nat) : {o | o ∈ g.pointsTo n} = S n

theorem Graph.Represents.pointsTo_eq {g g' : Graph} {t t' : NodeTable} {S : Family}
    (h : g.Represents t S) (h' : g'.Represents t' S) (n : Nat) : g.pointsTo n = g'.pointsTo n := by
  have hsets : {o | o ∈ g.pointsTo n} = {o | o ∈ g'.pointsTo n} :=
    (h.sets_eq n).trans (h'.sets_eq n).symm
  exact NodeSet.ext_of_ascending (h.ascending n) (h'.ascending n) (Set.ext_iff.1 hsets)

namespace Solver

variable {s : Solver} {g : Graph}

theorem freeze_eq_ok (h : s.freeze = .ok g) :
    s.phase = .solved ∧ g = .freeze s.table.nodes s.table.roots (s.cells.toList.map Cell.pts) := by
  unfold freeze at h
  split at h
  next => cases h
  next => cases h
  next => cases h
  next hphase =>
    split at h
    next => cases h
    next => exact ⟨hphase, (Except.ok.inj h).symm⟩

/-- Only representatives hold sets, so a solved solver can be frozen. -/
theorem freeze_ok (hs : s.store.WellFormed) (hphase : s.phase = .solved) :
    ∃ g, s.freeze = .ok g := by
  have hmisplaced : s.misplaced? = none := by
    refine List.find?_eq_none.2 fun n _ hn => ?_
    rw [Bool.and_eq_true, bne_iff_ne] at hn
    have hcell : s.cell n = {} := hs.idle n hn.1
    rw [hcell] at hn
    exact Bool.noConfusion hn.2
  refine ⟨.freeze s.table.nodes s.table.roots (s.cells.toList.map Cell.pts), ?_⟩
  rw [freeze, hphase]
  dsimp only
  rw [hmisplaced]

theorem representativeOf_freeze (hs : s.table.Coherent) (h : s.freeze = .ok g) (n : Nat) :
    g.representativeOf n = s.table.root n := by
  obtain ⟨_, rfl⟩ := freeze_eq_ok h
  rw [← hs.getD_roots n]
  simp [Graph.freeze, Graph.representativeOf]

theorem pointsTo_freeze (hs : s.store.WellFormed) (h : s.freeze = .ok g) (n : Nat) :
    g.pointsTo n = s.pointsTo n := by
  rw [Graph.pointsTo, representativeOf_freeze hs.table.toCoherent h, pointsTo_eq hs]
  obtain ⟨_, rfl⟩ := freeze_eq_ok h
  change (s.cells.toList.map Cell.pts).toArray.getD (s.table.root n) .empty =
    (s.cells.getD (s.table.root n) {}).pts
  rw [Array.getD_eq_getD_getElem?, Array.getD_eq_getD_getElem?, List.getElem?_toArray,
    List.getElem?_map, Array.getElem?_toList]
  cases s.cells[s.table.root n]? <;> rfl

/-- What is frozen is the least solution over the table that the solver was given. -/
theorem freeze_represents {t : NodeTable} (ht : t.WellFormed) {config : Config} {order : Schedule}
    {cs : List Constraint} {calls : List Call}
    (h : ((new config order t cs).afterAll calls).freeze = .ok g) :
    g.Represents t (leastSolution t config.fieldSensitive cs) := by
  have hblank := blank_new ht config order cs
  have hreached := reached_new ht config order cs calls
  have hwf := hreached.wellFormed hblank
  obtain ⟨hsolved, hg⟩ := freeze_eq_ok h
  have hnodes : g.nodes = ((new config order t cs).afterAll calls).table.nodes := by rw [hg]; rfl
  refine ⟨hnodes.trans (hreached.extends hblank).nodes_eq, fun n => ?_, fun n => ?_⟩
  · rw [pointsTo_freeze hwf h, pointsTo_eq hwf]
    exact (hwf.proper _).pts_ascending
  · rw [pointsTo_freeze hwf h]
    exact family_eq_leastSolution ht config order cs calls hsolved n

end Solver

end PointsTo

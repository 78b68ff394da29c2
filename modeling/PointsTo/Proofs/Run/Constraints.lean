import PointsTo.Proofs.Run.Building

/-!
# Runs over more constraints

What a run gives depends on the set of its constraints, and grows with it. This
cannot be seen by following two runs side by side: a constraint more can keep the
reduction from joining two classes, so that nodes are merged in the smaller run
that are kept apart in the larger one, and nothing that happens to the one has a
counterpart in the other. But each of them gives a least solution, and what
satisfies more constraints satisfies fewer.
-/

namespace PointsTo

namespace Run

section Constraints

variable {r s r' s' : Run} {t : NodeTable} {cs ds : List Constraint}

/-- Of two runs over one table, the one with more constraints gives the larger sets. If
they differ only in the order or the number of their constraints, the sets are the same. -/
theorem solve_monotone {c : Config} (hr : new c = .ok r) (choices choices' : Choices)
    (requests requests' : List Request)
    (hbuilding : (afterAll { r with choices } requests).state = .building t cs)
    (hbuilding' : (afterAll { r with choices := choices' } requests').state = .building t ds)
    (hsub : ∀ c ∈ cs, c ∈ ds) {g g' : Graph}
    (hg : solve (afterAll { r with choices } requests) = .ok g r')
    (hg' : solve (afterAll { r with choices := choices' } requests') = .ok g' s') :
    (∀ n, ∀ o ∈ g.pointsTo n, o ∈ g'.pointsTo n) ∧
      ((∀ c ∈ ds, c ∈ cs) → ∀ n, g.pointsTo n = g'.pointsTo n) := by
  obtain ⟨_, rfl⟩ := new_eq_ok_iff.1 hr
  have hbuilt : Built c.limits t := built_afterAll rfl hbuilding
  have hgraph := represents_of_solve_eq_ok hbuilt.reachable.wellFormed hbuilding hg
  have hgraph' := represents_of_solve_eq_ok hbuilt.reachable.wellFormed hbuilding' hg'
  rw [config_afterAll] at hgraph hgraph'
  refine ⟨fun n o ho => ?_, fun hsup => ?_⟩
  · have hleast : o ∈ leastSolution t c.fieldSensitive cs n := hgraph.sets_eq n ▸ ho
    have hlarger := leastSolution_mono hsub n hleast
    exact (hgraph'.sets_eq n).symm.subset hlarger
  · have hsame : leastSolution t c.fieldSensitive ds = leastSolution t c.fieldSensitive cs :=
      funext fun n => (leastSolution_mono hsup n).antisymm (leastSolution_mono hsub n)
    exact hgraph.pointsTo_eq (hsame ▸ hgraph')

/-- The reduction joins the two variables of `Constraint.redundant`, but not if the second
one may also hold the address of the field. -/
theorem solve_monotone_redundant :
    ∃ g g' r s,
      solve ((ofPreset .balanced).afterAll Request.redundant) = .ok g r ∧
      solve ((ofPreset .balanced).afterAll
        (Request.redundant ++ [.constraints [.addrOf 1 3, .addrOf 0 2]])) = .ok g' s ∧
      g.representatives = #[0, 0, 2, 2] ∧ g'.representatives = #[0, 1, 2, 2] ∧
      ∀ n, ∀ o ∈ g.pointsTo n, o ∈ g'.pointsTo n := by
  have hrun : ∃ g r, solve ((ofPreset .balanced).afterAll Request.redundant) = .ok g r ∧
      g.representatives = #[0, 0, 2, 2] := Action.Ends.exists_ok (by decide +kernel)
  have hrun' : ∃ g s, solve ((ofPreset .balanced).afterAll
        (Request.redundant ++ [.constraints [.addrOf 1 3, .addrOf 0 2]])) = .ok g s ∧
      g.representatives = #[0, 1, 2, 2] := Action.Ends.exists_ok (by decide +kernel)
  obtain ⟨g, r, hg, hreps⟩ := hrun
  obtain ⟨g', s, hg', hreps'⟩ := hrun'
  have hbuilding : ((ofPreset .balanced).afterAll Request.redundant).state =
      .building .sample Constraint.redundant := rfl
  have hbuilding' : ((ofPreset .balanced).afterAll
      (Request.redundant ++ [.constraints [.addrOf 1 3, .addrOf 0 2]])).state =
      .building .sample (Constraint.redundant ++ [.addrOf 1 3, .addrOf 0 2]) := rfl
  have hgrows := solve_monotone (new_eq_ok_iff.2 ⟨rfl, rfl⟩) {} {}
    _ _ hbuilding hbuilding' (fun _ hc => List.mem_append_left _ hc) hg hg'
  exact ⟨g, g', r, s, hg, hg', hreps, hreps', hgrows.1⟩

end Constraints

end Run

end PointsTo

import PointsTo.Proofs.Limits
import PointsTo.Proofs.Reduction.Failure

/-!
# Reductions that fail

The bound on merges can be met in the middle of a group, in any round, and what has been
merged by then stays merged. It does no harm. A merge is not justified by the group being
merged to the end: its two classes have the same least set, whatever becomes of the other
members. So a table that was merged in part stands for the same problem as before, and
the constraints that were not reduced have the same least solution over it.
-/

namespace PointsTo

namespace Reduction

section Partial

variable {t u : NodeTable} {config : Config} {cs : List Constraint} {e : AnalysisError}

/-- The constraints as they came in have the same least solution over the table that a failed
reduction leaves. -/
theorem leastSolution_of_failed (ht : t.WellFormed) (h : reduce config cs t = .error e u)
    (n : Nat) :
    leastSolution u config.fieldSensitive cs n = leastSolution t config.fieldSensitive cs n :=
  ((reduce_ends ht config cs).of_eq_error h).leastSolution_eq (fun _ _ => Iff.rfl) n

/-- A reduction that fails does so at a constraint that is not well formed, and then the table is
as it was; or it runs out of merges. In this case no merge was made beyond the bound, the table
is still a reachable one, and the least solution of the constraints that came in is the same
for every node. -/
theorem reduce_fails_soundly (ht : t.Reachable) (h : reduce config cs t = .error e u) :
    ((∃ index reason, e = .invalidConstraint index reason) ∧ u = t) ∨
    ∃ limit, e = .resourceExceeded .merges limit ∧ t.maxMerges = some limit ∧
      u.merges ≤ max limit t.merges ∧ u.Reachable ∧
      ∀ n, leastSolution u config.fieldSensitive cs n =
        leastSolution t config.fieldSensitive cs n := by
  rcases (reduce_merges ht.wellFormed config cs).of_eq_error h with
    hinvalid | ⟨limit, hlimit, rfl⟩
  · have hrefused := reduce_refuses hinvalid
    rw [h] at hrefused
    cases hrefused
    exact .inl ⟨NodeTable.exists_invalidConstraint_of_validate hinvalid, rfl⟩
  · have hmergesTo := (maintains_reduce config cs t .refl).of_eq_error h
    have hreduces := (reduce_ends ht.wellFormed config cs).of_eq_error h
    exact .inr ⟨limit, rfl, hlimit, hmergesTo.merges_le_max hlimit, hreduces.reachable ht,
      leastSolution_of_failed ht.wellFormed h⟩

/-- With room for one merge the fields of the object are joined, and the variables are not,
although they have the same set. With a copy from a node that is not there, nothing is joined. -/
theorem reduce_fails_soundly_redundant :
    (∃ e u, reduce (Preset.config .balanced) Constraint.redundant
        (NodeTable.sample.applyLimits { maxMerges := some 1 }) = .error e u ∧
      e = .resourceExceeded .merges 1 ∧ u.merges = 1 ∧ u.root 3 = 2 ∧ u.Reachable ∧
      ∀ n, leastSolution u true Constraint.redundant n =
        leastSolution (NodeTable.sample.applyLimits { maxMerges := some 1 }) true
          Constraint.redundant n) ∧
    ∃ index reason, reduce (Preset.config .balanced) (Constraint.redundant ++ [.copy 1 5]) .sample =
      .error (.invalidConstraint index reason) .sample := by
  constructor
  · have hfails : ∃ e u, reduce (Preset.config .balanced) Constraint.redundant
        (NodeTable.sample.applyLimits { maxMerges := some 1 }) = .error e u ∧
        e = .resourceExceeded .merges 1 ∧ u.merges = 1 ∧ u.root 3 = 2 :=
      Action.Ends.exists_error (by decide +kernel)
    obtain ⟨_, u, hreduce, rfl, hmerges, hroot⟩ := hfails
    rcases reduce_fails_soundly (.applyLimits _ NodeTable.reachable_sample) hreduce with
      ⟨⟨_, _, he⟩, _⟩ | ⟨_, _, _, _, hreachable, hleast⟩
    · cases he
    · exact ⟨_, u, hreduce, rfl, hmerges, hroot, hreachable, hleast⟩
  · have hfails : ∃ e u, reduce (Preset.config .balanced) (Constraint.redundant ++ [.copy 1 5])
        .sample = .error e u ∧ ∀ limit, e ≠ .resourceExceeded .merges limit :=
      ⟨_, _, rfl, nofun⟩
    obtain ⟨_, _, hreduce, hne⟩ := hfails
    rcases reduce_fails_soundly NodeTable.reachable_sample hreduce with
      ⟨⟨index, reason, rfl⟩, rfl⟩ | ⟨limit, he, _⟩
    · exact ⟨index, reason, hreduce⟩
    · exact absurd he (hne limit)

end Partial

end Reduction

end PointsTo

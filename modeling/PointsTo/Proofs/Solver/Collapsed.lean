import PointsTo.Solver.Collapse
import PointsTo.Proofs.Reduction.Collapsed

/-!
# Collapsing before and while solving

A solver merges what a search for cycles finds as a reduction does before, from left
to right and on with the class that stays. It moves sets besides, which takes nothing
from the table and cannot fail. So on the table the two do the same, and a cycle
collapses in a solver as far as it does in a reduction.
-/

namespace PointsTo

namespace Solver

theorem collapse_mirrors (a b : Nat) :
    Action.Mirrors table (collapse a b) (Reduction.merge a b) := by
  intro s
  rw [collapse, Action.ends_bind, Action.ends_get]
  split
  next e herror =>
    change Reduction.merge a b s.table = .error e s.table
    rw [Reduction.merge, Action.ofStep, herror]
  next rep table hmerge =>
    change Reduction.merge a b s.table = .ok rep table
    rw [Reduction.merge, Action.ofStep, hmerge]

theorem collapseGroup_mirrors (g : List Nat) :
    Action.Mirrors table (collapseGroup g) (Reduction.mergeGroup g) := by
  cases g with
  | nil => exact Action.mirrors_pure 0
  | cons first others =>
      refine (Action.mirrors_foldlM collapse_mirrors others first).bind fun rep => ?_
      exact (Action.mirrors_pure others.length).modify_bind fun _ => rfl

theorem collapseComponent_mirrors (members : List Nat) :
    Action.Mirrors table (collapseComponent members) (do
      Reduction.mergeGroups ((← get).mergeableGroups members)) := by
  intro s
  rw [collapseComponent, Action.ends_bind, Action.ends_get]
  refine Action.mirrors_foldlM (fun count g => ?_) _ 0 s
  exact (collapseGroup_mirrors g).bind fun merged => Action.mirrors_pure (count + merged)

end Solver

namespace NodeTable

/-- The groups of a cycle have no member in common, and each is ascending and has at least
two. If no bound is set, merging them from left to right is never refused, before a run or
in a solver, and leaves one class of members for each kind of special node that was among
them, but at least one. -/
theorem Reachable.collapsed_as_far_as_allowed {t : NodeTable} {members : List Nat}
    (ht : t.Reachable) (hbound : t.maxMerges = none) (hne : members ≠ [])
    (hnodup : members.Nodup) (hroots : ∀ m ∈ members, t.root m = m ∧ m < t.size) :
    (t.mergeableGroups members).Pairwise List.Disjoint ∧
    (∀ g ∈ t.mergeableGroups members, g ⊆ members ∧ g.Pairwise (· < ·) ∧ 2 ≤ g.length) ∧
    (∃ merges u, Reduction.mergeGroups (t.mergeableGroups members) t = .ok merges u ∧
      (u.classesOf members).card = max 1 (t.kinds members).card) ∧
    ∀ s : Solver, s.table = t → ∃ merges s', Solver.collapseComponent members s = .ok merges s' ∧
      (s'.table.classesOf members).card = max 1 (t.kinds members).card := by
  obtain ⟨merges, u, hmerged, hcard⟩ :=
    Reduction.mergeGroups_collapses ht hbound hne hnodup hroots
  refine ⟨(nodup_mergeableGroups hnodup).2, fun g hg => ⟨?_, ?_, ?_⟩, ⟨merges, u, hmerged, hcard⟩,
    fun s hs => ?_⟩
  · exact fun m hm => mem_of_mem_mergeableGroups hg hm
  · exact pairwise_lt_of_mem_mergeableGroups hnodup hg
  · exact one_lt_length_of_mem_mergeableGroups hg
  · have hcomponent := Solver.collapseComponent_mirrors members
    obtain ⟨s', hs', htable⟩ := hcomponent.exists_ok (s := s) (a := merges) (t := u) (by
      rw [hs]
      exact hmerged)
    exact ⟨merges, s', hs', by rw [htable, hcard]⟩

/-- The nodes of `mixed`, another null node `4` and a variable `5`. -/
def mixedTwice : NodeTable := (mixed.append (.special .null)).append .value

theorem reachable_mixedTwice : mixedTwice.Reachable := by
  have hnull : mixed.addSpecial .null = .ok (4, mixed.append (.special .null)) := rfl
  have hvalue : (mixed.append (.special .null)).addValue = .ok (5, mixedTwice) := rfl
  exact .addValue (.addSpecial reachable_mixed hnull) hvalue

/-- The node of unknown memory comes first, so the variables join it and not the null nodes. -/
theorem collapsed_mixedTwice :
    let s := Solver.new (Preset.config .thorough) .newest mixedTwice []
    mixedTwice.mergeableGroups [5, 3, 2, 0, 4] = [[0, 3, 5], [2, 4]] ∧
      ([[0, 3, 5], [2, 4]] : List (List Nat)).Pairwise List.Disjoint ∧
      (∃ merges u, Reduction.mergeGroups [[0, 3, 5], [2, 4]] mixedTwice = .ok merges u ∧
        (u.classesOf [5, 3, 2, 0, 4]).card = 2) ∧
      ∃ merges s', Solver.collapseComponent [5, 3, 2, 0, 4] s = .ok merges s' ∧
        (s'.table.classesOf [5, 3, 2, 0, 4]).card = 2 := by
  intro s
  have hgroups : mixedTwice.mergeableGroups [5, 3, 2, 0, 4] = [[0, 3, 5], [2, 4]] := by
    decide +kernel
  have hkinds : (mixedTwice.kinds [5, 3, 2, 0, 4]).card = 2 := by decide +kernel
  obtain ⟨hdisjoint, _, hmerged, hcollapsed⟩ := Reachable.collapsed_as_far_as_allowed
    reachable_mixedTwice rfl (List.cons_ne_nil 5 [3, 2, 0, 4]) (by decide) (by decide +kernel)
  rw [hgroups, hkinds] at hmerged
  rw [hkinds] at hcollapsed
  exact ⟨hgroups, hgroups ▸ hdisjoint, hmerged, hcollapsed s rfl⟩

end NodeTable

end PointsTo

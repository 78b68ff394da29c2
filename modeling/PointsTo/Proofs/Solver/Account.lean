import PointsTo.Proofs.Solver.Limits

/-!
# The account in every state

The account of a solver is the sum of the sizes of its sets whatever calls of `step`
and `solve` have come to, a failure in the middle of passing pointees on included. The
sum that a merge takes from it has been in a set of the solver, so it is on the account
and nothing has to be cut off at zero.
-/

namespace PointsTo

/-- Over the table of `NodeTable.sample`, with `p` and `q` for the variables and `o` for the
object: `p = &o`, `p = &(o + 1)`, `q = &(o + 1)`, `p = q`, `q = p`. The two variables are a
cycle, and the set of one is part of the other. -/
def Constraint.overlapping : List Constraint :=
  [addrOf 0 2, addrOf 0 3, addrOf 1 3, copy 0 1, copy 1 0]

namespace Solver

/-- What goes off the account when the cell of `gone` is moved into that of `rep` is on it. -/
def Affords (s : Solver) (rep gone : Nat) : Prop :=
  (s.cell gone).pts.size ≤ s.membership + ((s.cell rep).pts.union (s.cell gone).pts).2

section Account

variable {config : Config} {t : NodeTable} {s u : Solver} {a b : Nat}

/-- A set of the solver is on the account. -/
theorem Within.affords (h : s.Within config t) (rep gone : Nat) : s.Affords rep gone := by
  have hset : (s.cell gone).pts.size ≤ s.store.held := s.store.setSize_le_held gone
  exact (hset.trans h.held_le).trans (Nat.le_add_right s.membership _)

/-- Whatever calls of `step` and `solve` come to (`attains_afterAll`), the account is the sum
of the sizes of all sets. It is within the bound unless the solver is aborted, and the
statistics of a solved solver give it. An advance never merges two classes with more to
take off the account than is on it. -/
theorem account_of_memberships (ht : t.Reachable) (config : Config) (order : Schedule)
    (cs : List Constraint) (hs : (new config order t cs).Attains s) :
    s.membership = ∑ n ∈ Finset.range s.cells.size, (s.cell n).pts.size ∧
    (s.phase ≠ .aborted → ∀ limit ∈ config.limits.maxMembership, s.membership ≤ limit) ∧
    (s.phase = .solved →
      s.stats.totalMemberships = ∑ n ∈ Finset.range s.cells.size, (s.cell n).pts.size) ∧
    (s.phase = .running → ∀ a b u, s.CallsInAdvance a b u → ∀ rep table,
      u.table.merge a b = .ok (rep, table) → u.Affords rep (if rep = a then b else a)) := by
  have hblank := blank_new ht.wellFormed config order cs
  have hheld : s.store.held = s.membership := (hs.reached hblank).held_eq hblank rfl
  have hobeys := hs.obeys (within_new ht.wellFormed config order cs)
  refine ⟨hheld.symm, fun hphase => (hobeys.within hphase).membership_le, fun hphase => ?_, ?_⟩
  · exact (hs.totalMemberships_eq hblank hphase).trans hheld.symm
  · intro hphase a b u hcalls rep table _
    have hwithin : s.Within config (t.applyLimits config.limits) :=
      hobeys.within (by rw [hphase]; exact Phase.noConfusion)
    exact (hcalls.within hwithin).affords rep _

/-- Three memberships are seeded. With room for them the cycle is merged, and two are left of
them. A bound of two aborts the solver, and the third, which was past the bound, is still on
the account. -/
theorem account_of_memberships_overlapping :
    let bounded := fun limit => new ((Preset.config .thorough).setAll
      [.optimize false, .sccInterval 1, .maxMembership (some limit)]) .newest .sample
      Constraint.overlapping
    let s := (bounded 3).afterAll [.step]
    let v := (bounded 3).afterAll [.solve]
    let w := (bounded 2).afterAll [.step, .solve]
    (s.membership = 3 ∧ s.membership ≤ 3 ∧ ∃ u rep table, s.CallsInAdvance 0 1 u ∧
      u.table.merge 0 1 = .ok (rep, table) ∧ u.Affords rep (if rep = 0 then 1 else 0)) ∧
    (v.phase = .solved ∧ v.membership = 2 ∧
      v.stats.totalMemberships = ∑ n ∈ Finset.range v.cells.size, (v.cell n).pts.size) ∧
    (w.phase = .aborted ∧ w.membership = 3 ∧
      w.membership = ∑ n ∈ Finset.range w.cells.size, (w.cell n).pts.size) := by
  intro bounded s v w
  have hattains : ∀ limit calls, (bounded limit).Attains ((bounded limit).afterAll calls) :=
    fun limit calls =>
      attains_afterAll (blank_new NodeTable.reachable_sample.wellFormed _ _ _) calls
  have hs : (bounded 3).Attains s := hattains 3 [.step]
  have hv : (bounded 3).Attains v := hattains 3 [.solve]
  have hw : (bounded 2).Attains w := hattains 2 [.step, .solve]
  obtain ⟨_, hbound, _, hmerge⟩ := account_of_memberships NodeTable.reachable_sample _ _ _ hs
  obtain ⟨_, _, htotal, _⟩ := account_of_memberships NodeTable.reachable_sample _ _ _ hv
  obtain ⟨hsum, _⟩ := account_of_memberships NodeTable.reachable_sample _ _ _ hw
  have hrunning : s.phase = .running := by decide +kernel
  have hsolved : v.phase = .solved := by decide +kernel
  have hle : s.membership ≤ 3 := hbound (by rw [hrunning]; exact Phase.noConfusion) 3 rfl
  refine ⟨⟨by decide +kernel, hle, ?_⟩, ⟨hsolved, by decide +kernel, htotal hsolved⟩,
    ⟨by decide +kernel, by decide +kernel, hsum⟩⟩
  let u : Solver :=
    { s with recent := {}, sinceScc := 0, stats.sccPasses := s.stats.sccPasses + 1 }
  have hdue : 0 < s.config.sccInterval ∧ s.config.sccInterval ≤ s.sinceScc := by decide +kernel
  have hcomponents : (s.copyGraph.components s.searchRoots).members = [[0, 1]] := by
    decide +kernel
  have hgroups : s.table.mergeableGroups [0, 1] = [[0, 1]] := by decide +kernel
  have hcalls : s.CallsInAdvance 0 1 u := callsInAdvance_of_due hdue hcomponents hgroups
  have hok : (u.table.merge 0 1).isOk = true := by decide +kernel
  cases hmerged : u.table.merge 0 1 with
  | error e => simp [hmerged, Except.isOk, Except.toBool] at hok
  | ok result => exact ⟨u, _, _, hcalls, hmerged, hmerge hrunning 0 1 u hcalls _ _ hmerged⟩

end Account

end Solver

end PointsTo

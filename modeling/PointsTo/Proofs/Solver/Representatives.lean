import PointsTo.Proofs.Solver.Failure
import PointsTo.Proofs.Solver.Freeze

/-!
# State is kept at representatives

The cell of a node that has lost its place to a representative is empty, so
nothing may ever be written there again, and a merge must not be asked to move
the cell of a class into itself. A search hands on groups without a member in
common from its components down to the single merges, and of each group one
member is joined to the class of those before it. So wherever `collapse` is
called (`CallsInSearch`, `CallsInAdvance`) it gets two representatives, and they
are different.

A merge is then refused only for the bound on merges. All others are counted, so
at the end of a run the count is what the number of merges has grown by.
-/

namespace PointsTo

namespace Solver

/-- `collapse a b` gets two different representatives, and moves the cell of one of
them into the cell of the other, unless the bound on merges is used up. -/
structure Unites (s : Solver) (a b : Nat) : Prop where
  ne : a ≠ b
  root_left : s.table.root a = a
  root_right : s.table.root b = b
  collapse_ends : Action.Ends (collapse a b) s
    (fun rep t => ∃ gone, (rep = a ∧ gone = b ∨ rep = b ∧ gone = a) ∧
      Store.Moves s.store t.store rep gone ∧ t.table.merges = s.table.merges + 1)
    (fun e t => t = s ∧ ∃ limit, s.table.mergesUsedUp? = some limit ∧
      e = .resourceExceeded .merges limit)

/-! ## Where classes are collapsed -/

/-- The merging of a group from `s` on calls `collapse a b` in the state `u`. -/
def CallsInGroup (s : Solver) : List Nat → Nat → Nat → Solver → Prop
  | [], _, _, _ => False
  | first :: others, a, b, u => Action.Visits collapse others first s a b u

/-- The same for what can be merged of one cycle. -/
def CallsInComponent (s : Solver) (members : List Nat) (a b : Nat) (u : Solver) : Prop :=
  ∃ merged group t,
    Action.Visits (fun merged group => do return merged + (← collapseGroup group))
      (s.table.mergeableGroups members) 0 s merged group t ∧
    t.CallsInGroup group a b u

/-- The same for a search for cycles. -/
def CallsInSearch (s : Solver) (a b : Nat) (u : Solver) : Prop :=
  ∃ merged members t,
    Action.Visits (fun merged members => do return merged + (← collapseComponent members))
      (s.copyGraph.components s.searchRoots).members 0
      { s with recent := {}, sinceScc := 0, stats.sccPasses := s.stats.sccPasses + 1 }
      merged members t ∧
    t.CallsInComponent members a b u

/-- An advance of `s` searches for cycles in the state `t`: because a search is due, or for
want of a node to process. -/
inductive Searching (s : Solver) : Solver → Prop
  | first (h : 0 < s.config.sccInterval ∧ s.config.sccInterval ≤ s.sinceScc ∨
      s.worklist.pop? = none) : Searching s s
  | again {merged : Nat} {t : Solver}
      (hdue : 0 < s.config.sccInterval ∧ s.config.sccInterval ≤ s.sinceScc)
      (h : detectCycles s = .ok merged t) (hpop : t.worklist.pop? = none) : Searching s t

/-- An advance of `s` calls `collapse a b` in the state `u`. -/
def CallsInAdvance (s : Solver) (a b : Nat) (u : Solver) : Prop :=
  ∃ t, s.Searching t ∧ t.CallsInSearch a b u

section Calls

variable {s s₀ t u : Solver} {a b : Nat} {g members others : List Nat}
  {groups later : List (List Nat)}

/-- A search that is due begins with the first two members of the first group. -/
theorem callsInAdvance_of_due {components : List (List Nat)}
    (hdue : 0 < s.config.sccInterval ∧ s.config.sccInterval ≤ s.sinceScc)
    (hcomponents : (s.copyGraph.components s.searchRoots).members = members :: components)
    (hgroups : s.table.mergeableGroups members = (a :: b :: others) :: groups) :
    s.CallsInAdvance a b
      { s with recent := {}, sinceScc := 0, stats.sccPasses := s.stats.sccPasses + 1 } := by
  let u : Solver :=
    { s with recent := {}, sinceScc := 0, stats.sccPasses := s.stats.sccPasses + 1 }
  have hcomponent : u.CallsInComponent members a b u := by
    refine ⟨0, a :: b :: others, u, ?_, .head⟩
    change Action.Visits _ (s.table.mergeableGroups members) 0 u 0 _ u
    rw [hgroups]
    exact .head
  refine ⟨s, .first (.inl hdue), 0, members, u, ?_, hcomponent⟩
  rw [hcomponents]
  exact .head

theorem unites_of_mergeable (hs : s.store.WellFormed)
    (hm : s.store.Mergeable ((a :: b :: others) :: (groups ++ later)))
    (hj : s.table.Joinable ((a :: b :: others) :: groups) later) : s.Unites a b := by
  have ha := hm.roots _ List.mem_cons_self a List.mem_cons_self
  have hb := hm.roots _ List.mem_cons_self b (List.mem_cons_of_mem a List.mem_cons_self)
  have hne : a ≠ b := (Store.mergeable_iff.1 hm).1.ne
  refine ⟨hne, ha.root_eq, hb.root_eq,
    ((collapse_moves hs ha hb hne).and (joins_collapse.merge hj)).imp ?_ ?_⟩
  · rintro rep t ⟨⟨gone, hcases, hmoves, _⟩, _⟩
    exact ⟨gone, hcases, hmoves, hmoves.absorbs.merges_eq⟩
  · rintro e t ⟨⟨rfl, _⟩, hlimit⟩
    exact ⟨rfl, hlimit⟩

/-- The class of the members so far and the next member are different representatives. -/
theorem CallsInGroup.unites (hcalls : s.CallsInGroup g a b u) (h : s.Steady)
    (hm : s.store.Mergeable (g :: (groups ++ later)))
    (hj : s.table.Joinable (g :: groups) later) : u.Unites a b := by
  cases g with
  | nil => exact hcalls.elim
  | cons first others =>
      have hlate : s.Tracks s.store.Passed s.store.Passed fun n => n = first :=
        { h with pending := fun n o ho hdone => (h.pending n o ho hdone).imp_right False.elim }
      refine (hcalls.inv (fun rest rep t =>
        (t.Tracks t.store.Passed t.store.Passed fun n => n = rep) ∧
          t.store.Mergeable ((rep :: rest) :: (groups ++ later)) ∧
          t.table.Joinable ((rep :: rest) :: groups) later) ?_ ⟨hlate, hm, hj⟩).elim ?_
      · rintro b rest rep t ⟨ht, hmt, hjt⟩
        refine ((collapse_ends ht hmt).and (joins_collapse.merge hjt)).imp ?_ fun _ _ _ => trivial
        exact fun _ u ⟨⟨_, hu, hmu, _⟩, hju, _⟩ => ⟨hu, hmu, hju⟩
      · exact fun rest ⟨hu, hmu, hju⟩ => unites_of_mergeable hu.store hmu hju

theorem CallsInComponent.unites (hcalls : s.CallsInComponent members a b u) (h : s.Steady)
    (hm : s.store.Mergeable (members :: later)) (hj : s.table.Joinable [] (members :: later)) :
    u.Unites a b := by
  obtain ⟨_, group, t, hvisits, hcalls⟩ := hcalls
  refine (hvisits.inv (fun rest _ t => t.Steady ∧ t.store.Mergeable (rest ++ later) ∧
      t.table.Joinable rest later ∧ ∀ g ∈ rest, 1 < g.length) ?_
    ⟨h, hm.split, hj.split, fun _ => NodeTable.one_lt_length_of_mem_mergeableGroups⟩).elim ?_
  · rintro g rest merged t ⟨ht, hmt, hjt, hlens⟩
    rw [List.forall_mem_cons] at hlens
    refine Action.Ends.bind (((collapseGroup_ends ht hmt hlens.1).and
      (collapseGroup_merges hjt)).imp_error fun _ _ _ => trivial) ?_
    exact fun _ u ⟨⟨⟨_, hu, hmu⟩, _⟩, hju, _⟩ => ⟨hu, hmu, hju, hlens.2⟩
  · exact fun rest ⟨ht, hmt, hjt, _⟩ => hcalls.unites ht hmt hjt

theorem CallsInSearch.unites (hcalls : s.CallsInSearch a b u) (h : s.Steady) : u.Unites a b := by
  obtain ⟨_, members, t, hvisits, hcalls⟩ := hcalls
  have hstart : ({ s with
      recent := {}, sinceScc := 0, stats.sccPasses := s.stats.sccPasses + 1 } : Solver).Steady := by
    refine h.congr rfl rfl rfl ⟨h.orderly.queue_lt, NodeSet.ascending_empty, ?_⟩
    exact fun n hn => absurd hn (NodeSet.not_mem_default n)
  refine (hvisits.inv (fun rest _ t => t.Steady ∧ t.store.Mergeable rest ∧
      t.table.Joinable [] rest) ?_
    ⟨hstart, components_mergeable h.store _, components_joinable h.store _⟩).elim ?_
  · rintro members rest merged t ⟨ht, hmt, hjt⟩
    refine Action.Ends.bind (((collapseComponent_ends ht hmt).and
      (collapseComponent_merges hjt)).imp_error fun _ _ _ => trivial) ?_
    exact fun _ u ⟨⟨⟨_, hu, hmu⟩, _⟩, hju, _⟩ => ⟨hu, hmu, hju⟩
  · exact fun rest ⟨ht, hmt, hjt⟩ => hcalls.unites ht hmt hjt

theorem CallsInAdvance.unites (hcalls : s.CallsInAdvance a b u) (h : s.Steady) :
    u.Unites a b := by
  obtain ⟨t, hsearching, hcalls⟩ := hcalls
  cases hsearching with
  | first => exact hcalls.unites h
  | again _ hsearch _ =>
      exact hcalls.unites ((detectCycles_ends h).of_eq_ok hsearch).2.1

end Calls

/-! ## Runs -/

section Runs

variable {s s₀ u v : Solver}

theorem Drains.counts (hs₀ : s₀.Blank) {r : EStateM.Result AnalysisError Solver Unit}
    (h : s.Drains r) (hs : Reached s₀ s) (hphase : s.phase = .running)
    (hr : r = .ok () v) : s.Counts v := by
  induction h with
  | failed => cases hr
  | fixpoint hadvance =>
      cases hr
      exact (advance_counts hs₀ hs hphase).of_eq_ok hadvance
  | more hadvance _ ih =>
      have hends := (advance_ends hs₀ hs hphase).of_eq_ok hadvance
      exact ((advance_counts hs₀ hs hphase).of_eq_ok hadvance).trans (ih hends.1 hends.2.1 hr)

/-- A completed run has counted its merges. -/
theorem Reached.nodesCollapsed_eq (hs₀ : s₀.Blank) (h : Reached s₀ s)
    (hbegin : begin s = .ok () u) (hdrains : u.Drains (.ok () v)) :
    v.table.merges = s.table.merges + v.stats.nodesCollapsed := by
  obtain ⟨hreached, hphase⟩ := (begin_ends hs₀ h).of_eq_ok hbegin
  obtain ⟨_, htable, hzero⟩ := (begin_counts s).of_eq_ok hbegin
  obtain ⟨count, hmerges, hcount⟩ := (hdrains.counts hs₀ hreached hphase rfl).merges
  rw [hzero, Nat.zero_add] at hcount
  rw [hmerges.merges_eq, htable, hcount]

/-- Only representatives have cells in use, in every solver that calls of `step` and `solve`
come to (`attains_afterAll`) or come through. What an advance merges are two different
representatives, and the one that stays gets what the other one held. A run that is
completed has counted its merges, and a solver that is solved can be frozen. -/
theorem state_at_representatives {t : NodeTable} (ht : t.Reachable) (config : Config)
    (order : Schedule) (cs : List Constraint) (hs : (new config order t cs).Attains s) :
    (∀ n, s.table.root n ≠ n → s.cell n = {}) ∧
    (s.phase = .running → ∀ a b u, s.CallsInAdvance a b u → u.Unites a b) ∧
    (∀ u v, begin s = .ok () u → u.Drains (.ok () v) →
      v.table.merges = s.table.merges + v.stats.nodesCollapsed) ∧
    (s.phase = .solved → ∃ g, s.freeze = .ok g) := by
  have hblank := blank_new ht.wellFormed config order cs
  have hreached := hs.reached hblank
  have hwf := hreached.wellFormed hblank
  refine ⟨hwf.idle, fun hphase a b u hcalls => ?_, fun u v => ?_, freeze_ok hwf⟩
  · exact hcalls.unites (hreached.sound hblank (.inl hphase)).steady
  · exact hreached.nodesCollapsed_eq hblank

/-- The mixed program after its first step: a search is due, and it merges the variable
`1` with unknown memory, `3`. A run from there counts this merge, and leaves nothing at the
node that has been absorbed. -/
theorem state_at_representatives_mixed :
    let s := (new ((Preset.config .thorough).set (.sccInterval 1)) .newest .mixed
      Constraint.mixed).afterAll [.step]
    (s.phase = .running ∧ ∃ u, s.CallsInAdvance 1 3 u ∧ u.Unites 1 3) ∧
    (∃ u v, begin s = .ok () u ∧ u.Drains (.ok () v) ∧ v.stats.nodesCollapsed = 1 ∧
      v.table.merges = s.table.merges + v.stats.nodesCollapsed) ∧
    (s.after .solve).table.root 3 ≠ 3 ∧ (s.after .solve).cell 3 = {} ∧
      ∃ g, (s.after .solve).freeze = .ok g := by
  intro s
  have hblank := blank_new NodeTable.reachable_mixed.wellFormed
    ((Preset.config .thorough).set (.sccInterval 1)) .newest Constraint.mixed
  have hs : (new ((Preset.config .thorough).set (.sccInterval 1)) .newest .mixed
      Constraint.mixed).Attains s := attains_afterAll hblank [.step]
  have hstate := state_at_representatives NodeTable.reachable_mixed _ _ _ hs
  have hstate' := state_at_representatives NodeTable.reachable_mixed _ _ _ (hs.after hblank .solve)
  have hrunning : s.phase = .running := by decide +kernel
  refine ⟨⟨hrunning, ?_⟩, ?_, ?_⟩
  · let u : Solver :=
      { s with recent := {}, sinceScc := 0, stats.sccPasses := s.stats.sccPasses + 1 }
    have hdue : 0 < s.config.sccInterval ∧ s.config.sccInterval ≤ s.sinceScc := by decide +kernel
    have hcomponents : (s.copyGraph.components s.searchRoots).members = [[1, 3]] := by
      decide +kernel
    have hgroups : s.table.mergeableGroups [1, 3] = [[1, 3]] := by decide +kernel
    have hcalls : s.CallsInAdvance 1 3 u := callsInAdvance_of_due hdue hcomponents hgroups
    exact ⟨u, hcalls, hstate.2.1 hrunning 1 3 u hcalls⟩
  · have hbegin : Action.Ends begin s (fun _ _ => True) fun _ _ => False := by decide +kernel
    have hsolve : Action.Ends solve s (fun _ v => v.stats.nodesCollapsed = 1)
        fun _ _ => False := by decide +kernel
    have hdrains := (begin_drains hblank (hs.reached hblank)).1
    obtain ⟨_, u, hu, _⟩ := hbegin.exists_ok
    obtain ⟨_, v, hv, hone⟩ := hsolve.exists_ok
    rw [Action.Ends, hu, hv] at hdrains
    exact ⟨u, v, hu, hdrains, hone, hstate.2.2.1 u v hu hdrains⟩
  · have hgone : (s.after .solve).table.root 3 ≠ 3 := by decide +kernel
    exact ⟨hgone, hstate'.1 3 hgone, hstate'.2.2.2 (by decide +kernel)⟩

end Runs

end Solver

end PointsTo

import PointsTo.Proofs.Run.Lifecycle
import PointsTo.Proofs.Solver.Answers
import PointsTo.Proofs.Solver.Limits

/-!
# Runs within their limits

The bounds of a configuration reach the node table when the run is made and the
solver when the run is solved. Nodes are only created while the run is being
built, and only if there is room (`Built`); from then on the run merges classes,
first to reduce its constraints and then to collapse cycles, in one and the same
table with one count of merges; and the solver keeps its account. A frozen graph
counts all three anew, and since it is made of a solver within its limits, so is
the graph.
-/

namespace PointsTo

namespace Run

section Limits

variable {config : Config} {t u : NodeTable} {cs ds : List Constraint} {log : Log}

theorem Built.admits (ht : Built config.limits t) : config.limits.Admits t.size t.merges 0 where
  nodes_le k hk := by
    have hlimit : t.nodeLimit ≤ k := by
      rw [NodeTable.nodeLimit, ht.maxNodes_eq, hk]
      exact Nat.min_le_left _ _
    exact ht.size_le.trans hlimit
  merges_le k _ := by
    have hmerged : t.merged = ∅ := Finset.filter_eq_empty_iff.2 fun n _ hne => hne (ht.root_eq n)
    rw [← ht.reachable.card_merged, hmerged]
    exact Nat.zero_le k
  memberships_le k _ := Nat.zero_le k

/-- What is handed to the solver has been merged from what was collected. -/
theorem mergesTo_of_reduced (ht : t.Reachable) {stats : Option ReductionStats}
    (h : reduced config t cs = .ok (u, ds, stats)) : t.MergesTo u ∧ u.Reachable := by
  unfold reduced at h
  split at h
  next =>
    split at h
    next _ _ _ hreduce =>
      cases h
      have hreduces := (Reduction.reduce_ends ht.wellFormed config cs).of_eq_ok hreduce
      exact ⟨(Reduction.maintains_reduce config cs t .refl).of_eq_ok hreduce,
        hreduces.1.reachable ht⟩
    next => cases h
  next =>
    cases h
    exact ⟨.refl, ht⟩

/-- A solver puts bounds in force that are in force already. -/
theorem within_new (ht : Built config.limits t) (hmerges : t.MergesTo u) (hu : u.WellFormed)
    (order : Schedule) (ds : List Constraint) :
    (Solver.new config order u ds).Within config t := by
  have hwithin := Solver.within_new hu config order ds
  have htable : (Solver.new config order u ds).table = u := by
    obtain ⟨_, hcount⟩ := hmerges.merges
    rw [Solver.new, NodeTable.applyLimits, ← ht.maxNodes_eq, ← ht.maxMerges_eq,
      ← hcount.maxNodes_eq, ← hcount.maxMerges_eq, Option.or_self, Option.or_self]
  exact ⟨⟨rfl, htable.symm ▸ hmerges⟩, hwithin.held_le, hwithin.membership_le⟩

/-- A graph counts again what the solver has kept count of. -/
theorem admits_of_solved (ht : Built config.limits t) (hmerges : t.MergesTo u) (hu : u.Reachable)
    {order : Schedule} {g : Graph} {stats : SolverStats} {log' : Log}
    (h : solved (.new config order u ds) log = .ok (g, stats) log') :
    config.limits.Admits g.stats.totalNodes g.stats.mergedNodes g.stats.totalMemberships := by
  let s := (Solver.new config order u ds).afterAll [.solve]
  have hblank := Solver.blank_new hu.wellFormed config order ds
  have hattains : (Solver.new config order u ds).Attains s :=
    Solver.attains_afterAll hblank [.solve]
  have htable : s.table.Reachable :=
    (hattains.reached hblank).reachable hblank (.applyLimits config.limits hu)
  have hfreeze : s.freeze = .ok g := solved_eq_ok h
  obtain ⟨hphase, hg⟩ := Solver.freeze_eq_ok hfreeze
  have hnodes : g.stats.totalNodes = s.table.size := by rw [hg]; rfl
  rw [hnodes, Solver.mergedNodes_freeze htable hfreeze, Solver.totalMemberships_freeze hfreeze]
  refine (hattains.obeys (within_new ht hmerges hu.wellFormed order ds)).admits ht.maxMerges_eq
    ht.admits ?_
  rw [hphase]
  exact Phase.noConfusion

theorem analyze_admits (ht : Built config.limits t) (order : Schedule) (cs : List Constraint)
    (log : Log) :
    Action.Ends (analyze config order t cs) log
      (fun o _ => config.limits.Admits o.graph.stats.totalNodes o.graph.stats.mergedNodes
        o.graph.stats.totalMemberships)
      (fun _ _ => True) := by
  refine (analyze_ends_solved config order t cs log).imp ?_ fun _ _ _ => trivial
  rintro o _ ⟨u, ds, stats, _, _, hreduced, hsolved⟩
  obtain ⟨hmerges, hu⟩ := mergesTo_of_reduced ht.reachable hreduced
  exact admits_of_solved ht hmerges hu hsolved

/-- Only a request to solve it freezes a run, and what that gives is within the limits. -/
theorem admits_of_frozen {r : Run}
    (hr : r.state = .building (.withLimits r.config.limits.maxNodes r.config.limits.maxMerges) [])
    {requests : List Request} {o : Outcome} (h : (r.afterAll requests).state = .frozen o) :
    r.config.limits.Admits o.graph.stats.totalNodes o.graph.stats.mergedNodes
      o.graph.stats.totalMemberships := by
  induction requests using List.reverseRecOn with
  | nil => cases hr.symm.trans h
  | append_singleton requests q ih =>
      rw [afterAll_concat] at h
      have hturn := (r.afterAll requests).turn_after q
      rw [h] at hturn
      generalize hstate : (r.afterAll requests).state = state at hturn
      generalize (r.afterAll requests).answer q = a at hturn
      cases hturn with
      | frozen o q => exact ih hstate
      | @freeze t cs o =>
          have hbuilt := built_afterAll hr hstate
          rw [← r.config_afterAll requests] at hbuilt ⊢
          have hanalyze := analyze_admits hbuilt (r.afterAll requests).schedule cs
            (r.afterAll requests).log
          rw [after, state_solve hstate] at h
          unfold Action.Ends at hanalyze
          split at h
          next o' log ho =>
            cases h
            rwa [ho] at hanalyze
          next => cases h

/-- A frozen graph is within the limits of the configuration, whatever was requested. So is
a run before: no merges could take the table past its bounds, and while the run is solved,
the table and the sets are within them at every moment, but for the sets of a solver that
is aborted. -/
theorem limits_respected {c : Config} {r s : Run} (hr : new c = .ok r) (choices : Choices)
    (requests : List Request) (hs : afterAll { r with choices } requests = s) :
    (∀ o, s.state = .frozen o → c.limits.Admits o.graph.stats.totalNodes
      o.graph.stats.mergedNodes o.graph.stats.totalMemberships) ∧
    ∀ t cs, s.state = .building t cs →
      (∀ u, t.MergesTo u → c.limits.Admits u.size u.merges 0) ∧
      t.MergesTo (Action.state (Reduction.reduce c cs) t) ∧
      ∀ u ds stats v, reduced c t cs = .ok (u, ds, stats) →
        (Solver.new c s.schedule u ds).PassesThrough v →
        t.MergesTo v.table ∧
          (v.phase ≠ .aborted → c.limits.Admits v.table.size v.table.merges v.store.held) := by
  obtain ⟨_, rfl⟩ := new_eq_ok_iff.1 hr
  subst hs
  refine ⟨fun o ho => admits_of_frozen rfl ho, fun t cs hbuilding => ?_⟩
  have hbuilt : Built c.limits t := built_afterAll rfl hbuilding
  refine ⟨fun u hu => hu.admits hbuilt.maxMerges_eq hbuilt.admits, ?_, ?_⟩
  · exact (Reduction.maintains_reduce c cs t .refl).state
  · intro u ds stats v hreduced hv
    obtain ⟨hmerges, hu⟩ := mergesTo_of_reduced hbuilt.reachable hreduced
    have hobeys := hv.obeys (within_new hbuilt hmerges hu.wellFormed _ ds)
    exact ⟨hobeys.mergesTo, hobeys.admits hbuilt.maxMerges_eq hbuilt.admits⟩

/-- The sample run needs four nodes, one merge and three memberships, and is solved under
limits that allow just as many. -/
theorem limits_respected_redundant :
    let c := (Preset.config .thorough).setAll [.optimize false, .sccInterval 1,
      .maxNodes (some 4), .maxMerges (some 1), .maxMembership (some 3)]
    (∃ o, ((ofConfig c).afterAll (Request.redundant ++ [.solve])).state = .frozen o ∧
      (o.graph.stats.totalNodes, o.graph.stats.mergedNodes, o.graph.stats.totalMemberships) =
        (4, 1, 3) ∧
      c.limits.Admits o.graph.stats.totalNodes o.graph.stats.mergedNodes
        o.graph.stats.totalMemberships) ∧
    ∃ t cs v, ((ofConfig c).afterAll Request.redundant).state = .building t cs ∧
      (Solver.new c .newest t cs).PassesThrough v ∧ v.phase = .solved ∧
      c.limits.Admits v.table.size v.table.merges v.store.held := by
  intro c
  have hnew : new c = .ok (ofConfig c) := new_eq_ok_iff.2 ⟨rfl, rfl⟩
  constructor
  · obtain ⟨o, ho⟩ : ∃ o, ((ofConfig c).afterAll (Request.redundant ++ [.solve])).state =
        .frozen o := exists_graph?_iff.1 (Option.isSome_iff_exists.1 (by decide +kernel))
    have hstats : ((ofConfig c).afterAll (Request.redundant ++ [.solve])).graph?.map
        (fun g => (g.stats.totalNodes, g.stats.mergedNodes, g.stats.totalMemberships)) =
        some (4, 1, 3) := by decide +kernel
    rw [graph?_of_frozen ho] at hstats
    have hlimits := limits_respected hnew {} (Request.redundant ++ [.solve])
      (s := (ofConfig c).afterAll _) rfl
    exact ⟨o, ho, Option.some.inj hstats, hlimits.1 o ho⟩
  · let t : NodeTable := { NodeTable.sample with maxNodes := some 4, maxMerges := some 1 }
    let v := (Solver.new c .newest t Constraint.redundant).afterAll [.solve]
    have hbuilding : ((ofConfig c).afterAll Request.redundant).state =
        .building t Constraint.redundant := rfl
    have hwf : t.WellFormed := (built_afterAll rfl hbuilding).reachable.wellFormed
    have hpasses : (Solver.new c .newest t Constraint.redundant).PassesThrough v :=
      .attained (Solver.attains_afterAll (Solver.blank_new hwf _ _ _) [.solve])
    have hsolved : v.phase = .solved := by decide +kernel
    have hlimits := limits_respected hnew {} Request.redundant
      (s := (ofConfig c).afterAll _) rfl
    have hsolver := (hlimits.2 t _ hbuilding).2.2 t Constraint.redundant none v rfl hpasses
    exact ⟨t, _, v, hbuilding, hpasses, hsolved, hsolver.2 (by simp [hsolved])⟩

end Limits

end Run

end PointsTo

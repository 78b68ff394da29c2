import PointsTo.Proofs.Reduction.Failure
import PointsTo.Proofs.Run.Building
import PointsTo.Proofs.Solver.Failure

/-!
# How a run can fail

A run that is being built has a table within its bounds, so `solve` cannot fail
for its size. The constraints that a reduction gives have no flaw, so the check
of the solver only ever finds one if nothing has been reduced, and then it is a
flaw of what was collected. Neither the reduction nor the solver merges what may
not be merged, and a solved solver can be frozen. What is left are a flaw in the
constraints, and the bounds on merges and memberships as far as the configuration
sets them (`Failure`).
-/

namespace PointsTo

theorem Constraint.firstFlaw?_congr {t u : NodeTable} (hnodes : u.nodes = t.nodes)
    (hcount : u.maxFieldCount = t.maxFieldCount) (fieldSensitive : Bool) (index : Nat)
    (cs : List Constraint) :
    firstFlaw? u fieldSensitive index cs = firstFlaw? t fieldSensitive index cs := by
  induction cs generalizing index with
  | nil => rfl
  | cons c cs ih => rw [firstFlaw?, firstFlaw?, flaw?_congr hnodes hcount, ih]

/-- What has been merged does not change which constraints are valid. -/
theorem NodeTable.validate_congr {t u : NodeTable} (hnodes : u.nodes = t.nodes)
    (hcount : u.maxFieldCount = t.maxFieldCount) (fieldSensitive : Bool) (cs : List Constraint) :
    u.validate fieldSensitive cs = t.validate fieldSensitive cs := by
  rw [validate, validate, Constraint.firstFlaw?_congr hnodes hcount]

namespace Run

/-- How a run that has collected `t` and `cs` may fail. -/
inductive Failure (config : Config) (t : NodeTable) (cs : List Constraint) : AnalysisError → Prop
  | flawed {index : Nat} {flaw : Flaw}
      (h : Constraint.firstFlaw? t config.fieldSensitive 0 cs = some (index, flaw)) :
      Failure config t cs (.invalidConstraint index flaw.message)
  | merges {limit : Nat} (h : config.limits.maxMerges = some limit) :
      Failure config t cs (.resourceExceeded .merges limit)
  | membership {limit : Nat} (h : config.limits.maxMembership = some limit) :
      Failure config t cs (.resourceExceeded .membership limit)

section Failure

variable {config : Config} {t u : NodeTable} {cs ds : List Constraint} {e : AnalysisError}
  {log : Log}

theorem failure_of_validate (h : t.validate config.fieldSensitive cs = .error e) :
    Failure config t cs e := by
  unfold NodeTable.validate at h
  split at h
  next index flaw hfirst =>
    cases h
    exact .flawed hfirst
  next => cases h

theorem failure_of_runsOut (hmaxMerges : u.maxMerges = config.limits.maxMerges)
    (h : u.RunsOut e) : Failure config t cs e := by
  obtain ⟨limit, hlimit, rfl⟩ := h
  exact .merges (hmaxMerges ▸ hlimit)

/-- What is handed to the solver: constraints without flaws, or what was collected. -/
structure Prepared (config : Config) (t : NodeTable) (cs : List Constraint) (u : NodeTable)
    (ds : List Constraint) : Prop where
  wellFormed : u.WellFormed
  merges : ∃ count, t.Merges count u
  validate (e : AnalysisError) : u.validate config.fieldSensitive ds = .error e →
    t.validate config.fieldSensitive cs = .error e

theorem prepared_of_reduced (ht : Built config.limits t) {stats : Option ReductionStats}
    (h : reduced config t cs = .ok (u, ds, stats)) : Prepared config t cs u ds := by
  have hwf := ht.reachable.wellFormed
  unfold reduced at h
  split at h
  next =>
    split at h
    next _ _ _ hreduce =>
      cases h
      obtain ⟨hmerges, _, hflawless⟩ :=
        (Reduction.reduce_merges hwf config cs).of_eq_ok hreduce
      obtain ⟨hreduces, _⟩ := (Reduction.reduce_ends hwf config cs).of_eq_ok hreduce
      refine ⟨hreduces.wellFormed, ⟨_, hmerges⟩, fun e he => ?_⟩
      rw [NodeTable.validate_eq_ok_iff.2 hflawless] at he
      cases he
    next => cases h
  next =>
    cases h
    exact ⟨hwf, ⟨0, .refl _⟩, fun _ he => he⟩

theorem failure_of_reduced (ht : Built config.limits t) (h : reduced config t cs = .error e) :
    Failure config t cs e := by
  unfold reduced at h
  split at h
  next =>
    split at h
    next => cases h
    next _ _ hreduce =>
      cases h
      rcases (Reduction.reduce_merges ht.reachable.wellFormed config cs).of_eq_error hreduce
        with he | he
      · exact failure_of_validate he
      · exact failure_of_runsOut ht.maxMerges_eq he
  next => cases h

/-- Merging leaves a table within the bounds that the solver puts in force. -/
theorem checkCapacity_new (ht : Built config.limits t) {count : Nat} (hmerges : t.Merges count u)
    (order : Schedule) (ds : List Constraint) :
    (Solver.new config order u ds).table.checkCapacity = .ok () := by
  have hmaxNodes : (Solver.new config order u ds).table.maxNodes = t.maxNodes := by
    have hor : (Solver.new config order u ds).table.maxNodes =
        config.limits.maxNodes.or u.maxNodes := rfl
    rw [hor, hmerges.maxNodes_eq, ht.maxNodes_eq, Option.or_self]
  refine NodeTable.reserve_eq_ok_iff.2 ?_
  rw [NodeTable.nodeLimit_congr hmaxNodes]
  exact (NodeTable.size_congr hmerges.nodes_eq).trans_le ht.size_le

/-- The limits have no part in the second check of the constraints. -/
theorem validate_new (config : Config) (order : Schedule) (u : NodeTable) (ds : List Constraint) :
    (Solver.new config order u ds).table.validate config.fieldSensitive ds =
      u.validate config.fieldSensitive ds :=
  NodeTable.validate_congr (t := u) (u := u.applyLimits config.limits) rfl rfl _ _

/-- Solving fails for no other reasons than the run may fail, and freezing not at all. -/
theorem solved_ends (ht : Built config.limits t) (h : Prepared config t cs u ds)
    (order : Schedule) :
    Action.Ends (solved (.new config order u ds)) log (fun _ _ => True)
      (fun e _ => Failure config t cs e) := by
  obtain ⟨count, hmerges⟩ := h.merges
  have hblank := Solver.blank_new h.wellFormed config order ds
  have hmaxMerges : (Solver.new config order u ds).table.maxMerges = config.limits.maxMerges := by
    have hor : (Solver.new config order u ds).table.maxMerges =
        config.limits.maxMerges.or u.maxMerges := rfl
    rw [hor, hmerges.maxMerges_eq, ht.maxMerges_eq, Option.or_self]
  have hends := (Solver.solve_ends hblank .fresh).and (Solver.solve_counts hblank .fresh)
  unfold Action.Ends solved at *
  cases hsolve : Solver.solve (.new config order u ds) with
  | error e s =>
      rw [hsolve] at hends
      rcases hends.2 with ⟨haborted, _⟩ | ⟨_, he | he, _⟩ | he | ⟨limit, hlimit, rfl⟩
      · cases haborted
      · rw [checkCapacity_new ht hmerges] at he
        cases he
      · refine failure_of_validate (h.validate e ?_)
        rwa [← validate_new]
      · exact failure_of_runsOut hmaxMerges he
      · exact .membership hlimit
  | ok _ s =>
      rw [hsolve] at hends
      obtain ⟨⟨hreached, hphase⟩, _⟩ := hends
      obtain ⟨g, hg⟩ := Solver.freeze_ok (hreached.wellFormed hblank) hphase
      dsimp only
      rw [hg]
      trivial

theorem analyze_fails (ht : Built config.limits t) (order : Schedule) (cs : List Constraint)
    (log : Log) :
    Action.Ends (analyze config order t cs) log (fun _ _ => True)
      (fun e _ => Failure config t cs e) := by
  refine (analyze_ends_solved config order t cs log).imp (fun _ _ _ => trivial) ?_
  rintro e _ (hreduced | ⟨u, ds, stats, log, _, hreduced, hsolved⟩)
  · exact failure_of_reduced ht hreduced
  · have hends : Action.Ends (solved (.new config order u ds)) log (fun _ _ => True)
        (fun e _ => Failure config t cs e) := solved_ends ht (prepared_of_reduced ht hreduced) order
    rwa [Action.Ends, hsolved] at hends

theorem solve_ends_of_building {r : Run} (hr : r.state = .building t cs)
    (ht : Built r.config.limits t) :
    Action.Ends solve r (fun _ s => s.isFrozen = true)
      (fun e s => s.isAborted = true ∧ Failure r.config t cs e) := by
  have hanalyze := analyze_fails ht r.schedule cs r.log
  unfold Action.Ends at *
  rw [solve, hr]
  dsimp only
  split at hanalyze
  next o log ho =>
    rw [ho]
    rfl
  next e log he =>
    rw [he]
    exact ⟨rfl, hanalyze⟩

/-- Without flaws and without the bounds there is nothing to fail for. -/
theorem not_failure_of_flawless (hflawless : ∀ c ∈ cs, c.flaw? t config.fieldSensitive = none)
    (hmaxMerges : config.limits.maxMerges = none)
    (hmaxMembership : config.limits.maxMembership = none) : ¬Failure config t cs e := by
  intro he
  cases he with
  | flawed h =>
      rw [Constraint.firstFlaw?_eq_none_iff.2 hflawless] at h
      cases h
  | merges h =>
      rw [hmaxMerges] at h
      cases h
  | membership h =>
      rw [hmaxMembership] at h
      cases h

/-- A run that is being built fails to be solved only for a flaw in its constraints, or
by a bound on merges or memberships that its configuration sets. Without flaws and
without these bounds it is solved. -/
theorem solve_fails_on_flaw_or_limit {r : Run} (hr : new config = .ok r) (choices : Choices)
    (requests : List Request)
    (hbuilding : (afterAll { r with choices } requests).state = .building t cs) :
    Action.Ends solve (afterAll { r with choices } requests) (fun _ s => s.isFrozen = true)
      (fun e s => s.isAborted = true ∧ Failure config t cs e) ∧
    ((∀ c ∈ cs, c.flaw? t config.fieldSensitive = none) →
      config.limits.maxMerges = none → config.limits.maxMembership = none →
      ∃ g s, solve (afterAll { r with choices } requests) = .ok g s) := by
  obtain ⟨_, rfl⟩ := new_eq_ok_iff.1 hr
  have hconfig : (afterAll { ofConfig config with choices } requests).config = config :=
    config_afterAll _ requests
  have hbuilt : Built config.limits t := built_afterAll rfl hbuilding
  have hends := solve_ends_of_building hbuilding (hconfig.symm ▸ hbuilt)
  rw [hconfig] at hends
  refine ⟨hends, fun hflawless hmaxMerges hmaxMembership => ?_⟩
  have hnone : ∀ e, ¬Failure config t cs e := fun _ =>
    not_failure_of_flawless hflawless hmaxMerges hmaxMembership
  obtain ⟨g, s, hsolve, _⟩ := (hends.imp_error fun e _ he => hnone e he.2).exists_ok
  exact ⟨g, s, hsolve⟩

/-- The sample run needs two merges: it fails if one is allowed, and is solved without a
bound. -/
theorem solve_fails_on_flaw_or_limit_redundant :
    (∃ t cs, ((ofConfig ((Preset.config .balanced).set (.maxMerges (some 1)))).afterAll
        Request.redundant).state = .building t cs ∧
      Action.Ends solve ((ofConfig ((Preset.config .balanced).set (.maxMerges (some 1)))).afterAll
          Request.redundant) (fun _ s => s.isFrozen = true)
        (fun e s => s.isAborted = true ∧
          Failure ((Preset.config .balanced).set (.maxMerges (some 1))) t cs e)) ∧
    Action.value solve ((ofConfig ((Preset.config .balanced).set (.maxMerges (some 1)))).afterAll
        Request.redundant) = .error (.resourceExceeded .merges 1) ∧
    ∃ g s, solve ((ofPreset .balanced).afterAll Request.redundant) = .ok g s := by
  refine ⟨⟨_, _, rfl, ?_⟩, ?_, ?_⟩
  · exact (solve_fails_on_flaw_or_limit (new_eq_ok_iff.2 ⟨rfl, rfl⟩) {}
      Request.redundant rfl).1
  · decide +kernel
  · exact (solve_fails_on_flaw_or_limit (new_eq_ok_iff.2 ⟨rfl, rfl⟩) {}
      Request.redundant rfl).2 (by decide +kernel) rfl rfl

end Failure

end Run

end PointsTo

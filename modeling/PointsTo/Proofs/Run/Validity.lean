import PointsTo.Proofs.Constraint.IllFormed
import PointsTo.Proofs.Run.Failure

/-!
# Which constraints are rejected

Constraints are collected unseen and checked when the run is solved, possibly
twice: by the reduction before it does anything, and by the solver, which gets
what is left of them. The positions in the second list are not those of the first,
and its operands have been led to roots. So a flaw must never be reported from
there unless nothing has been reduced.

Whatever the configuration says, a run rejects the first ill-formed constraint of
those that it was asked to collect, and it does so before anything else can fail.
-/

namespace PointsTo

namespace Run

/-- The constraints that a request asks to collect. -/
def Request.collected : Request → List Constraint
  | .constraints cs => cs
  | _ => []

section Collected

variable {r : Run} {t u : NodeTable} {cs ds : List Constraint} {q : Request}

theorem Gathers.eq_append_collected (h : Gathers t cs q u ds) : ds = cs ++ q.collected := by
  cases h <;> simp [Request.collected]

/-- A run that is still being built has collected all it was asked to. -/
theorem eq_append_collected_afterAll (hr : r.state = .building t cs) {requests : List Request}
    (h : (r.afterAll requests).state = .building u ds) :
    ds = cs ++ requests.flatMap Request.collected := by
  induction requests using List.reverseRecOn generalizing u ds with
  | nil =>
      cases hr.symm.trans h
      simp
  | append_singleton requests q ih =>
      rw [afterAll_concat] at h
      obtain ⟨v, es, hbuilding, hgathers⟩ := gathers_of_building h
      simp [hgathers.eq_append_collected, ih hbuilding]

end Collected

section Validity

variable {config : Config} {t u : NodeTable} {cs ds : List Constraint} {e : AnalysisError}
  {order : Schedule} {log : Log} {i : Nat} {message : String}

/-! ## Before anything else -/

/-- The solver gets no further than its check if nothing was reduced. -/
theorem solved_refuses (ht : Built config.limits t) (order : Schedule) (log : Log)
    (h : t.validate config.fieldSensitive cs = .error e) :
    Action.Ends (solved (.new config order t cs)) log (fun _ _ => False)
      (fun e' _ => e' = e) := by
  have hcapacity := checkCapacity_new ht (.refl t) order cs
  have hvalidate := (validate_new config order t cs).trans h
  have hends := Solver.solve_refuses (s := .new config order t cs) nofun rfl hcapacity hvalidate
  obtain ⟨_, s, hsolve, rfl⟩ := hends.exists_error
  rw [Action.Ends, solved, hsolve]

/-- Flawed constraints are handed to the solver only as they were collected. -/
theorem reduced_of_flawed (h : t.validate config.fieldSensitive cs = .error e) :
    (∀ u ds stats, reduced config t cs = .ok (u, ds, stats) → u = t ∧ ds = cs) ∧
      ∀ e', reduced config t cs = .error e' → e' = e := by
  unfold reduced
  split
  next =>
    rw [Reduction.reduce_refuses h]
    exact ⟨nofun, fun _ he => (Except.error.inj he).symm⟩
  next =>
    refine ⟨fun u ds stats hok => ?_, nofun⟩
    cases hok
    exact ⟨rfl, rfl⟩

/-- Flawed constraints are rejected, whether they would have been reduced or not. -/
theorem analyze_refuses (ht : Built config.limits t) (order : Schedule) (log : Log)
    (h : t.validate config.fieldSensitive cs = .error e) :
    Action.Ends (analyze config order t cs) log (fun _ _ => False) (fun e' _ => e' = e) := by
  obtain ⟨hok, herror⟩ := reduced_of_flawed h
  refine (analyze_ends_solved config order t cs log).imp ?_ ?_
  · rintro o _ ⟨u, ds, stats, log, log', hreduced, ho⟩
    obtain ⟨rfl, rfl⟩ := hok u ds stats hreduced
    exact (solved_refuses ht order log h).of_eq_ok ho
  · rintro e' _ (hreduced | ⟨u, ds, stats, log, log', hreduced, he⟩)
    · exact herror e' hreduced
    · obtain ⟨rfl, rfl⟩ := hok u ds stats hreduced
      exact (solved_refuses ht order log h).of_eq_error he

/-- A run that is being built fails for a constraint exactly if that is the first one with
a flaw. -/
theorem solve_eq_invalid_iff {r : Run} (hr : r.state = .building t cs)
    (ht : Built r.config.limits t) :
    (∃ s, solve r = .error (.invalidConstraint i message) s) ↔
      ∃ flaw, Constraint.firstFlaw? t r.config.fieldSensitive 0 cs = some (i, flaw) ∧
        message = flaw.message := by
  constructor
  · rintro ⟨s, hs⟩
    cases ((solve_ends_of_building hr ht).of_eq_error hs).2 with
    | flawed h => exact ⟨_, h, rfl⟩
  · rintro ⟨flaw, hflaw, rfl⟩
    have hvalidate : t.validate r.config.fieldSensitive cs =
        .error (.invalidConstraint i flaw.message) := by
      rw [NodeTable.validate, hflaw]
    obtain ⟨_, log, hanalyze, rfl⟩ := (analyze_refuses ht r.schedule r.log hvalidate).exists_error
    rw [solve, hr]
    dsimp only
    rw [hanalyze]
    exact ⟨_, rfl⟩

/-! ## The second check -/

/-- What the reduction leaves passes the check of the solver if it was collected without a
flaw. -/
theorem validate_new_of_reduced (ht : Built config.limits t)
    (hcs : ∀ c ∈ cs, c.flaw? t config.fieldSensitive = none) {stats : Option ReductionStats}
    (h : reduced config t cs = .ok (u, ds, stats)) (order : Schedule) :
    (Solver.new config order u ds).table.validate config.fieldSensitive ds = .ok () := by
  rw [validate_new]
  cases hvalidate : u.validate config.fieldSensitive ds with
  | ok => rfl
  | error e =>
      have herror := (prepared_of_reduced ht h).validate e hvalidate
      rw [NodeTable.validate_eq_ok_iff.2 hcs] at herror
      cases herror

/-! ## From the first request on -/

/-- Runs that get the same requests and treat fields alike find the same flaws. -/
theorem firstFlaw?_afterAll {config' : Config}
    (hfields : config'.fieldSensitive = config.fieldSensitive) {choices choices' : Choices}
    {requests : List Request}
    (hbuilding : (afterAll { ofConfig config with choices } requests).state = .building t cs)
    (hbuilding' : (afterAll { ofConfig config' with choices := choices' } requests).state =
      .building u ds) :
    Constraint.firstFlaw? u config'.fieldSensitive 0 ds =
      Constraint.firstFlaw? t config.fieldSensitive 0 cs := by
  have hbuilt : Built config.limits t := built_afterAll rfl hbuilding
  have hbuilt' : Built config'.limits u := built_afterAll rfl hbuilding'
  have hempty : (NodeTable.withLimits config.limits.maxNodes config.limits.maxMerges).Twin
      (.withLimits config'.limits.maxNodes config'.limits.maxMerges) := ⟨rfl, rfl⟩
  obtain ⟨htwin, rfl⟩ := twin_afterAll rfl rfl hempty hbuilding hbuilding'
  have hcount := hbuilt.reachable.maxFieldCount_congr hbuilt'.reachable htwin.nodes_eq
  rw [hfields, Constraint.firstFlaw?_congr htwin.nodes_eq hcount]

/-- A run that is being built rejects the first ill-formed constraint of those that it was
asked to collect, and none if there is none. Neither the limits nor the reduction have a part
in this: under any other configuration that treats fields alike, the same requests make a
run that rejects the same. If nothing is ill formed, then neither is anything that the
reduction hands to the solver. -/
theorem solve_rejects_illFormed {r : Run} (hr : new config = .ok r) (choices : Choices)
    (requests : List Request)
    (hbuilding : (afterAll { r with choices } requests).state = .building t cs) :
    cs = requests.flatMap Request.collected ∧
    (∀ i, (∃ message s, solve (afterAll { r with choices } requests) =
        .error (.invalidConstraint i message) s) ↔
      Constraint.FirstIllFormed t config.fieldSensitive cs i) ∧
    (∀ config' r', new config' = .ok r' → config'.fieldSensitive = config.fieldSensitive →
      ∀ choices' u ds, (afterAll { r' with choices := choices' } requests).state = .building u ds →
      ∀ i message,
        (∃ s, solve (afterAll { r' with choices := choices' } requests) =
          .error (.invalidConstraint i message) s) ↔
        ∃ s, solve (afterAll { r with choices } requests) =
          .error (.invalidConstraint i message) s) ∧
    ((∀ c ∈ cs, ¬c.IllFormed t config.fieldSensitive) →
      ∀ u ds stats, reduced config t cs = .ok (u, ds, stats) → ∀ order,
        (Solver.new config order u ds).table.validate config.fieldSensitive ds = .ok ()) := by
  obtain ⟨_, rfl⟩ := new_eq_ok_iff.1 hr
  have hbuilt : Built config.limits t := built_afterAll rfl hbuilding
  have hconfig : (afterAll { ofConfig config with choices } requests).config = config :=
    config_afterAll _ requests
  have hinvalid : ∀ i message, (∃ s, solve (afterAll { ofConfig config with choices } requests) =
      .error (.invalidConstraint i message) s) ↔
        ∃ flaw, Constraint.firstFlaw? t config.fieldSensitive 0 cs = some (i, flaw) ∧
          message = flaw.message := by
    intro i message
    rw [solve_eq_invalid_iff hbuilding (hconfig.symm ▸ hbuilt), hconfig]
  refine ⟨?_, fun i => ?_, ?_, fun hwell u ds stats h order => ?_⟩
  · exact eq_append_collected_afterAll rfl hbuilding
  · rw [Constraint.firstIllFormed_iff hbuilt.reachable]
    simp only [hinvalid]
    exact ⟨fun ⟨_, flaw, h, _⟩ => ⟨flaw, h⟩, fun ⟨flaw, h⟩ => ⟨_, flaw, h, rfl⟩⟩
  · intro config' r' hr' hfields choices' u ds hbuilding' i message
    obtain ⟨_, rfl⟩ := new_eq_ok_iff.1 hr'
    have hbuilt' : Built config'.limits u := built_afterAll rfl hbuilding'
    have hconfig' : (afterAll { ofConfig config' with choices := choices' } requests).config =
        config' := config_afterAll _ requests
    rw [hinvalid, solve_eq_invalid_iff hbuilding' (hconfig'.symm ▸ hbuilt'), hconfig',
      firstFlaw?_afterAll hfields hbuilding hbuilding']
  · exact validate_new_of_reduced hbuilt
      (fun c hc => (Constraint.flaw?_eq_none_iff hbuilt.reachable).2 (hwell c hc)) h order

/-- The sample requests, and then the address of a variable and a node that does not exist. -/
def Request.flawed : List Request :=
  Request.redundant ++ [.constraints [.addrOf 0 1, .copy 0 9]]

/-- The address of a variable is rejected by a run that reduces its constraints and by one
that does not and may merge but once. Without the last request the reduction leaves two of
five constraints, which pass the check of the solver. -/
theorem solve_rejects_illFormed_flawed :
    Constraint.FirstIllFormed .sample true (Request.flawed.flatMap Request.collected) 5 ∧
    (∃ s, solve ((ofPreset .balanced).afterAll Request.flawed) =
      .error (.invalidConstraint 5 (Flaw.message (.notPointee 1))) s) ∧
    (∃ s, solve ((ofConfig (((Preset.config .balanced).set (.optimize false)).set
        (.maxMerges (some 1)))).afterAll Request.flawed) =
      .error (.invalidConstraint 5 (Flaw.message (.notPointee 1))) s) ∧
    ∃ u ds stats, reduced (Preset.config .balanced) .sample Constraint.redundant =
        .ok (u, ds, stats) ∧ ds.length = 2 ∧
      (Solver.new (Preset.config .balanced) .oldest u ds).table.validate true ds = .ok () := by
  have hbalanced : new (Preset.config .balanced) = .ok (ofPreset .balanced) :=
    new_eq_ok_iff.2 ⟨rfl, rfl⟩
  have hplain : new (((Preset.config .balanced).set (.optimize false)).set (.maxMerges (some 1))) =
      .ok (ofConfig (((Preset.config .balanced).set (.optimize false)).set
        (.maxMerges (some 1)))) := new_eq_ok_iff.2 ⟨rfl, rfl⟩
  have hrejects : ∃ s, solve ((ofPreset .balanced).afterAll Request.flawed) =
      .error (.invalidConstraint 5 (Flaw.message (.notPointee 1))) s := by
    have hends : Action.Ends solve ((ofPreset .balanced).afterAll Request.flawed)
        (fun _ _ => False)
        (fun e _ => e = .invalidConstraint 5 (Flaw.message (.notPointee 1))) := by
      decide +kernel
    obtain ⟨_, s, hs, rfl⟩ := hends.exists_error
    exact ⟨s, hs⟩
  obtain ⟨hcollected, hfirst, hsame, _⟩ :=
    solve_rejects_illFormed hbalanced {} Request.flawed rfl
  obtain ⟨s, hs⟩ := hrejects
  have hreduced : ∃ u ds stats, reduced (Preset.config .balanced) .sample Constraint.redundant =
      .ok (u, ds, stats) ∧ ds.length = 2 := by
    have hlength : (reduced (Preset.config .balanced) .sample Constraint.redundant).map
        (·.2.1.length) = .ok 2 := by decide +kernel
    cases hok : reduced (Preset.config .balanced) .sample Constraint.redundant with
    | error e =>
        rw [hok] at hlength
        cases hlength
    | ok result =>
        rw [hok] at hlength
        exact ⟨_, _, _, rfl, Except.ok.inj hlength⟩
  obtain ⟨u, ds, stats, hreduced, hlength⟩ := hreduced
  refine ⟨hcollected ▸ (hfirst 5).1 ⟨_, s, hs⟩, ⟨s, hs⟩, ?_, u, ds, stats, hreduced, hlength, ?_⟩
  · exact (hsame _ _ hplain rfl {} _ _ rfl 5 _).2 ⟨s, hs⟩
  · have hwell : ∀ c ∈ Constraint.redundant, ¬c.IllFormed .sample true := by
      have hflawless : ∀ c ∈ Constraint.redundant, c.flaw? .sample true = none := by decide +kernel
      exact fun c hc => (Constraint.flaw?_eq_none_iff NodeTable.reachable_sample).1 (hflawless c hc)
    exact (solve_rejects_illFormed hbalanced {} Request.redundant rfl).2.2.2
      hwell u ds stats hreduced .oldest

end Validity

end Run

end PointsTo

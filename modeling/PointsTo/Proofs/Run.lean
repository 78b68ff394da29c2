import PointsTo.Run
import PointsTo.Proofs.Reduction
import PointsTo.Proofs.Solver.Freeze

/-!
# What runs agree on

A run is used by requests in any order: nodes are created, constraints are
collected, and it is solved. Two runs that get the same requests under different
configurations go different ways as soon as they are solved. They reduce to
different constraints, join other classes and pop nodes in another order. But
both freeze the least solution over the table they have collected
(`analyze_ends`), and these tables differ in nothing but their bounds (`Twin`).
So whatever one of two runs gives, the other one either gives it too or is
aborted (`Agrees`).
-/

namespace PointsTo

namespace NodeTable

/-- The tables `t` and `u` have the same nodes and classes. -/
structure Twin (t u : NodeTable) : Prop where
  nodes_eq : u.nodes = t.nodes
  sets_eq : u.sets = t.sets

section Twin

variable {t u : NodeTable}

theorem Twin.append (h : t.Twin u) (kind : NodeKind) : (t.append kind).Twin (u.append kind) where
  nodes_eq := by simp only [NodeTable.append, size, h.nodes_eq]
  sets_eq := by simp only [NodeTable.append, h.sets_eq]

theorem Twin.appendFields (h : t.Twin u) (base fieldCount offset count : Nat) :
    (t.appendFields base fieldCount offset count).Twin
      (u.appendFields base fieldCount offset count) := by
  induction count generalizing t u offset with
  | zero => exact h
  | succ count ih => exact ih (h.append _) (offset + 1)

theorem Twin.leastSolution_eq (h : t.Twin u) (fieldSensitive : Bool) (cs : List Constraint) :
    leastSolution u fieldSensitive cs = leastSolution t fieldSensitive cs := by
  funext n
  refine leastSolution_congr h.nodes_eq (fun a b => ?_) n
  rw [root, root, root, root, h.sets_eq]

end Twin

/-- A way to create nodes that keeps tables reachable, and twins twins. -/
structure Creates (make : NodeTable → Except AnalysisError (Nat × NodeTable)) : Prop where
  reachable {t t' : NodeTable} {n : Nat} : t.Reachable → make t = .ok (n, t') → t'.Reachable
  twin {t t' u u' : NodeTable} {m n : Nat} :
    t.Twin u → make t = .ok (m, t') → make u = .ok (n, u') → t'.Twin u'

theorem creates_addValue : Creates addValue where
  reachable := .addValue
  twin h ht hu := by
    rw [(addValue_eq_ok ht).2, (addValue_eq_ok hu).2]
    exact h.append .value

theorem creates_addObject (fieldCount : Nat) : Creates (·.addObject fieldCount) where
  reachable := .addObject
  twin {t _ _ _ _ _} h ht hu := by
    have hfields := h.appendFields t.size (max fieldCount 1) 0 (max fieldCount 1)
    rw [(addObject_eq_ok ht).2, (addObject_eq_ok hu).2, appendObject, appendObject,
      size_congr h.nodes_eq]
    exact ⟨hfields.nodes_eq, hfields.sets_eq⟩

theorem creates_addSpecial (kind : Special) : Creates (·.addSpecial kind) where
  reachable := .addSpecial
  twin h ht hu := by
    rw [(addSpecial_eq_ok ht).2, (addSpecial_eq_ok hu).2]
    exact h.append (.special kind)

end NodeTable

namespace Run

/-! ## One analysis -/

section Analyze

variable {t u : NodeTable} {config : Config} {cs ds : List Constraint}

theorem reduced_eq_ok (ht : t.WellFormed) {stats : Option ReductionStats}
    (h : reduced config t cs = .ok (u, ds, stats)) :
    u.WellFormed ∧ u.nodes = t.nodes ∧
      leastSolution u config.fieldSensitive ds = leastSolution t config.fieldSensitive cs := by
  unfold reduced at h
  split at h
  next =>
    split at h
    next _ _ _ hreduce =>
      cases h
      exact Reduction.leastSolution_reduce ht hreduce
    next => cases h
  next =>
    cases h
    exact ⟨ht, rfl, rfl⟩

theorem solved_eq_ok {solver : Solver} {g : Graph} {stats : SolverStats} {log log' : Log}
    (h : solved solver log = .ok (g, stats) log') :
    (solver.afterAll [.solve]).freeze = .ok g := by
  unfold solved at h
  split at h
  next => cases h
  next s hsolve =>
    have hafter : solver.afterAll [.solve] = s := by
      change Action.state Solver.solve solver = s
      rw [Action.state, hsolve]
    split at h
    next => cases h
    next hfreeze =>
      cases h
      rw [hafter, hfreeze]

theorem reportIf_ends {wanted : Bool} {title text : String} {log : Log}
    {E : AnalysisError → Log → Prop} :
    Action.Ends (reportIf wanted title text) log (fun _ _ => True) E := by
  unfold reportIf report
  cases wanted <;> trivial

/-- An analysis reduces its constraints and solves what comes of them; everything else are
reports. -/
theorem analyze_ends_solved (config : Config) (order : Schedule) (t : NodeTable)
    (cs : List Constraint) (log : Log) :
    Action.Ends (analyze config order t cs) log
      (fun o _ => ∃ u ds stats log log', reduced config t cs = .ok (u, ds, stats) ∧
        solved (.new config order u ds) log = .ok (o.graph, o.solverStats) log')
      (fun e _ => reduced config t cs = .error e ∨
        ∃ u ds stats log log', reduced config t cs = .ok (u, ds, stats) ∧
          solved (.new config order u ds) log = .error e log') := by
  refine reportIf_ends.bind fun _ log _ => ?_
  rw [Action.ends_bind, Action.ends_ofExcept]
  refine ⟨fun result hreduced => ?_, fun e he => .inl he⟩
  obtain ⟨u, ds, stats⟩ := result
  refine reportIf_ends.bind fun _ log _ => ?_
  refine Action.Ends.bind ((Action.ends_self _ log).imp_error fun e log' he =>
    .inr ⟨u, ds, stats, log, log', hreduced, he⟩) fun r log' hr => ?_
  refine reportIf_ends.bind fun _ _ _ => ?_
  refine reportIf_ends.bind fun _ _ _ => ?_
  exact reportIf_ends.bind fun _ _ _ => ⟨u, ds, stats, log, log', hreduced, hr⟩

/-- An analysis that succeeds gives the least solution. -/
theorem analyze_ends (ht : t.WellFormed) (config : Config) (order : Schedule)
    (cs : List Constraint) (log : Log) :
    Action.Ends (analyze config order t cs) log
      (fun o _ => o.graph.Represents t (leastSolution t config.fieldSensitive cs))
      (fun _ _ => True) := by
  refine (analyze_ends_solved config order t cs log).imp ?_ fun _ _ _ => trivial
  rintro o _ ⟨u, ds, stats, _, _, hreduced, hsolved⟩
  obtain ⟨hu, hnodes, hleast⟩ := reduced_eq_ok ht hreduced
  have hgraph := Solver.freeze_represents hu (solved_eq_ok hsolved)
  exact ⟨hgraph.nodes_eq.trans hnodes, hgraph.ascending, hleast ▸ hgraph.sets_eq⟩

end Analyze

/-! ## Requests -/

/-- A run is made exactly under the configurations that are valid. -/
theorem new_eq_ok_iff {c : Config} {r : Run} :
    new c = .ok r ↔ c.validate = .ok () ∧ r = ofConfig c := by
  unfold new Config.validate
  cases c.fault? with
  | some e => simp
  | none => simp [eq_comm]

/-- One request to a run. -/
inductive Request where
  | value
  | object (fieldCount : Nat)
  | special (kind : Special)
  | constraints (cs : List Constraint)
  | solve
deriving DecidableEq

/-- The requests that make up the sample table and `Constraint.redundant`. -/
def Request.redundant : List Request :=
  [.value, .value, .object 2, .constraints Constraint.redundant]

/-- The run after a request, whether it is granted or not. -/
def after (r : Run) : Request → Run
  | .value => Action.state createValue r
  | .object fieldCount => Action.state (createObject fieldCount) r
  | .special kind => Action.state (createSpecial kind) r
  | .constraints cs => Action.state (addConstraints cs) r
  | .solve => Action.state solve r

def afterAll (r : Run) (requests : List Request) : Run := requests.foldl after r

section Requests

variable {r : Run} {t : NodeTable} {cs : List Constraint}

theorem state_create {make : NodeTable → Except AnalysisError (Nat × NodeTable)}
    (h : r.state = .building t cs) :
    (Action.state (create make) r).state =
      match make t with
      | .ok (_, u) => .building u cs
      | .error _ => .aborted := by
  rw [Action.state, create, h]
  dsimp only
  cases make t <;> rfl

theorem state_addConstraints (h : r.state = .building t cs) (ds : List Constraint) :
    (Action.state (addConstraints ds) r).state = .building t (cs ++ ds) := by
  rw [Action.state, addConstraints, h]

theorem state_solve (h : r.state = .building t cs) :
    (Action.state solve r).state =
      match analyze r.config r.schedule t cs r.log with
      | .ok o _ => .frozen o
      | .error _ _ => .aborted := by
  rw [Action.state, solve, h]
  dsimp only
  cases analyze r.config r.schedule t cs r.log <;> rfl

/-- A frozen run stays as it is. -/
theorem after_of_frozen {o : Outcome} (h : r.state = .frozen o) (q : Request) : r.after q = r := by
  cases q <;> simp [after, Action.state, createValue, createObject, createSpecial, create,
    addConstraints, solve, h]

/-- An aborted run stays as it is. -/
theorem after_of_aborted (h : r.state = .aborted) (q : Request) : r.after q = r := by
  cases q <;> simp [after, Action.state, createValue, createObject, createSpecial, create,
    addConstraints, solve, h]

theorem config_create (r : Run) (make : NodeTable → Except AnalysisError (Nat × NodeTable)) :
    (Action.state (create make) r).config = r.config := by
  rw [Action.state, create]
  cases r.state with
  | building t cs => cases hmake : make t <;> simp [hmake, note]
  | frozen o => rfl
  | aborted => rfl

theorem config_after (r : Run) (q : Request) : (r.after q).config = r.config := by
  cases q with
  | value => exact r.config_create _
  | object fieldCount => exact r.config_create _
  | special kind => exact r.config_create _
  | constraints cs =>
      rw [after, Action.state, addConstraints]
      cases r.state <;> rfl
  | solve =>
      rw [after, Action.state, solve]
      cases r.state with
      | building t cs =>
          cases hanalyze : analyze r.config r.schedule t cs r.log <;> simp [hanalyze]
      | frozen o => rfl
      | aborted => rfl

/-- A run that has solved is frozen. -/
theorem solve_eq_ok {s : Run} {g : Graph} (h : solve r = .ok g s) :
    s = r.after .solve ∧ ∃ o : Outcome, s.state = .frozen o ∧ o.graph = g := by
  refine ⟨by rw [after, Action.state, h], ?_⟩
  unfold solve at h
  split at h
  next o hstate =>
    cases h
    exact ⟨o, hstate, rfl⟩
  next => cases h
  next =>
    split at h
    next o _ _ =>
      cases h
      exact ⟨o, rfl, rfl⟩
    next => cases h

end Requests

/-! ## Two runs -/

/-- What two runs that get the same requests are in, unless one is aborted. -/
inductive State.Agrees : State → State → Prop
  | building {t u : NodeTable} {cs : List Constraint} (ht : t.Reachable) (hu : u.Reachable)
      (htwin : t.Twin u) : Agrees (.building t cs) (.building u cs)
  | frozen {o p : Outcome} (hnodes : o.graph.nodes = p.graph.nodes)
      (hsets : ∀ n, o.graph.pointsTo n = p.graph.pointsTo n) : Agrees (.frozen o) (.frozen p)
  | abortedLeft (s : State) : Agrees .aborted s
  | abortedRight (s : State) : Agrees s .aborted

/-- Two runs that treat fields alike and agree in their states. -/
structure Agrees (r s : Run) : Prop where
  fieldSensitive : r.config.fieldSensitive = s.config.fieldSensitive
  state : r.state.Agrees s.state

section Agrees

variable {r s : Run}

theorem State.Agrees.create {make : NodeTable → Except AnalysisError (Nat × NodeTable)}
    (hmake : NodeTable.Creates make) {t u : NodeTable} {cs : List Constraint} (ht : t.Reachable)
    (hu : u.Reachable) (htwin : t.Twin u) (hr : r.state = .building t cs)
    (hs : s.state = .building u cs) :
    (Action.state (Run.create make) r).state.Agrees (Action.state (Run.create make) s).state := by
  rw [state_create hr, state_create hs]
  cases hmt : make t with
  | error e => exact .abortedLeft _
  | ok result =>
      cases hmu : make u with
      | error e => exact .abortedRight _
      | ok result' =>
          exact .building (hmake.reachable ht hmt) (hmake.reachable hu hmu)
            (hmake.twin htwin hmt hmu)

theorem State.Agrees.solve (hfields : r.config.fieldSensitive = s.config.fieldSensitive)
    {t u : NodeTable} {cs : List Constraint} (ht : t.Reachable) (hu : u.Reachable)
    (htwin : t.Twin u) (hr : r.state = .building t cs) (hs : s.state = .building u cs) :
    (Action.state Run.solve r).state.Agrees (Action.state Run.solve s).state := by
  have hfirst := analyze_ends ht.wellFormed r.config r.schedule cs r.log
  have hsecond := analyze_ends hu.wellFormed s.config s.schedule cs s.log
  rw [state_solve hr, state_solve hs]
  unfold Action.Ends at hfirst hsecond
  cases hrt : analyze r.config r.schedule t cs r.log with
  | error e log => exact .abortedLeft _
  | ok o log =>
      cases hsu : analyze s.config s.schedule u cs s.log with
      | error e log => exact .abortedRight _
      | ok p log =>
          rw [hrt] at hfirst
          rw [hsu, htwin.leastSolution_eq, ← hfields] at hsecond
          refine .frozen ?_ (hfirst.pointsTo_eq hsecond)
          rw [hfirst.nodes_eq, hsecond.nodes_eq, htwin.nodes_eq]

/-- Runs that agree still do after the same request to both. -/
theorem Agrees.after (h : r.Agrees s) (q : Request) : (r.after q).Agrees (s.after q) := by
  refine ⟨by rw [config_after, config_after, h.fieldSensitive], ?_⟩
  have hstate := h.state
  generalize hr : r.state = a at hstate
  generalize hs : s.state = b at hstate
  cases hstate with
  | building ht hu htwin =>
      cases q with
      | value => exact .create NodeTable.creates_addValue ht hu htwin hr hs
      | object fieldCount =>
          exact .create (NodeTable.creates_addObject fieldCount) ht hu htwin hr hs
      | special kind => exact .create (NodeTable.creates_addSpecial kind) ht hu htwin hr hs
      | constraints cs =>
          rw [Run.after, Run.after, state_addConstraints hr, state_addConstraints hs]
          exact .building ht hu htwin
      | solve => exact .solve h.fieldSensitive ht hu htwin hr hs
  | frozen hnodes hsets =>
      rw [after_of_frozen hr, after_of_frozen hs, hr, hs]
      exact .frozen hnodes hsets
  | abortedLeft =>
      rw [after_of_aborted hr, hr]
      exact .abortedLeft _
  | abortedRight =>
      rw [after_of_aborted hs, hs]
      exact .abortedRight _

theorem Agrees.afterAll (h : r.Agrees s) (requests : List Request) :
    (r.afterAll requests).Agrees (s.afterAll requests) := by
  induction requests generalizing r s with
  | nil => exact h
  | cons q requests ih => exact ih (h.after q)

/-- New runs agree if their configurations treat fields alike. -/
theorem agrees_new {c d : Config} (hfields : c.fieldSensitive = d.fieldSensitive)
    (hr : new c = .ok r) (hs : new d = .ok s) (choices choices' : Choices) :
    ({ r with choices } : Run).Agrees { s with choices := choices' } := by
  rw [(new_eq_ok_iff.1 hr).2, (new_eq_ok_iff.1 hs).2]
  exact ⟨hfields, .building (.empty _ _) (.empty _ _) ⟨rfl, rfl⟩⟩

/-- Two runs that are made under valid configurations, treat fields alike and get
the same requests give the same sets, if both are solved in the end. This holds
whatever is chosen where the configurations leave a choice. -/
theorem solve_config_independent {c d : Config} (hfields : c.fieldSensitive = d.fieldSensitive)
    (hr : new c = .ok r) (hs : new d = .ok s) (choices choices' : Choices)
    (requests : List Request) {g g' : Graph} {r' s' : Run}
    (hg : solve (afterAll { r with choices } requests) = .ok g r')
    (hg' : solve (afterAll { s with choices := choices' } requests) = .ok g' s') :
    g.nodes = g'.nodes ∧ ∀ n, g.pointsTo n = g'.pointsTo n := by
  have hagrees := ((agrees_new hfields hr hs choices choices').afterAll requests).after .solve
  obtain ⟨rfl, o, ho, rfl⟩ := solve_eq_ok hg
  obtain ⟨rfl, p, hp, rfl⟩ := solve_eq_ok hg'
  have hstate := hagrees.state
  rw [ho, hp] at hstate
  cases hstate with
  | frozen hnodes hsets => exact ⟨hnodes, hsets⟩

/-- Only the first run reduces its constraints, and so it alone finds that the
variables are of one class. The second one pops by what its seed draws and serves targets
from the last one on. -/
theorem solve_config_independent_redundant :
    ∃ g g' r s,
      solve ((ofPreset .balanced).afterAll Request.redundant) = .ok g r ∧
      solve (afterAll { ofConfig ((Preset.config .thorough).setAll
        [.optimize false, .worklist (.shuffled 7)]) with
          choices := { draws := fun seed k => seed * k, sends := .descending } }
        Request.redundant) = .ok g' s ∧
      g.representatives = #[0, 0, 2, 2] ∧ g'.representatives = #[0, 1, 2, 2] ∧
      ∀ n, g.pointsTo n = g'.pointsTo n := by
  have hrun : ∃ g r, solve ((ofPreset .balanced).afterAll Request.redundant) = .ok g r ∧
      g.representatives = #[0, 0, 2, 2] :=
    Action.Ends.exists_ok (by decide +kernel)
  have hrun' : ∃ g s, solve (afterAll { ofConfig ((Preset.config .thorough).setAll
        [.optimize false, .worklist (.shuffled 7)]) with
          choices := { draws := fun seed k => seed * k, sends := .descending } }
        Request.redundant) = .ok g s ∧
      g.representatives = #[0, 1, 2, 2] :=
    Action.Ends.exists_ok (by decide +kernel)
  obtain ⟨g, r, hg, hreps⟩ := hrun
  obtain ⟨g', s, hg', hreps'⟩ := hrun'
  have hfields : (Preset.config .balanced).fieldSensitive = ((Preset.config .thorough).setAll
      [.optimize false, .worklist (.shuffled 7)]).fieldSensitive := rfl
  have hsame := solve_config_independent hfields (new_eq_ok_iff.2 ⟨rfl, rfl⟩)
    (new_eq_ok_iff.2 ⟨rfl, rfl⟩) {} { draws := fun seed k => seed * k, sends := .descending }
    Request.redundant
    hg hg'
  exact ⟨g, g', r, s, hg, hg', hreps, hreps', hsame.2⟩

end Agrees

end Run

end PointsTo

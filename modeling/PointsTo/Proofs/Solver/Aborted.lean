import PointsTo.Proofs.Solver.Failure
import PointsTo.Proofs.Solver.Freeze

/-!
# Solvers that have failed

Whatever a call does to a solver is done behind a guard that aborts the solver if it
fails, however deep in a run this happens. And the first thing that a call looks at is
whether the solver has been aborted. So the first failure is final: no step that was left
half done is ever taken up again.

What a solver is given is checked before anything else is done, once. If it is refused,
the sets are empty and the classes are those that came with the table.
-/

namespace PointsTo

namespace Solver

/-- The call fails with the error `e`. -/
def Fails (s : Solver) (e : AnalysisError) : Call → Prop
  | .step => Action.value step s = .error e
  | .solve => Action.value solve s = .error e

section Fails

variable {s s₀ t : Solver} {e : AnalysisError} {call : Call}

theorem Fails.of_ends {Q : Bool → Solver → Prop} {Q' : Unit → Solver → Prop}
    {E : AnalysisError → Solver → Prop} (h : s.Fails e call) (hstep : Action.Ends step s Q E)
    (hsolve : Action.Ends solve s Q' E) : E e (s.after call) := by
  cases call with
  | step => exact hstep.of_value_eq_error h
  | solve => exact hsolve.of_value_eq_error h

/-! ## After a failure -/

/-- An aborted solver refuses every call and stays as it is. -/
theorem fails_of_aborted (h : s.phase = .aborted) (call : Call) :
    s.Fails .aborted call ∧ s.after call = s := by
  have hrefused : Action.Ends begin s (fun _ _ => False) fun e t => e = .aborted ∧ t = s :=
    refuseAborted_ends (fun _ => ⟨rfl, rfl⟩) fun hphase => absurd h hphase
  obtain ⟨_, s, hbegin, rfl, rfl⟩ := hrefused.exists_error
  cases call with
  | step =>
      have hstep : step s = .error .aborted s := by
        rw [step_eq, if_neg (by simp [h]), hbegin]
      simp only [Fails, Solver.after, Action.value, Action.state, hstep, and_self]
  | solve =>
      have hsolve : solve s = .error .aborted s := by rw [solve_eq, hbegin]
      simp only [Fails, Solver.after, Action.value, Action.state, hsolve, and_self]

theorem afterAll_of_aborted (h : s.phase = .aborted) (calls : List Call) :
    s.afterAll calls = s := by
  induction calls with
  | nil => rfl
  | cons call calls ih =>
      rw [afterAll, List.foldl_cons, (fails_of_aborted h call).2]
      exact ih

theorem freeze_of_aborted (h : s.phase = .aborted) : s.freeze = .error .aborted := by
  rw [freeze, h]

/-! ## Causes of a failure -/

variable (hs₀ : s₀.Blank)

include hs₀

/-- A step that fails leaves an aborted solver. Either it had been aborted before, or what it
was given was refused and nothing has been changed, or one of the bounds was met. -/
theorem step_ends (h : Reached s₀ s) :
    Action.Ends step s (fun _ t => Reached s₀ t)
      (fun e t => (Reached s₀ t ∧ t.phase = .aborted) ∧
        (s.phase = .aborted ∧ e = .aborted ∨
          s.indexed = false ∧ s.Refuses e ∧ t.store = s.store ∨ s.Exceeds e)) := by
  have hadvance : ∀ t, Reached s₀ t → t.phase = .running →
      Action.Ends advance t (fun _ u => Reached s₀ u)
        (fun e u => (Reached s₀ u ∧ u.phase = .aborted) ∧ t.Exceeds e) := fun t ht hphase =>
    ((advance_ends hs₀ ht hphase).and (advance_counts hs₀ ht hphase)).imp_ok fun _ _ hu => hu.1.1
  rw [step, Action.ends_bind, Action.ends_get]
  dsimp only
  rw [Action.ends_ite]
  constructor
  · intro _
    refine Action.Ends.bind (((begin_ends hs₀ h).and (begin_counts s)).imp_error
      fun _ _ he => ⟨he.1, he.2.imp_right (.imp_right .inr)⟩) ?_
    rintro _ t ⟨⟨ht, hphase⟩, hconfig, htable, _⟩
    refine (hadvance t ht hphase).imp_error fun e u he => ⟨he.1, .inr (.inr ?_)⟩
    exact he.2.imp (htable ▸ id) (.of_config_eq hconfig)
  · intro hphase
    exact (hadvance s h (not_not.1 hphase)).imp_error fun _ _ he => ⟨he.1, .inr (.inr he.2)⟩

/-- A call that fails aborts the solver, and does not get beyond what it was given unless one
of the bounds is met. -/
theorem Fails.causes (h : s.Fails e call) (hs : Reached s₀ s) :
    (Reached s₀ (s.after call) ∧ (s.after call).phase = .aborted) ∧
      (s.phase = .aborted ∧ e = .aborted ∨
        s.indexed = false ∧ s.Refuses e ∧ (s.after call).store = s.store ∨ s.Exceeds e) :=
  h.of_ends (step_ends hs₀ hs) ((solve_ends hs₀ hs).and (solve_counts hs₀ hs))

/-- Where the table or the constraints are refused, sets and classes are those of a solver that
has not been called yet. -/
theorem Fails.store_eq (h : s.Fails e call) (hs : Reached s₀ s) (haborted : e ≠ .aborted)
    (hexceeds : ¬s.Exceeds e) : (s.after call).store = s₀.store := by
  obtain ⟨_, ⟨_, he⟩ | ⟨hindexed, _, hstore⟩ | he⟩ := h.causes hs₀ hs
  · exact absurd he haborted
  · cases hs with
    | fresh => exact hstore
    | refused hrefused _ => exact hstore.trans hrefused
    | failed hlive _ => exact absurd (hlive.indexed.symm.trans hindexed) Bool.noConfusion
    | running hsound _ => exact absurd (hsound.indexed.symm.trans hindexed) Bool.noConfusion
    | solved hsound _ _ => exact absurd (hsound.indexed.symm.trans hindexed) Bool.noConfusion
  · exact absurd he hexceeds

end Fails

/-! ## Failures are final -/

section Final

variable {t : NodeTable} {s s₀ : Solver} {e : AnalysisError} {call : Call}

theorem Exceeds.exists_resource (h : s.Exceeds e) :
    ∃ resource limit, e = .resourceExceeded resource limit := by
  rcases h with ⟨limit, _, rfl⟩ | ⟨limit, _, rfl⟩
  · exact ⟨.merges, limit, rfl⟩
  · exact ⟨.membership, limit, rfl⟩

/-- All sets of a solver that has not been called yet are empty. -/
theorem Blank.pointsTo_eq (hs₀ : s₀.Blank) (hstore : s.store = s₀.store)
    (hs : s.store.WellFormed) (n : Nat) : s.pointsTo n = {} := by
  rw [Solver.pointsTo_eq hs, hstore, Store.pts, hs₀.cell_eq]

/-- Once a call has failed, every later one fails because the solver is aborted, no call changes
anything, and there is no graph to be had. If the call failed because the table has too many nodes
or a constraint is not well formed, the sets are empty, and the classes are those of the
table that the solver was given. At any time a solver can be frozen exactly if it is solved. -/
theorem failures_final (ht : t.Reachable) (config : Config) (order : Schedule)
    (cs : List Constraint) (calls : List Call) :
    let s := (new config order t cs).afterAll calls
    (∀ call e, s.Fails e call →
      (∀ later, (s.after call).afterAll later = s.after call ∧
        ∀ next, ((s.after call).afterAll later).Fails .aborted next) ∧
      (s.after call).freeze = .error .aborted ∧
      ((∃ limit, e = .capacityExceeded limit) ∨
          (∃ index reason, e = .invalidConstraint index reason) →
        ∀ n, (s.after call).pointsTo n = {} ∧ (s.after call).table.root n = t.root n)) ∧
    ((∃ g, s.freeze = .ok g) ↔ s.phase = .solved) := by
  intro s
  have hblank := blank_new ht.wellFormed config order cs
  have hs : (new config order t cs).Reached s := reached_new ht.wellFormed config order cs calls
  refine ⟨fun call e hfails => ?_, fun ⟨g, hg⟩ => (freeze_eq_ok hg).1,
    freeze_ok (hs.wellFormed hblank)⟩
  obtain ⟨⟨hreached, haborted⟩, _⟩ := hfails.causes hblank hs
  refine ⟨fun later => ?_, freeze_of_aborted haborted, fun he n => ?_⟩
  · rw [afterAll_of_aborted haborted]
    exact ⟨rfl, fun next => (fails_of_aborted haborted next).1⟩
  · have hrefused : e ≠ .aborted ∧ ¬s.Exceeds e := by
      constructor
      · rintro rfl
        rcases he with ⟨_, he⟩ | ⟨_, _, he⟩ <;> cases he
      · intro hexceeds
        obtain ⟨_, _, rfl⟩ := hexceeds.exists_resource
        rcases he with ⟨_, he⟩ | ⟨_, _, he⟩ <;> cases he
    have hstore := hfails.store_eq hblank hs hrefused.1 hrefused.2
    refine ⟨hblank.pointsTo_eq hstore (hreached.wellFormed hblank) n, ?_⟩
    have htable : (s.after call).table = (new config order t cs).table :=
      congrArg Store.table hstore
    rw [htable]
    rfl

/-- A copy from a node that is not there is found before the address constraint is looked at. A
bound of one membership is passed in the middle of a run. Both are final. -/
theorem failures_final_sample :
    (let s := new (Preset.config .balanced) .oldest .sample [.addrOf 0 2, .copy 1 5]
      ∃ index reason, s.Fails (.invalidConstraint index reason) .step ∧
        (s.after .step).Fails .aborted .solve ∧ (s.after .step).freeze = .error .aborted ∧
        ∀ n, (s.after .step).pointsTo n = {} ∧
          (s.after .step).table.root n = NodeTable.sample.root n) ∧
    let s := new { Preset.config .balanced with limits := { maxMembership := some 1 } } .oldest
      .sample Constraint.sample
    s.Fails (.resourceExceeded .membership 1) .solve ∧
      ((s.after .solve).afterAll [.step, .solve]) = s.after .solve ∧
      ((s.after .solve).afterAll [.step, .solve]).Fails .aborted .step ∧
      (s.after .solve).freeze = .error .aborted := by
  constructor
  · intro s
    have hfails : ∃ index reason, s.Fails (.invalidConstraint index reason) .step := ⟨_, _, rfl⟩
    obtain ⟨index, reason, hfails⟩ := hfails
    obtain ⟨hfinal, _⟩ := failures_final NodeTable.reachable_sample (Preset.config .balanced)
      .oldest [.addrOf 0 2, .copy 1 5] []
    obtain ⟨hlater, hfreeze, hempty⟩ := hfinal .step _ hfails
    exact ⟨index, reason, hfails, (hlater []).2 .solve, hfreeze,
      hempty (.inr ⟨index, reason, rfl⟩)⟩
  · intro s
    have hfails : s.Fails (.resourceExceeded .membership 1) .solve := by
      have hends : Action.Ends solve s (fun _ _ => False)
          fun e _ => e = .resourceExceeded .membership 1 := by decide +kernel
      obtain ⟨_, _, hsolve, rfl⟩ := hends.exists_error
      rw [Fails, Action.value, hsolve]
    obtain ⟨hfinal, _⟩ := failures_final NodeTable.reachable_sample
      { Preset.config .balanced with limits := { maxMembership := some 1 } } .oldest
      Constraint.sample []
    obtain ⟨hlater, hfreeze, _⟩ := hfinal .solve _ hfails
    exact ⟨hfails, (hlater [.step, .solve]).1, (hlater [.step, .solve]).2 .step, hfreeze⟩

end Final

end Solver

end PointsTo

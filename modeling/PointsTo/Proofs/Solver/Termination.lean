import PointsTo.Proofs.Solver.Fixpoint

/-!
# Every run ends

A run advances until an advance fails or finds nothing left to do. `solve` gives
this loop a number of advances that it may take. Here it is shown that the
number is never used up, so `solve` is the loop itself (`Drains`), and that the
loop ends: an advance after which there may be more to do has merged classes, or
filled up a set, or at least shortened the queue. A cycle of a null class and a
class of unknown memory, which every search finds again and none may merge,
changes nothing in that, since such a search leaves everything as it was.
-/

namespace PointsTo

namespace Solver

/-- The solvers that come of `s₀` by starting runs and by advances. -/
inductive Attains (s₀ : Solver) : Solver → Prop
  | new : Attains s₀ s₀
  | begin {s : Solver} : Attains s₀ s → Attains s₀ (Action.state begin s)
  | advance {s : Solver} :
      Attains s₀ s → s.phase = .running → Attains s₀ (Action.state advance s)

/-- The loop of a run from `s` ends with a result, after as many advances as it
takes. -/
inductive Drains : Solver → EStateM.Result AnalysisError Solver Unit → Prop
  | failed {s t : Solver} {e : AnalysisError} (h : advance s = .error e t) :
      Drains s (.error e t)
  | fixpoint {s t : Solver} (h : advance s = .ok false t) : Drains s (.ok () t)
  | more {s t : Solver} {r : EStateM.Result AnalysisError Solver Unit}
      (h : advance s = .ok true t) (hrest : Drains t r) : Drains s r

section Attains

variable {s s₀ : Solver}

theorem Attains.reached (hs₀ : s₀.Blank) (h : s₀.Attains s) : Reached s₀ s := by
  induction h with
  | new => exact .fresh
  | begin _ ih =>
      refine Action.Ends.state (m := Solver.begin) ?_
      exact (begin_ends hs₀ ih).imp (fun _ _ ht => ht.1) fun _ _ ht => ht.1
  | advance _ hphase ih =>
      refine Action.Ends.state (m := Solver.advance) ?_
      exact (advance_ends hs₀ ih hphase).imp (fun _ _ ht => ht.1) fun _ _ ht => ht.1

/-! ## The loop -/

theorem advanceAll_succ (fuel : Nat) (s : Solver) :
    advanceAll (fuel + 1) s =
      match advance s with
      | .ok true t => advanceAll fuel t
      | .ok false t => .ok () t
      | .error e t => .error e t := by
  have hbind : advanceAll (fuel + 1) s =
      EStateM.bind advance (fun more => if more then advanceAll fuel else pure ()) s := rfl
  rw [hbind, EStateM.bind]
  cases advance s with
  | ok more t => cases more <;> rfl
  | error e t => rfl

theorem solve_eq (s : Solver) :
    solve s =
      match begin s with
      | .ok _ t => advanceAll (advanceBound t.table.size) t
      | .error e t => .error e t := by
  have hbind : solve s = EStateM.bind begin
      (fun _ => do advanceAll (advanceBound (← get).table.size)) s := rfl
  rw [hbind, EStateM.bind]
  cases begin s <;> rfl

theorem step_eq (s : Solver) :
    step s =
      if s.phase = .running then advance s
      else
        match begin s with
        | .ok _ t => advance t
        | .error e t => .error e t := by
  have hbind : step s = (if s.phase ≠ .running then EStateM.bind begin fun _ => advance
      else advance) s := rfl
  rw [hbind, ite_not]
  split
  next => rfl
  next =>
    rw [EStateM.bind]
    cases begin s <;> rfl

theorem work_lt_advanceBound (h : s.Steady) : s.work < advanceBound s.table.size := by
  have hclasses := s.store.classes_le_size
  have hmissing := s.store.missing_le_sq
  have hqueue : s.worklist.queue.length ≤ s.store.size := by
    have hsub : s.worklist.queue ⊆ List.range s.store.size :=
      fun n hn => List.mem_range.2 (h.orderly.queue_lt n hn)
    have hle := (h.worklist.nodup.subperm hsub).length_le
    rwa [List.length_range] at hle
  have hsize : s.table.size = s.store.size := rfl
  rw [work, advanceBound, hsize, Nat.add_mul, Nat.mul_add]
  omega

/-- With enough fuel the loop is not cut off. -/
theorem drains_advanceAll (hs₀ : s₀.Blank) (fuel : Nat) (h : Reached s₀ s)
    (hphase : s.phase = .running) (hfuel : s.work < fuel) : s.Drains (advanceAll fuel s) := by
  induction fuel generalizing s with
  | zero => exact absurd hfuel (Nat.not_lt_zero _)
  | succ fuel ih =>
      have hends := advance_ends hs₀ h hphase
      rw [advanceAll_succ]
      unfold Action.Ends at hends
      cases hadvance : advance s with
      | error e t => exact .failed hadvance
      | ok more t =>
          rw [hadvance] at hends
          cases more with
          | false => exact .fixpoint hadvance
          | true =>
              have hwork := hends.2.2.work_lt
              exact .more hadvance (ih hends.1 hends.2.1 (by omega))

/-- A result is a solved or an aborted solver. -/
def Concludes (s₀ : Solver) : EStateM.Result AnalysisError Solver Unit → Prop
  | .ok _ t => Reached s₀ t ∧ t.phase = .solved
  | .error _ t => Reached s₀ t ∧ t.phase = .aborted

theorem Drains.concludes (hs₀ : s₀.Blank) {r : EStateM.Result AnalysisError Solver Unit}
    (h : s.Drains r) (hs : Reached s₀ s) (hphase : s.phase = .running) : Concludes s₀ r := by
  induction h with
  | failed hadvance => exact (advance_ends hs₀ hs hphase).of_eq_error hadvance
  | fixpoint hadvance => exact (advance_ends hs₀ hs hphase).of_eq_ok hadvance
  | more hadvance _ ih =>
      have hends := (advance_ends hs₀ hs hphase).of_eq_ok hadvance
      exact ih hends.1 hends.2.1

theorem begin_drains (hs₀ : s₀.Blank) (h : Reached s₀ s) :
    Action.Ends begin s (fun _ t => t.Drains (solve s)) (fun e t => solve s = .error e t) ∧
      Concludes s₀ (solve s) := by
  have hends := begin_ends hs₀ h
  rw [solve_eq]
  unfold Action.Ends at *
  cases hbegin : begin s with
  | error e t =>
      rw [hbegin] at hends
      exact ⟨rfl, hends⟩
  | ok _ t =>
      rw [hbegin] at hends
      have hsteady := (hends.1.sound hs₀ (.inl hends.2)).steady
      have hdrains := drains_advanceAll hs₀ _ hends.1 hends.2 (work_lt_advanceBound hsteady)
      exact ⟨hdrains, hdrains.concludes hs₀ hends.1 hends.2⟩

theorem solve_ends (hs₀ : s₀.Blank) (h : Reached s₀ s) :
    Action.Ends solve s (fun _ t => Reached s₀ t ∧ t.phase = .solved)
      (fun _ t => Reached s₀ t ∧ t.phase = .aborted) := by
  have hconcludes := (begin_drains hs₀ h).2
  unfold Action.Ends
  cases hsolve : solve s <;> rwa [hsolve] at hconcludes

end Attains

/-! ## Every run ends -/

section Terminates

variable {t : NodeTable} {s s₀ : Solver}

/-- The loop of a run goes through solvers that can be reached. -/
theorem Drains.attains (hs₀ : s₀.Blank) {r : EStateM.Result AnalysisError Solver Unit}
    (h : s.Drains r) (hs : s₀.Attains s) (hphase : s.phase = .running) :
    s₀.Attains (Action.state (fun _ => r) s) := by
  have hnext : ∀ {s r : _}, s₀.Attains s → s.phase = .running → advance s = r →
      s₀.Attains (Action.state (fun _ => r) s) := by
    rintro s _ hs hphase rfl
    exact .advance hs hphase
  induction h with
  | failed hadvance => exact hnext hs hphase hadvance
  | fixpoint hadvance => exact hnext hs hphase hadvance
  | more hadvance _ ih =>
      have hends := (advance_ends hs₀ (hs.reached hs₀) hphase).of_eq_ok hadvance
      exact ih (hnext hs hphase hadvance) hends.2.1

theorem Attains.after (hs₀ : s₀.Blank) (hs : s₀.Attains s) (call : Call) :
    s₀.Attains (s.after call) := by
  have hbegin := begin_ends hs₀ (hs.reached hs₀)
  have hdrains := (begin_drains hs₀ (hs.reached hs₀)).1
  have hbegun : s₀.Attains (Action.state Solver.begin s) := .begin hs
  unfold Action.Ends at hbegin hdrains
  unfold Action.state at hbegun
  cases call with
  | step =>
      rw [Solver.after, Action.state, step_eq]
      by_cases hphase : s.phase = .running
      · rw [if_pos hphase]
        exact .advance hs hphase
      · rw [if_neg hphase]
        cases hb : Solver.begin s with
        | error e u => rwa [hb] at hbegun
        | ok _ u =>
            rw [hb] at hbegin hbegun
            exact .advance hbegun hbegin.2
  | solve =>
      rw [Solver.after, Action.state]
      cases hb : Solver.begin s with
      | error e u =>
          rw [hb] at hdrains hbegun
          rwa [hdrains]
      | ok _ u =>
          rw [hb] at hdrains hbegun hbegin
          exact hdrains.attains hs₀ hbegun hbegin.2

/-- Calls of `step` and `solve` lead to no other solvers. -/
theorem attains_afterAll (hs₀ : s₀.Blank) (calls : List Call) :
    s₀.Attains (s₀.afterAll calls) := by
  have hall : ∀ s, s₀.Attains s → s₀.Attains (s.afterAll calls) := by
    induction calls with
    | nil => exact fun _ hs => hs
    | cons call calls ih => exact fun s hs => ih _ (hs.after hs₀ call)
  exact hall s₀ .new

/-- From every solver that can be reached, an advance fails, or finds nothing left
to do, or leaves less to do in a well-founded order. So the loop of a run ends,
and `solve`, which is that loop, solves or aborts. -/
theorem solve_terminates (ht : t.Reachable) (config : Config) (order : Schedule)
    (cs : List Constraint) {s : Solver} (hs : (new config order t cs).Attains s) :
    (s.phase = .running →
      Action.Ends advance s
        (fun more u => if more then u.phase = .running ∧ u.remaining < s.remaining
          else u.phase = .solved)
        (fun _ u => u.phase = .aborted)) ∧
    Action.Ends begin s (fun _ u => u.Drains (solve s)) (fun e u => solve s = .error e u) ∧
    Action.Ends solve s (fun _ u => u.phase = .solved) (fun _ u => u.phase = .aborted) := by
  have hblank := blank_new ht.wellFormed config order cs
  have hreached := hs.reached hblank
  refine ⟨fun hphase => ?_, ?_, ?_⟩
  · refine (advance_ends hblank hreached hphase).imp (fun more u hu => ?_) fun _ _ hu => hu.2
    cases more with
    | false => exact hu.2
    | true => exact ⟨hu.2.1, hu.2.2.remaining_lt⟩
  · exact (begin_drains hblank hreached).1
  · exact (solve_ends hblank hreached).imp (fun _ _ hu => hu.2) fun _ _ hu => hu.2

/-- A step into a run with a search after every node: the cycle through null and
unknown memory is there, and the run ends all the same. -/
theorem solve_terminates_mixed :
    let s := (new ((Preset.config .thorough).set (.sccInterval 1)) .newest .mixed
      Constraint.mixed).after .step
    s.phase = .running ∧
      Action.Ends advance s
        (fun more u => if more then u.phase = .running ∧ u.remaining < s.remaining
          else u.phase = .solved)
        (fun _ u => u.phase = .aborted) ∧
      Action.Ends solve s (fun _ u => u.phase = .solved) (fun _ u => u.phase = .aborted) := by
  intro s
  have hattains : (new ((Preset.config .thorough).set (.sccInterval 1)) .newest .mixed
      Constraint.mixed).Attains s :=
    attains_afterAll (blank_new NodeTable.reachable_mixed.wellFormed _ _ _) [.step]
  have hrunning : s.phase = .running := by decide +kernel
  have hterminates := solve_terminates NodeTable.reachable_mixed _ _ _ hattains
  exact ⟨hrunning, hterminates.1 hrunning, hterminates.2.2⟩

end Terminates

end Solver

end PointsTo

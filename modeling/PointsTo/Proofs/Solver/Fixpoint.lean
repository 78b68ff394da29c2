import PointsTo.Config.Preset
import PointsTo.Proofs.Solver.Collapse
import PointsTo.Proofs.Solver.Indexing

/-!
# What a solver ends with

A solver is used by calls of `step` and `solve` in any order. Between two calls
it is as it was made, or aborted, or no pointee is lost (`Reached`). When it is
solved the worklist is empty, so every pointee of every class has been passed on
in every respect, and the sets satisfy all constraints.

In whatever state it is, a solver has come from its empty sets by the steps of
`Store.Step`. So its sets lie in every solution, and a solver that is solved has
found the least one.
-/

namespace PointsTo

namespace Solver

section Run

variable {s s₀ t : Solver}

/-! ## One advance -/

/-- What one advance from `s` to `t` comes to. -/
structure Turns (s : Solver) (more : Bool) (t : Solver) : Prop where
  watched : s.Watched → t.Watched
  nears : more = true → s.Nears t
  drained : more = false → t.worklist.queue = [] ∧ t.recent = {}

/-- A search when it is due, and what follows it. -/
theorem searchDue_ends {c : Prop} [Decidable c] {rest : Action Solver Bool} (h : s.Steady)
    {Q : Bool → Solver → Prop}
    (hrest : ∀ t, t.Steady → s.Runs t → (s.Watched → t.Watched) →
      (s.Nears t ∨ t.store = s.store ∧ t.worklist = s.worklist) →
      Action.Ends rest t Q fun _ u => s.Runs u) :
    Action.Ends (if c then do let _ ← detectCycles; rest else rest) s Q fun _ u => s.Runs u := by
  rw [Action.ends_ite]
  constructor
  · exact fun _ => (detectCycles_ends h).bind
      fun _ t ⟨hruns, ht, hsearch⟩ => hrest t ht hruns hsearch.watched hsearch.nears_or_eq
  · exact fun _ => hrest s h (.refl s) id (.inr ⟨rfl, rfl⟩)

theorem advanceOnce_ends (h : s.Steady) :
    Action.Ends advanceOnce s (fun more t => s.Runs t ∧ t.Steady ∧ s.Turns more t)
      (fun _ t => s.Runs t) := by
  rw [advanceOnce, Action.ends_bind, Action.ends_get]
  refine searchDue_ends h fun t ht hruns hwatched hprogress => ?_
  rw [Action.ends_bind, Action.ends_get]
  split
  next n worklist hpop =>
    have hpopped : ({ t with worklist } : Solver).Tracks t.store.Passed t.store.Passed
        fun m => m = t.store.root n := by
      refine ⟨ht.store, ht.worklist.pop? hpop,
        ⟨fun m hm => ht.orderly.queue_lt m ?_, ht.orderly.recent_ascending,
          ht.orderly.recent_lt⟩, ht.flow, ht.sent_pts, fun m o ho hdone => ?_⟩
      · exact (Worklist.perm_of_pop? hpop).mem_iff.2 (List.mem_cons_of_mem n hm)
      · obtain ⟨w, hw, hroot⟩ := (ht.pending m o ho hdone).resolve_right id
        rcases Worklist.mem_queue_of_pop? hpop hw with rfl | hw
        · exact .inr hroot.symm
        · exact .inl ⟨w, hw, hroot⟩
    have hlt : n < t.store.size :=
      ht.orderly.queue_lt n ((Worklist.perm_of_pop? hpop).mem_iff.2 List.mem_cons_self)
    have hset : s.Runs { t with worklist } := hruns.trans ⟨.refl, rfl, rfl, rfl, rfl⟩
    rw [Action.ends_bind, Action.ends_set]
    refine Action.Ends.bind ((process_ends (s := { t with worklist }) hlt hpopped).imp_error
      fun _ u hu => hset.trans hu) ?_
    rintro _ u ⟨hu, husteady, hproceeds⟩
    have hnears : t.Nears u := hproceeds.nears rfl (Worklist.length_queue_of_pop? hpop)
    exact ⟨hset.trans hu, husteady, fun hs => hproceeds.watched (hwatched hs),
      fun _ => .of_left hprogress hnears, fun hmore => Bool.noConfusion hmore⟩
  next hpop =>
    have hqueue : t.worklist.queue = [] := Worklist.pop?_eq_none_iff.1 hpop
    refine Action.Ends.bind ((detectCycles_ends ht).imp_error
      fun _ u hu => hruns.trans hu) ?_
    rintro merged u ⟨hu, husteady, hsearch⟩
    rw [Action.ends_bind, Action.ends_get, Action.ends_pure]
    refine ⟨hruns.trans hu, husteady, fun hs => hsearch.watched (hwatched hs), fun hmore => ?_,
      fun hmore => ?_⟩
    · refine .of_left hprogress (hsearch.nears (Nat.pos_of_ne_zero fun hzero => ?_))
      have hsame := (hsearch.unchanged hzero).2.1
      simp [hzero, hsame, Worklist.isEmpty, hqueue] at hmore
    · rw [Bool.or_eq_false_iff, decide_eq_false_iff_not, Bool.not_eq_false', Worklist.isEmpty,
        List.isEmpty_iff] at hmore
      exact ⟨hmore.2, (hsearch.unchanged (Nat.eq_zero_of_not_pos hmore.1)).2.2⟩

/-- When nothing is queued, every pointee has been passed on. -/
theorem Tracks.passed (h : s.Steady) (hqueue : s.worklist.queue = []) {n o : Nat}
    (ho : o ∈ (s.store.cell n).pts) : s.store.Passed n o := by
  by_contra hnot
  obtain ⟨w, hw, _⟩ := (h.pending n o ho hnot).resolve_right id
  exact List.not_mem_nil (hqueue ▸ hw)

theorem Tracks.pts_subset (h : s.Steady) (hqueue : s.worklist.queue = []) {a b : Nat}
    (hab : s.store.Linked a b) {o : Nat} (ho : o ∈ s.store.pts a) : o ∈ s.store.pts b := by
  rcases hab with hab | ⟨m, hm, hroot⟩
  · rwa [Store.pts, ← hab]
  · have harrived := h.flow.edges _ m o hm (h.passed hqueue ho)
    rwa [Store.pts, hroot] at harrived

/-- Every copy that a constraint on record asks for has been made. -/
theorem Tracks.linked (h : s.Steady) (hqueue : s.worklist.queue = []) {c : Constraint}
    (hrecord : s.store.Records c) {a b : Nat}
    (hcopies : c.Copies s.store.table s.config.fieldSensitive (fun n => {o | o ∈ s.store.pts n})
      a b) : s.store.Linked a b := by
  unfold Store.Records at hrecord
  unfold Constraint.Copies at hcopies
  cases hkind : c.kind with
  | addrOf =>
      rw [hkind] at hcopies
      exact hcopies.elim
  | copy =>
      rw [hkind] at hrecord hcopies
      obtain ⟨rfl, rfl⟩ := hcopies
      exact hrecord
  | load =>
      rw [hkind] at hrecord hcopies
      obtain ⟨o, ho, rfl, rfl⟩ := hcopies
      exact h.flow.loads _ o _ hrecord (h.passed hqueue ho)
  | store =>
      rw [hkind] at hrecord hcopies
      obtain ⟨o, ho, rfl, rfl⟩ := hcopies
      exact h.flow.stores _ o _ hrecord (h.passed hqueue ho)

/-- When nothing is queued, all that is on record holds. -/
theorem Tracks.satisfies {cs : List Constraint} (h : s.Steady) (hqueue : s.worklist.queue = [])
    (hrecords : ∀ c ∈ cs, s.store.Records c) (hseeded : s.store.Seeded cs) :
    Family.Satisfies (fun n => {o | o ∈ s.store.pts n}) s.store.table s.config.fieldSensitive
      cs where
  holds c hc := Constraint.holds_iff.2 ⟨hseeded.address c hc,
    fun _ _ hcopies _ ho => h.pts_subset hqueue (h.linked hqueue (hrecords c hc) hcopies) ho⟩
  universal := hseeded.universal

/-! ## Calls -/

/-- One call of a solver. -/
inductive Call where
  | step
  | solve
deriving DecidableEq

/-- The solver after a call, whether the call succeeds or fails. -/
def after (s : Solver) : Call → Solver
  | .step => Action.state step s
  | .solve => Action.state solve s

/-- The solver after one call after the other. -/
def afterAll (s : Solver) (calls : List Call) : Solver := calls.foldl after s

/-- A solver that has not been called yet. -/
structure Blank (s : Solver) : Prop where
  table : s.table.WellFormed
  cells_size : s.cells.size = s.table.size
  cell_eq (n : Nat) : s.store.cell n = {}
  worklist : s.worklist.WellFormed
  queue_eq : s.worklist.queue = []
  recent_eq : s.recent = {}
  indexed : s.indexed = false
  phase : s.phase = .fresh

theorem blank_new {table : NodeTable} (ht : table.WellFormed) (config : Config) (order : Schedule)
    (cs : List Constraint) : (new config order table cs).Blank where
  table := ht.applyLimits config.limits
  cells_size := Array.size_replicate
  cell_eq n := by
    have hcells : (new config order table cs).store.cells = Array.replicate table.size {} := rfl
    rw [Store.cell, hcells, Array.getD_eq_getD_getElem?, Array.getElem?_replicate]
    split <;> rfl
  worklist := Worklist.wellFormed_new order.pops
  queue_eq := rfl
  recent_eq := rfl
  indexed := rfl
  phase := rfl

theorem Blank.wellFormed (h : s.Blank) : s.store.WellFormed where
  table := h.table
  cells_size := h.cells_size
  proper n := h.cell_eq n ▸ Cell.proper_empty _
  idle n _ := h.cell_eq n

theorem Blank.enters (h : s.Blank)
    (hvalid : s.table.validate s.config.fieldSensitive s.constraints = .ok ()) :
    Store.Enters s.config.fieldSensitive s.constraints s.store s.indexConstraints.store :=
  foldl_indexConstraint_enters h.wellFormed
    (fun c hc => Constraint.lt_size_of_flaw? (NodeTable.validate_eq_ok_iff.1 hvalid c hc)) _

theorem Blank.orderly (h : s.Blank) : s.Orderly where
  queue_lt _ hn := absurd (h.queue_eq ▸ hn) List.not_mem_nil
  recent_ascending := h.recent_eq ▸ NodeSet.ascending_empty
  recent_lt n hn := absurd (h.recent_eq ▸ hn) (NodeSet.not_mem_default n)

/-- Without edges there are no cycles. -/
theorem Blank.watched (h : s.Blank) : s.Watched := by
  have hsame : ∀ a b, s.store.Connected a b → s.store.root a = s.store.root b := by
    intro a b hab
    induction hab with
    | refl => rfl
    | tail _ hlinked ih =>
        refine ih.trans (hlinked.resolve_right ?_)
        rintro ⟨m, hm, _⟩
        rw [h.cell_eq] at hm
        exact NodeSet.not_mem_default m hm
  exact fun a b hab _ hne => absurd (hsame a b hab) hne

theorem Blank.remembers (h : s.Blank)
    (hvalid : s.table.validate s.config.fieldSensitive s.constraints = .ok ()) :
    s.Remembers s.indexConstraints ∧ s.indexConstraints.Orderly := by
  obtain ⟨hremembers, horderly⟩ := foldl_indexConstraint_remembers h.wellFormed h.orderly
    fun c hc => Constraint.lt_size_of_flaw? (NodeTable.validate_eq_ok_iff.1 hvalid c hc)
  exact ⟨hremembers.trans (.of_store_eq rfl fun _ => id), horderly.congr rfl rfl rfl⟩

theorem Blank.seeding (h : s.Blank)
    (hvalid : s.table.validate s.config.fieldSensitive s.constraints = .ok ()) :
    s.indexConstraints.Seeding := by
  have henters := h.enters hvalid
  have hnone : ∀ n o, ¬s.indexConstraints.store.Passed n o := by
    intro n o ho
    rw [Store.Passed, (henters.sets_eq n).2, h.cell_eq] at ho
    exact NodeSet.not_mem_default o ho
  obtain ⟨cells, recent, hframe⟩ := s.foldl_indexConstraint_frame s.constraints
  have hworklist : s.indexConstraints.worklist = s.worklist := by
    rw [indexConstraints, hframe]
  exact
    { store := henters.wellFormed
      worklist := hworklist ▸ h.worklist
      orderly := (h.remembers hvalid).2
      flow := ⟨fun n _ o _ ho => absurd ho (hnone n o), fun n o _ _ ho => absurd ho (hnone n o),
        fun n o _ _ ho => absurd ho (hnone n o)⟩
      sent_pts := fun n o ho => absurd ho (hnone n o)
      pending := fun _ _ _ _ => .inr trivial }

/-- The solver `s` has entered the constraints of `s₀` and made steps since. -/
structure Live (s₀ s : Solver) : Prop where
  config_eq : s.config = s₀.config
  constraints_eq : s.constraints = s₀.constraints
  indexed : s.indexed = true
  valid : s₀.table.validate s₀.config.fieldSensitive s₀.constraints = .ok ()
  steps : s₀.indexConstraints.store.Steps s₀.config.fieldSensitive s₀.constraints s.store

/-- What holds, besides, of a solver that has not failed: no pointee is lost, and
no cycle. -/
structure Sound (s₀ s : Solver) : Prop extends Live s₀ s where
  steady : s.Steady
  seeded : s.store.Seeded s₀.constraints
  watched : s.Watched

/-- What a solver is between two calls if it was `s₀` once. -/
inductive Reached (s₀ : Solver) : Solver → Prop
  | fresh : Reached s₀ s₀
  | refused {s : Solver} (hstore : s.store = s₀.store) (hphase : s.phase = .aborted) :
      Reached s₀ s
  | failed {s : Solver} (h : Live s₀ s) (hphase : s.phase = .aborted) : Reached s₀ s
  | running {s : Solver} (h : Sound s₀ s) (hphase : s.phase = .running) : Reached s₀ s
  | solved {s : Solver} (h : Sound s₀ s) (hphase : s.phase = .solved)
      (hdrained : s.worklist.queue = [] ∧ s.recent = {}) : Reached s₀ s

variable (hs₀ : s₀.Blank)

theorem Live.runs (h : Live s₀ s) (hst : s.Runs t) : Live s₀ t where
  config_eq := hst.config_eq.trans h.config_eq
  constraints_eq := hst.constraints_eq.trans h.constraints_eq
  indexed := hst.indexed_eq.trans h.indexed
  valid := h.valid
  steps := h.steps.trans (h.config_eq ▸ h.constraints_eq ▸ hst.steps)

theorem live_index (hvalid : s₀.table.validate s₀.config.fieldSensitive s₀.constraints = .ok ()) :
    Live s₀ s₀.indexConstraints := by
  obtain ⟨cells, recent, hframe⟩ := s₀.foldl_indexConstraint_frame s₀.constraints
  refine ⟨?_, ?_, rfl, hvalid, .refl⟩
  · rw [indexConstraints, hframe]
  · rw [indexConstraints, hframe]

/-- Neither the phase nor the log takes part in what a run has done so far. -/
theorem Live.congr (h : Live s₀ s) (hconfig : t.config = s.config)
    (hconstraints : t.constraints = s.constraints) (hindexed : t.indexed = s.indexed)
    (hstore : t.store = s.store) : Live s₀ t where
  config_eq := hconfig.trans h.config_eq
  constraints_eq := hconstraints.trans h.constraints_eq
  indexed := hindexed.trans h.indexed
  valid := h.valid
  steps := hstore ▸ h.steps

theorem Live.abort (h : Live s₀ s) (e : AnalysisError) : Reached s₀ (s.abort e) :=
  .failed (h.congr rfl rfl rfl rfl) rfl

include hs₀

theorem Live.extends (h : Live s₀ s) : s₀.store.Extends s.store := by
  have henters := hs₀.enters h.valid
  exact henters.gains.trans (h.steps.extends henters.wellFormed)

theorem Live.records (h : Live s₀ s) : ∀ c ∈ s₀.constraints, s.store.Records c := by
  have henters := hs₀.enters h.valid
  exact fun c hc => (h.steps.extends henters.wellFormed).records (henters.records c hc)

/-- Any operand of a constraint that was entered is a node. -/
theorem Live.range (h : Live s₀ s) :
    ∀ c ∈ s.constraints, c.dest < s.store.size ∧ c.src < s.store.size := by
  intro c hc
  rw [(h.extends hs₀).size_eq]
  rw [h.constraints_eq] at hc
  exact Constraint.lt_size_of_flaw? (NodeTable.validate_eq_ok_iff.1 h.valid c hc)

/-- Once the constraints are entered, a solver that is not aborted can be seeded, whether
for the first time or again. -/
theorem prepare_live (h : Reached s₀ s) (hphase : s.phase ≠ .aborted) :
    Action.Ends prepare s
      (fun _ t => (Live s₀ t ∧ t.Seeding ∧ t.Watched) ∧ t.table = s.table ∧
        s.store.Extends t.store)
      (fun e t => t = s ∧ Reached s₀ (t.abort e)) := by
  have hagain : Sound s₀ s → Action.Ends prepare s
      (fun _ t => (Live s₀ t ∧ t.Seeding ∧ t.Watched) ∧ t.table = s.table ∧
        s.store.Extends t.store)
      (fun e t => t = s ∧ Reached s₀ (t.abort e)) := by
    intro hs
    have hseeding : s.Seeding := { hs.steady with
      pending := fun n o ho hdone => (hs.steady.pending n o ho hdone).imp_right False.elim }
    refine (prepare_ends s).imp ?_ ?_
    · rintro _ t (⟨_, rfl⟩ | ⟨hnot, _⟩)
      · exact ⟨⟨hs.toLive, hseeding, hs.watched⟩, rfl, .refl _⟩
      · exact absurd (hs.indexed.symm.trans hnot) Bool.noConfusion
    · rintro e _ rfl
      exact ⟨rfl, hs.toLive.abort e⟩
  cases h with
  | fresh =>
      refine (prepare_ends s).imp ?_ ?_
      · rintro _ t (⟨hindexed, _⟩ | ⟨_, rfl, hvalid⟩)
        · exact absurd (hs₀.indexed.symm.trans hindexed) Bool.noConfusion
        · have henters := hs₀.enters hvalid
          exact ⟨⟨live_index hvalid, hs₀.seeding hvalid,
            (hs₀.remembers hvalid).1.watched hs₀.watched⟩, henters.table_eq, henters.gains⟩
      · rintro e _ rfl
        exact ⟨rfl, .refused rfl rfl⟩
  | refused _ haborted => exact absurd haborted hphase
  | failed _ haborted => exact absurd haborted hphase
  | running hsound _ => exact hagain hsound
  | solved hsound _ _ => exact hagain hsound

/-- Seeding turns a solver that is not aborted into a running one. -/
theorem seed_ends (h : Reached s₀ s) (hphase : s.phase ≠ .aborted) :
    Action.Ends seed s (fun _ t => Reached s₀ t ∧ t.phase = .running)
      (fun e t => Reached s₀ (t.abort e)) := by
  refine Action.Ends.bind ((prepare_live hs₀ h hphase).imp_error fun _ _ he => he.2) ?_
  rintro _ t ⟨⟨hlive, ht, hwatched⟩, _⟩
  refine (seedRest_ends ht (hlive.range hs₀)).imp ?_ fun e u hu => (hlive.runs hu).abort e
  rintro _ u ⟨hu, hrunning, hsteady, hseeded, hremembers⟩
  have hlive' : Live s₀ u := (hlive.runs hu).congr rfl rfl rfl rfl
  exact ⟨.running ⟨hlive', hsteady, hlive.constraints_eq ▸ hseeded,
    hremembers.watched hwatched⟩ hrunning, hrunning⟩

omit hs₀ in
theorem guarded_ends {α : Type} {m : Action Solver α} {Q : α → Solver → Prop}
    {E : AnalysisError → Solver → Prop} (h : Action.Ends m s Q fun e t => E e (t.abort e)) :
    Action.Ends (guarded m) s Q E := by
  unfold Action.Ends guarded at *
  cases hm : m s with
  | ok a t => rwa [hm] at h
  | error e t => rwa [hm] at h

omit hs₀ in
/-- An aborted solver stays as it is; any other one goes on to `m`. -/
theorem refuseAborted_ends {α : Type} {m : Action Solver α} {Q : α → Solver → Prop}
    {E : AnalysisError → Solver → Prop} (haborted : s.phase = .aborted → E .aborted s)
    (h : s.phase ≠ .aborted → Action.Ends m s Q E) :
    Action.Ends (do refuseAborted; m) s Q E := by
  rw [Action.ends_bind, refuseAborted, Action.ends_bind, Action.ends_get, Action.ends_ite]
  exact ⟨haborted, h⟩

theorem begin_ends (h : Reached s₀ s) :
    Action.Ends begin s (fun _ t => Reached s₀ t ∧ t.phase = .running)
      (fun _ t => Reached s₀ t ∧ t.phase = .aborted) :=
  refuseAborted_ends (fun haborted => ⟨h, haborted⟩) fun hphase =>
    guarded_ends ((seed_ends hs₀ h hphase).imp_error fun _ _ ht => ⟨ht, rfl⟩)

omit hs₀ in
theorem Sound.turn (h : Sound s₀ s) {more : Bool} (hst : s.Runs t) (ht : t.Steady)
    (hturns : s.Turns more t) : Sound s₀ t where
  toLive := h.toLive.runs hst
  steady := ht
  seeded := (hst.extends h.steady.store).seeded h.seeded
  watched := hturns.watched h.watched

theorem Reached.sound (h : Reached s₀ s) (hphase : s.phase = .running ∨ s.phase = .solved) :
    Sound s₀ s := by
  cases h with
  | fresh => simp [hs₀.phase] at hphase
  | refused _ haborted => simp [haborted] at hphase
  | failed _ haborted => simp [haborted] at hphase
  | running h _ => exact h
  | solved h _ _ => exact h

theorem advance_ends (h : Reached s₀ s) (hphase : s.phase = .running) :
    Action.Ends advance s
      (fun more t => Reached s₀ t ∧
        if more then t.phase = .running ∧ s.Nears t else t.phase = .solved)
      (fun _ t => Reached s₀ t ∧ t.phase = .aborted) := by
  refine refuseAborted_ends (fun haborted => ⟨h, haborted⟩) fun _ => ?_
  have hsound := h.sound hs₀ (.inl hphase)
  refine Action.Ends.bind (guarded_ends ((advanceOnce_ends hsound.steady).imp_error
    fun e t ht => ⟨(hsound.toLive.runs ht).abort e, rfl⟩)) ?_
  rintro more t ⟨ht, hsteady, hturns⟩
  have hsound' := hsound.turn ht hsteady hturns
  dsimp only
  rw [Action.ends_ite]
  constructor
  · intro hdone
    rw [Bool.not_eq_true'] at hdone
    rw [Action.ends_bind, Action.ends_modify, Action.ends_pure, hdone]
    refine ⟨.solved ⟨hsound'.toLive.congr rfl rfl rfl rfl, ?_, hsound'.seeded, hsound'.watched⟩ rfl
      (hturns.drained hdone), rfl⟩
    exact hsteady.congr rfl rfl rfl (hsteady.orderly.congr rfl rfl rfl)
  · intro hmore
    rw [Bool.not_eq_true', Bool.not_eq_false] at hmore
    have hrunning : t.phase = .running := ht.phase_eq.trans hphase
    rw [Action.ends_pure, hmore]
    exact ⟨.running hsound' hrunning, hrunning, hturns.nears hmore⟩

/-- Whatever the start of a run and each of its advances keep, a call keeps. -/
theorem Reached.after_keeps {R : Solver → Solver → Prop} (hrefl : ∀ s, R s s)
    (htrans : ∀ {s t u}, R s t → R t u → R s u)
    (hbegin : ∀ {s}, Reached s₀ s → Action.Ends begin s (fun _ => R s) fun _ => R s)
    (hadvance : ∀ {s}, Reached s₀ s → s.phase = .running →
      Action.Ends advance s (fun _ => R s) fun _ => R s)
    (h : Reached s₀ s) (call : Call) : R s (s.after call) := by
  have hbegun := ((begin_ends hs₀ h).and (hbegin h)).imp_error fun _ _ ht => ht.2
  have hall : ∀ fuel t, Reached s₀ t → t.phase = .running →
      Action.Ends (advanceAll fuel) t (fun _ => R t) fun _ => R t := by
    intro fuel
    induction fuel with
    | zero => exact fun t _ _ => hrefl t
    | succ fuel ih =>
        intro t ht hphase
        refine Action.Ends.bind (((advance_ends hs₀ ht hphase).and
          (hadvance ht hphase)).imp_error fun _ _ hu => hu.2) ?_
        rintro more u ⟨⟨hu, hmore⟩, hkeeps⟩
        rw [Action.ends_ite]
        refine ⟨fun hgo => ?_, fun _ => hkeeps⟩
        rw [if_pos hgo] at hmore
        exact (ih u hu hmore.1).imp (fun _ _ => htrans hkeeps) fun _ _ => htrans hkeeps
  cases call with
  | step =>
      refine Action.Ends.state (m := step) (P := R s) ?_
      rw [step, Action.ends_bind, Action.ends_get]
      dsimp only
      rw [Action.ends_ite]
      refine ⟨fun _ => hbegun.bind ?_, fun hphase => hadvance h (not_not.1 hphase)⟩
      rintro _ t ⟨⟨ht, hphase⟩, hkeeps⟩
      exact (hadvance ht hphase).imp (fun _ _ => htrans hkeeps) fun _ _ => htrans hkeeps
  | solve =>
      refine Action.Ends.state (m := solve) (P := R s) (hbegun.bind ?_)
      rintro _ t ⟨⟨ht, hphase⟩, hkeeps⟩
      rw [Action.ends_bind, Action.ends_get]
      exact (hall _ t ht hphase).imp (fun _ _ => htrans hkeeps) fun _ _ => htrans hkeeps

theorem Reached.after (h : Reached s₀ s) (call : Call) : Reached s₀ (s.after call) :=
  h.after_keeps hs₀ (R := fun s t => Reached s₀ s → Reached s₀ t) (fun _ hs => hs)
    (fun h h' hs => h' (h hs))
    (fun hs => (begin_ends hs₀ hs).imp (fun _ _ ht _ => ht.1) fun _ _ ht _ => ht.1)
    (fun hs hphase => (advance_ends hs₀ hs hphase).imp (fun _ _ ht _ => ht.1)
      fun _ _ ht _ => ht.1) call h

/-- What holds between two calls holds after any number of them. -/
theorem reached_afterAll (calls : List Call) : Reached s₀ (s₀.afterAll calls) := by
  have hall : ∀ s, Reached s₀ s → Reached s₀ (s.afterAll calls) := by
    induction calls with
    | nil => exact fun _ hs => hs
    | cons call calls ih => exact fun s hs => ih _ (hs.after hs₀ call)
  exact hall s₀ .fresh

theorem Reached.wellFormed (h : Reached s₀ s) : s.store.WellFormed := by
  have hlive : Live s₀ s → s.store.WellFormed :=
    fun h => h.steps.wellFormed (hs₀.enters h.valid).wellFormed
  cases h with
  | fresh => exact hs₀.wellFormed
  | refused hstore _ => exact hstore ▸ hs₀.wellFormed
  | failed h _ => exact hlive h
  | running h _ => exact hlive h.toLive
  | solved h _ _ => exact hlive h.toLive

theorem Reached.extends (h : Reached s₀ s) : s₀.store.Extends s.store := by
  cases h with
  | fresh => exact .refl _
  | refused hstore _ => exact hstore ▸ .refl _
  | failed h _ => exact h.extends hs₀
  | running h _ => exact h.toLive.extends hs₀
  | solved h _ _ => exact h.toLive.extends hs₀

theorem Blank.grounded {S : Family} {flows : Nat → Nat → Prop}
    (hclasses : ∀ a b, s₀.table.root a = s₀.table.root b → flows a b) :
    s₀.store.Grounded s₀.config.fieldSensitive S flows where
  classes := hclasses
  pts n o ho := by
    rw [hs₀.cell_eq] at ho
    exact absurd ho (NodeSet.not_mem_default o)
  succs n m hm := by
    rw [hs₀.cell_eq] at hm
    exact absurd hm (NodeSet.not_mem_default m)
  loads n r hr := by
    rw [hs₀.cell_eq] at hr
    exact absurd hr List.not_mem_nil
  stores n r hr := by
    rw [hs₀.cell_eq] at hr
    exact absurd hr List.not_mem_nil

/-- Whatever a solver has done, its edges and classes lead nowhere but where the
constraints do. -/
theorem Reached.grounded (h : Reached s₀ s) {S : Family} {flows : Nat → Nat → Prop}
    (hflows : S.GrowsAlong flows)
    (hS : S.Satisfies s₀.table s₀.config.fieldSensitive s₀.constraints)
    (hclasses : ∀ a b, s₀.table.root a = s₀.table.root b → flows a b)
    (hcopies : ∀ c ∈ s₀.constraints, ∀ a b,
      c.Copies s₀.table s₀.config.fieldSensitive S a b → flows a b) :
    s.store.Grounded s₀.config.fieldSensitive S flows := by
  have hblank : s₀.store.Grounded s₀.config.fieldSensitive S flows := hs₀.grounded hclasses
  have hlive : Live s₀ s → s.store.Grounded s₀.config.fieldSensitive S flows := by
    intro h
    have henters := hs₀.enters h.valid
    refine h.steps.grounded hflows henters.wellFormed ?_
      (henters.grounded S flows hflows hcopies hblank)
    exact hS.congr (congrArg NodeTable.nodes henters.table_eq)
  cases h with
  | fresh => exact hblank
  | refused hstore _ => exact hstore ▸ hblank
  | failed h _ => exact hlive h
  | running h _ => exact hlive h.toLive
  | solved h _ _ => exact hlive h.toLive

/-- Whatever a solver has done, its store stays within every solution. -/
theorem Reached.justified (h : Reached s₀ s) {S : Family}
    (hS : S.Solves s₀.table s₀.config.fieldSensitive s₀.constraints) :
    s.store.Justified s₀.config.fieldSensitive S := by
  have hflows : S.GrowsAlong fun a b => S a ⊆ S b :=
    ⟨fun _ => Set.Subset.rfl, Set.Subset.trans, id⟩
  exact (h.grounded hs₀ hflows hS.toSatisfies (fun a b hab => (hS.classes a b hab).subset)
    fun c hc => (Constraint.holds_iff.1 (hS.holds c hc)).2).justified

end Run

/-! ## What is found -/

/-- The sets of a solver, as a family. -/
def family (s : Solver) : Family := fun n => {o | o ∈ s.pointsTo n}

section Family

variable {s s₀ : Solver}

theorem pointsTo_eq (hs : s.store.WellFormed) (n : Nat) : s.pointsTo n = s.store.pts n := by
  rw [pointsTo]
  split
  next => rfl
  next hn =>
    have hroot : s.store.root n = n :=
      hs.table.root_of_size_le (Nat.le_of_not_lt fun hlt => hn (NodeTable.contains_iff.2 hlt))
    have hcell : s.store.cell n = {} := by
      by_contra hne
      exact hn (NodeTable.contains_iff.2 (hs.isRoot_of_ne hne).lt)
    rw [Store.pts, hroot, hcell]
    rfl

theorem family_eq (hs : s.store.WellFormed) : s.family = fun n => {o | o ∈ s.store.pts n} := by
  funext n
  rw [family, pointsTo_eq hs]

theorem Reached.drained (hs₀ : s₀.Blank) (h : Reached s₀ s) (hsolved : s.phase = .solved) :
    s.worklist.queue = [] ∧ s.recent = {} := by
  cases h with
  | fresh => simp [hs₀.phase] at hsolved
  | refused _ haborted => simp [haborted] at hsolved
  | failed _ haborted => simp [haborted] at hsolved
  | running _ hrunning => simp [hrunning] at hsolved
  | solved _ _ hdrained => exact hdrained

theorem Reached.family_satisfies (hs₀ : s₀.Blank) (h : Reached s₀ s) (hsolved : s.phase = .solved) :
    s.family.Satisfies s₀.table s₀.config.fieldSensitive s₀.constraints := by
  have hwf := h.wellFormed hs₀
  rw [family_eq hwf]
  have hnodes := (h.extends hs₀).nodes_eq
  have hsound := h.sound hs₀ (.inr hsolved)
  have hall := hsound.steady.satisfies (h.drained hs₀ hsolved).1 (hsound.records hs₀) hsound.seeded
  rw [hsound.config_eq] at hall
  exact hall.congr hnodes.symm

theorem Reached.family_solves (hs₀ : s₀.Blank) (h : Reached s₀ s) (hsolved : s.phase = .solved) :
    s.family.Solves s₀.table s₀.config.fieldSensitive s₀.constraints where
  toSatisfies := h.family_satisfies hs₀ hsolved
  classes a b hab := by
    have hroot : s.store.root a = s.store.root b := (h.extends hs₀).classes a b hab
    rw [family_eq (h.wellFormed hs₀)]
    simp only [Store.pts, hroot]

theorem Reached.family_subset (hs₀ : s₀.Blank) (h : Reached s₀ s) {S : Family}
    (hS : S.Solves s₀.table s₀.config.fieldSensitive s₀.constraints) (n : Nat) :
    s.family n ⊆ S n := by
  have hwf := h.wellFormed hs₀
  have hjustified := h.justified hs₀ hS
  rw [family_eq hwf]
  intro o ho
  exact hjustified.root_eq hwf n ▸ hjustified.pts _ o ho

/-- A solver that is solved holds the least solution. -/
theorem Reached.family_eq_leastSolution (hs₀ : s₀.Blank) (h : Reached s₀ s)
    (hsolved : s.phase = .solved) (n : Nat) :
    s.family n = leastSolution s₀.table s₀.config.fieldSensitive s₀.constraints n :=
  eq_leastSolution (h.family_solves hs₀ hsolved) (fun _ hS => h.family_subset hs₀ hS) n

end Family

section Found

variable {t : NodeTable}

theorem reached_new (ht : t.WellFormed) (config : Config) (order : Schedule)
    (cs : List Constraint) (calls : List Call) :
    (new config order t cs).Reached ((new config order t cs).afterAll calls) :=
  reached_afterAll (blank_new ht config order cs) calls

/-- A solver that is solved has computed the least solution over the table that
it was given. -/
theorem family_eq_leastSolution (ht : t.WellFormed) (config : Config) (order : Schedule)
    (cs : List Constraint) (calls : List Call)
    (hsolved : ((new config order t cs).afterAll calls).phase = .solved) (n : Nat) :
    ((new config order t cs).afterAll calls).family n =
      leastSolution t config.fieldSensitive cs n := by
  have hblank := blank_new ht config order cs
  have hfound := (reached_new ht config order cs calls).family_eq_leastSolution hblank hsolved n
  have hlimits : leastSolution (new config order t cs).table config.fieldSensitive cs n =
      leastSolution t config.fieldSensitive cs n :=
    leastSolution_congr (t := t) (u := (new config order t cs).table) rfl (fun _ _ => Iff.rfl) n
  exact hfound.trans hlimits

/-- The sets of a solved solver satisfy every constraint, whatever the order in
which nodes were popped and cycles were searched. -/
theorem solved_satisfies (ht : t.Reachable) (config : Config) (order : Schedule)
    (cs : List Constraint) (calls : List Call)
    (hsolved : ((new config order t cs).afterAll calls).phase = .solved) :
    ((new config order t cs).afterAll calls).family.Satisfies t config.fieldSensitive cs := by
  have hblank := blank_new ht.wellFormed config order cs
  have hreached := reached_new ht.wellFormed config order cs calls
  exact (hreached.family_satisfies hblank hsolved).congr rfl

/-- The sample program is solved after a step and a full run; its copy closes a
cycle through the second field, so classes are merged on the way. -/
theorem solved_satisfies_sample :
    ((new (Preset.config .thorough) .newest .sample Constraint.sample).afterAll
      [.step, .solve]).family.Satisfies .sample true Constraint.sample :=
  solved_satisfies NodeTable.reachable_sample (Preset.config .thorough) .newest Constraint.sample
    [.step, .solve] (by decide +kernel)

/-- No solver, solved or not, holds a pointee or joins two classes unless every
solution does; a solved one holds the least solution. -/
theorem afterAll_precise (ht : t.Reachable) (config : Config) (order : Schedule)
    (cs : List Constraint) (calls : List Call) :
    let s := (new config order t cs).afterAll calls
    (∀ S : Family, S.Solves t config.fieldSensitive cs →
      (∀ n, s.family n ⊆ S n) ∧ ∀ a b, s.table.root a = s.table.root b → S a = S b) ∧
    (∀ a b, s.table.root a = s.table.root b →
      leastSolution t config.fieldSensitive cs a = leastSolution t config.fieldSensitive cs b) ∧
    (s.phase = .solved → ∀ n, s.family n = leastSolution t config.fieldSensitive cs n) := by
  intro s
  have hblank := blank_new ht.wellFormed config order cs
  have hreached : (new config order t cs).Reached s :=
    reached_new ht.wellFormed config order cs calls
  have hsame : ∀ S : Family, S.Solves t config.fieldSensitive cs →
      S.Solves (new config order t cs).table config.fieldSensitive cs :=
    fun S hS => hS.congr rfl fun _ _ hab => hab
  have hclasses : ∀ S : Family, S.Solves t config.fieldSensitive cs →
      ∀ a b, s.table.root a = s.table.root b → S a = S b :=
    fun S hS => (hreached.justified hblank (hsame S hS)).classes
  refine ⟨fun S hS => ⟨hreached.family_subset hblank (hsame S hS), hclasses S hS⟩, ?_, ?_⟩
  · exact hclasses _ (leastSolution_solves t config.fieldSensitive cs)
  · exact family_eq_leastSolution ht.wellFormed config order cs calls

theorem afterAll_precise_sample :
    let s := (new (Preset.config .thorough) .newest .sample Constraint.sample).afterAll
      [.step, .solve]
    s.phase = .solved ∧ s.table.root 1 = s.table.root 3 ∧
      s.family 1 = leastSolution .sample true Constraint.sample 1 ∧
      leastSolution .sample true Constraint.sample 1 =
        leastSolution .sample true Constraint.sample 3 := by
  have hprecise := afterAll_precise NodeTable.reachable_sample (Preset.config .thorough) .newest
    Constraint.sample [.step, .solve]
  have hsolved : ((new (Preset.config .thorough) .newest .sample Constraint.sample).afterAll
      [.step, .solve]).phase = .solved := by decide +kernel
  have hmerged : ((new (Preset.config .thorough) .newest .sample Constraint.sample).afterAll
      [.step, .solve]).table.root 1 = ((new (Preset.config .thorough) .newest .sample
      Constraint.sample).afterAll [.step, .solve]).table.root 3 := by decide +kernel
  exact ⟨hsolved, hmerged, hprecise.2.2 hsolved 1, hprecise.2.1 1 3 hmerged⟩

end Found

end Solver

end PointsTo

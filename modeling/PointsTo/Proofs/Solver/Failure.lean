import PointsTo.Proofs.Solver.Termination

/-!
# How a solver can fail

Passing pointees on leaves the node table as it is and fails only when the bound
on memberships is passed. A search for cycles merges groups of representatives
that do not clash, so it fails only when the bound on merges is used up, and it
counts every merge. All that remains is what is checked before a run: the size of
the table and the constraints.

So the merges that a run counts are the merges of the table since it was begun
(`Counts`), whether a search was made in between or after all nodes.
-/

namespace PointsTo

namespace Solver

/-- The error says that the bound on memberships is passed. -/
def Overflows (s : Solver) (e : AnalysisError) : Prop :=
  ∃ limit, s.config.limits.maxMembership = some limit ∧ e = .resourceExceeded .membership limit

/-- The error says that one of the bounds of a run does not suffice. -/
def Exceeds (s : Solver) (e : AnalysisError) : Prop := s.table.RunsOut e ∨ s.Overflows e

/-- The error says that the table or the constraints are refused. -/
def Refuses (s : Solver) (e : AnalysisError) : Prop :=
  s.table.checkCapacity = .error e ∨
    s.table.validate s.config.fieldSensitive s.constraints = .error e

/-- Every merge of the table from `s` to `t` has been counted. -/
structure Counts (s t : Solver) : Prop where
  config_eq : t.config = s.config
  merges : ∃ count, s.table.Merges count t.table ∧
    t.stats.nodesCollapsed = s.stats.nodesCollapsed + count

section Counts

variable {s t u : Solver} {e : AnalysisError}

theorem Counts.of_table_eq (hconfig : t.config = s.config) (htable : t.table = s.table)
    (hcount : t.stats.nodesCollapsed = s.stats.nodesCollapsed) : s.Counts t :=
  ⟨hconfig, 0, htable ▸ .refl _, hcount⟩

theorem Counts.trans (h : s.Counts t) (h' : t.Counts u) : s.Counts u := by
  obtain ⟨hconfig, count, hmerges, hcount⟩ := h
  obtain ⟨hconfig', count', hmerges', hcount'⟩ := h'
  refine ⟨hconfig'.trans hconfig, count + count', hmerges.trans hmerges', ?_⟩
  rw [hcount', hcount, Nat.add_assoc]

theorem Overflows.of_config_eq (hconfig : t.config = s.config) (he : t.Overflows e) :
    s.Overflows e := by
  obtain ⟨limit, hlimit, rfl⟩ := he
  exact ⟨limit, hconfig ▸ hlimit, rfl⟩

theorem Counts.exceeds (h : s.Counts t) (he : t.Exceeds e) : s.Exceeds e := by
  obtain ⟨_, hmerges, _⟩ := h.merges
  exact he.imp hmerges.runsOut (.of_config_eq h.config_eq)

end Counts

/-! ## Passing pointees on -/

/-- What passing pointees on leaves as it is, and how it can fail. -/
def spreading : Action.Frame Solver where
  Keeps s t := t.config = s.config ∧ t.table = s.table ∧
    t.stats.nodesCollapsed = s.stats.nodesCollapsed
  Fails := Overflows
  refl _ := ⟨rfl, rfl, rfl⟩
  trans h h' := ⟨h'.1.trans h.1, h'.2.1.trans h.2.1, h'.2.2.trans h.2.2⟩
  fails h he := he.of_config_eq h.1

section Spreading

open Action.Frame

theorem bounds_charge (added : Nat) : spreading.Bounds (charge added) := by
  intro s
  rw [charge, Action.ends_bind, Action.ends_modify, Action.ends_bind, Action.ends_get]
  split
  next limit hlimit =>
    rw [Action.ends_ite]
    exact ⟨fun _ => ⟨limit, hlimit, rfl⟩, fun _ => ⟨rfl, rfl, rfl⟩⟩
  next => exact ⟨rfl, rfl, rfl⟩

theorem bounds_send (pointees : NodeSet) (target : Nat) :
    spreading.Bounds (send pointees target) := by
  refine .bind bounds_get fun s => .bind (bounds_modify fun _ => ⟨rfl, rfl, rfl⟩) fun _ => ?_
  refine .ite (.bind (bounds_modify fun _ => ⟨rfl, rfl, rfl⟩) fun _ => ?_) (bounds_pure _)
  exact .bind (bounds_charge _) fun _ => bounds_modify fun _ => ⟨rfl, rfl, rfl⟩

theorem bounds_addEdge (source target : Nat) : spreading.Bounds (addEdge source target) := by
  refine .bind bounds_get fun s => .ite ?_ (bounds_pure _)
  exact .bind (bounds_modify fun _ => ⟨rfl, rfl, rfl⟩) fun _ => bounds_send _ _

theorem bounds_access (o k : Nat) : spreading.Bounds (access o k) := by
  refine .bind bounds_get fun s => ?_
  split
  next => exact .bind (bounds_modify fun _ => ⟨rfl, rfl, rfl⟩) fun _ => bounds_pure _
  next => exact bounds_pure _

theorem bounds_materialize (fresh : List Nat) (loads stores : List (Nat × Nat)) :
    spreading.Bounds (materialize fresh loads stores) := by
  refine bounds_forM fun o => .bind (bounds_forM fun r => ?_) fun _ => bounds_forM fun r => ?_
  · exact .bind (bounds_access o r.2) fun _ => bounds_addEdge _ _
  · exact .bind (bounds_access o r.2) fun _ => bounds_addEdge _ _

theorem bounds_process (n : Nat) : spreading.Bounds (process n) := by
  refine .bind (bounds_modify fun _ => ⟨rfl, rfl, rfl⟩) fun _ => .bind bounds_get fun s => ?_
  refine .ite (.bind (bounds_modify fun _ => ⟨rfl, rfl, rfl⟩) fun _ => ?_) (bounds_pure _)
  refine .bind (bounds_materialize _ _ _) fun _ => ?_
  refine .bind (bounds_modify fun _ => ⟨rfl, rfl, rfl⟩) fun _ => .bind bounds_get fun t => ?_
  exact bounds_forM fun _ => bounds_send _ _

/-- A pointee is put into a set of the state that was read, so no frame for every state
applies to the write alone. -/
theorem bounds_seedPointee (dest src : Nat) : spreading.Bounds (seedPointee dest src) := by
  intro s
  rw [seedPointee, Action.ends_bind, Action.ends_get]
  dsimp only
  rw [Action.ends_ite]
  refine ⟨fun _ => ?_, fun _ => ⟨rfl, rfl, rfl⟩⟩
  rw [Action.ends_bind, Action.ends_set]
  exact (bounds_charge 1 _).imp (fun _ _ ht => ht) fun _ _ he => he

/-- What is left of seeding once the counters are cleared. -/
theorem bounds_seeding (addresses : List Constraint) (universals : List Nat) :
    spreading.Bounds (do
      addresses.forM fun c => seedPointee c.dest c.src
      universals.forM fun u => seedPointee u u
      modify fun s => { s.seeded.foldl push s with phase := .running }) := by
  refine .bind (bounds_forM fun _ => bounds_seedPointee _ _) fun _ => ?_
  refine .bind (bounds_forM fun _ => bounds_seedPointee _ _) fun _ => bounds_modify fun s => ?_
  obtain ⟨worklist, hframe⟩ := s.foldl_push_frame s.seeded
  rw [hframe]
  exact ⟨rfl, rfl, rfl⟩

end Spreading

/-! ## Collapsing -/

/-- What collapsing leaves as it is. -/
def collapsing : Action.Frame Solver where
  Keeps s t := t.config = s.config ∧ t.stats.nodesCollapsed = s.stats.nodesCollapsed
  Fails _ _ := True
  refl _ := ⟨rfl, rfl⟩
  trans h h' := ⟨h'.1.trans h.1, h'.2.trans h.2⟩
  fails _ _ := trivial

section Collapsing

open Action.Frame

variable {s : Solver} {members g : List Nat} {groups later : List (List Nat)}

theorem joins_collapse : NodeTable.Joins Solver.table collapse := by
  intro a b s
  rw [collapse, Action.ends_bind, Action.ends_get]
  split
  next e herror => exact herror
  next rep table hmerge => exact hmerge

theorem bounds_collapse (a b : Nat) : collapsing.Bounds (collapse a b) := by
  intro s
  rw [collapse, Action.ends_bind, Action.ends_get]
  split
  next => trivial
  next => exact ⟨rfl, rfl⟩

theorem bounds_collapseGroup (g : List Nat) : collapsing.Bounds (collapseGroup g) := by
  cases g with
  | nil => exact bounds_pure _
  | cons first others =>
      refine .bind (bounds_foldlM bounds_collapse first) fun rep => ?_
      exact .bind (bounds_modify fun _ => ⟨rfl, rfl⟩) fun _ => bounds_pure _

theorem bounds_collapseComponent (members : List Nat) :
    collapsing.Bounds (collapseComponent members) := by
  refine .bind bounds_get fun s => bounds_foldlM (fun merged group => ?_) 0
  exact .bind (bounds_collapseGroup group) fun _ => bounds_pure _

theorem collapseGroup_merges (h : s.table.Joinable (g :: groups) later) :
    Action.Ends (collapseGroup g) s
      (fun n t => t.table.Joinable groups later ∧ s.table.Merges n t.table)
      (fun e _ => s.table.RunsOut e) := by
  cases g with
  | nil => exact ⟨h.tail, .refl s.table⟩
  | cons first others => exact Action.Ends.bind (joins_collapse.foldlM h) fun _ _ ht => ht

theorem collapseComponent_merges (h : s.table.Joinable [] (members :: later)) :
    Action.Ends (collapseComponent members) s
      (fun n t => t.table.Joinable [] later ∧ s.table.Merges n t.table)
      (fun e _ => s.table.RunsOut e) := by
  rw [collapseComponent, Action.ends_bind, Action.ends_get]
  exact NodeTable.foldlM_merges Solver.table (fun groups t => t.Joinable groups later)
    (fun _ _ _ => collapseGroup_merges) h.split

/-- What a search finds may be split and merged, and none of it clashes. -/
theorem components_joinable (hs : s.store.WellFormed) (roots : List Nat) :
    s.table.Joinable [] (s.copyGraph.components roots).members where
  coherent := hs.table.toCoherent
  apart := (Store.mergeable_iff.1 (components_mergeable hs roots)).1
  clashFree _ hg := absurd hg List.not_mem_nil

/-- A search counts its merges, and runs out of them if it fails. -/
theorem detectCycles_counts (hs : s.store.WellFormed) :
    Action.Ends detectCycles s (fun _ t => s.Counts t) (fun e _ => s.table.RunsOut e) := by
  have hcollapsed : ∀ t : Solver, t.table = s.table →
      Action.Ends ((s.copyGraph.components s.searchRoots).members.foldlM
        (fun merged members => do return merged + (← collapseComponent members)) 0) t
        (fun n u => t.table.Merges n u.table ∧ u.config = t.config ∧
          u.stats.nodesCollapsed = t.stats.nodesCollapsed)
        (fun e _ => s.table.RunsOut e) := by
    intro t htable
    have hmerges := NodeTable.foldlM_merges Solver.table (s := t)
      (fun components t => t.Joinable [] components) (fun _ _ _ => collapseComponent_merges)
      (htable ▸ components_joinable hs s.searchRoots)
    have hframe : collapsing.Bounds ((s.copyGraph.components s.searchRoots).members.foldlM
        (fun merged members => do return merged + (← collapseComponent members)) 0) :=
      bounds_foldlM (fun _ members => .bind (bounds_collapseComponent members)
        fun _ => bounds_pure _) 0
    refine (hmerges.and (hframe t)).imp (fun n u hu => ⟨hu.1.2, hu.2⟩) fun e _ he => ?_
    exact htable ▸ he.1
  rw [detectCycles, Action.ends_bind, Action.ends_modify, Action.ends_bind, Action.ends_get]
  dsimp only
  rw [Action.ends_bind, Action.ends_modify]
  refine Action.Ends.bind (hcollapsed _ rfl) fun merged t ht => ?_
  obtain ⟨hmerges, hconfig, hcount⟩ := ht
  rw [Action.ends_bind, Action.ends_modify, Action.ends_pure]
  exact ⟨hconfig, merged, hmerges, congrArg (· + merged) hcount⟩

end Collapsing

/-! ## Runs -/

section Runs

variable {s s₀ t u : Solver}

/-- A search when it is due, and what follows it. -/
theorem searchDue_counts {c : Prop} [Decidable c] {rest : Action Solver Bool} (h : s.Steady)
    (hrest : ∀ t, t.Steady →
      Action.Ends rest t (fun _ u => t.Counts u) (fun e _ => t.Exceeds e)) :
    Action.Ends (if c then do let _ ← detectCycles; rest else rest) s (fun _ t => s.Counts t)
      (fun e _ => s.Exceeds e) := by
  rw [Action.ends_ite]
  refine ⟨fun _ => ?_, fun _ => hrest s h⟩
  refine Action.Ends.bind (((detectCycles_ends h).and (detectCycles_counts h.store)).imp_error
    fun _ _ he => .inl he.2) fun _ t ht => ?_
  exact (hrest t ht.1.2.1).imp (fun _ _ => ht.2.trans) fun _ _ => ht.2.exceeds

theorem advanceOnce_counts (h : s.Steady) :
    Action.Ends advanceOnce s (fun _ t => s.Counts t) (fun e _ => s.Exceeds e) := by
  rw [advanceOnce, Action.ends_bind, Action.ends_get]
  refine searchDue_counts h fun t ht => ?_
  rw [Action.ends_bind, Action.ends_get]
  split
  next n worklist hpop =>
    rw [Action.ends_bind, Action.ends_set]
    refine Action.Ends.bind ((bounds_process n _).imp_error fun _ _ => .inr) fun _ u hu => ?_
    exact .of_table_eq hu.1 hu.2.1 hu.2.2
  next hpop =>
    exact Action.Ends.bind ((detectCycles_counts ht.store).imp_error fun _ _ => .inl)
      fun _ u hu => hu

variable (hs₀ : s₀.Blank)

include hs₀

theorem advance_counts (h : Reached s₀ s) (hphase : s.phase = .running) :
    Action.Ends advance s (fun _ t => s.Counts t) (fun e _ => s.Exceeds e) := by
  refine refuseAborted_ends (fun haborted => ?_) fun _ => ?_
  · simp [hphase] at haborted
  refine Action.Ends.bind (guarded_ends (advanceOnce_counts (h.sound hs₀ (.inl hphase)).steady))
    fun more t ht => ?_
  rw [Action.ends_ite]
  exact ⟨fun _ => ht.trans (.of_table_eq rfl rfl rfl), fun _ => ht⟩

theorem advanceAll_counts (fuel : Nat) (h : Reached s₀ s) (hphase : s.phase = .running) :
    Action.Ends (advanceAll fuel) s (fun _ t => s.Counts t) (fun e _ => s.Exceeds e) := by
  induction fuel generalizing s with
  | zero => exact .of_table_eq rfl rfl rfl
  | succ fuel ih =>
      refine Action.Ends.bind (((advance_ends hs₀ h hphase).and
        (advance_counts hs₀ h hphase)).imp_error fun _ _ he => he.2) fun more t ht => ?_
      obtain ⟨⟨hreached, hmore⟩, hcounts⟩ := ht
      rw [Action.ends_ite]
      refine ⟨fun hgo => ?_, fun _ => hcounts⟩
      rw [if_pos hgo] at hmore
      exact (ih hreached hmore.1).imp (fun _ _ => hcounts.trans) fun _ _ => hcounts.exceeds

omit hs₀ in
/-- A run starts without a merge, and fails at once only for what is checked before it, when
nothing has been changed yet, or by the bound on memberships. -/
theorem begin_counts (s : Solver) :
    Action.Ends begin s
      (fun _ t => t.config = s.config ∧ t.table = s.table ∧ t.stats.nodesCollapsed = 0)
      (fun e t => s.phase = .aborted ∧ e = .aborted ∨
        s.indexed = false ∧ s.Refuses e ∧ t.store = s.store ∨ s.Overflows e) := by
  refine refuseAborted_ends (fun haborted => .inl ⟨haborted, rfl⟩) fun _ => guarded_ends ?_
  have hprepare : Action.Ends prepare s (fun _ t => t.config = s.config ∧ t.table = s.table)
      (fun e t => s.indexed = false ∧ s.Refuses e ∧ t.store = s.store) := by
    rw [prepare, Action.ends_bind, Action.ends_get, Action.ends_ite]
    refine ⟨fun hindexed => ?_, fun _ => ⟨rfl, rfl⟩⟩
    rw [Bool.not_eq_true'] at hindexed
    rw [Action.ends_bind, Action.ends_ofExcept]
    refine ⟨fun _ _ => ?_, fun _ he => ⟨hindexed, .inl he, rfl⟩⟩
    rw [Action.ends_bind, Action.ends_ofExcept]
    refine ⟨fun _ _ => ?_, fun _ he => ⟨hindexed, .inr he, rfl⟩⟩
    obtain ⟨cells, recent, hframe⟩ := s.foldl_indexConstraint_frame s.constraints
    rw [Action.ends_set, indexConstraints, hframe]
    exact ⟨rfl, rfl⟩
  refine Action.Ends.bind (hprepare.imp_error fun _ _ he => .inr (.inl he)) fun _ t ht => ?_
  rw [Action.ends_bind, Action.ends_modify, Action.ends_bind, Action.ends_get]
  refine (bounds_seeding _ _ _).imp (fun _ u hu => ?_) fun e _ he => ?_
  · exact ⟨hu.1.trans ht.1, hu.2.1.trans ht.2, hu.2.2⟩
  · exact .inr (.inr (he.of_config_eq ht.1))

omit hs₀ in
/-- A solver that has not been run yet does not get beyond constraints that are invalid. -/
theorem solve_refuses (hphase : s.phase ≠ .aborted) (hindexed : s.indexed = false)
    (hcapacity : s.table.checkCapacity = .ok ()) {e : AnalysisError}
    (h : s.table.validate s.config.fieldSensitive s.constraints = .error e) :
    Action.Ends solve s (fun _ _ => False) (fun e' _ => e' = e) := by
  have hprepare : Action.Ends prepare s (fun _ _ => False) (fun e' _ => e' = e) := by
    rw [prepare, Action.ends_bind, Action.ends_get, hindexed, Bool.not_false, if_pos rfl,
      Action.ends_bind, hcapacity, Action.ends_ofExcept_ok, Action.ends_bind, h,
      Action.ends_ofExcept_error]
  have hbegin : Action.Ends begin s (fun _ _ => False) (fun e' _ => e' = e) :=
    refuseAborted_ends (fun haborted => absurd haborted hphase) fun _ =>
      guarded_ends (hprepare.bind fun _ _ hfalse => hfalse.elim)
  exact hbegin.bind fun _ _ hfalse => hfalse.elim

/-- The errors of a whole run, and the merges that it counts. -/
theorem solve_counts (h : Reached s₀ s) :
    Action.Ends solve s
      (fun _ t => t.config = s.config ∧ s.table.Merges t.stats.nodesCollapsed t.table)
      (fun e t => s.phase = .aborted ∧ e = .aborted ∨
        s.indexed = false ∧ s.Refuses e ∧ t.store = s.store ∨ s.Exceeds e) := by
  refine Action.Ends.bind (((begin_ends hs₀ h).and (begin_counts s)).imp_error
    fun _ _ he => he.2.imp_right (Or.imp_right .inr)) fun _ t ht => ?_
  obtain ⟨⟨hreached, hphase⟩, hconfig, htable, hcount⟩ := ht
  rw [Action.ends_bind, Action.ends_get]
  refine (advanceAll_counts hs₀ _ hreached hphase).imp (fun _ u hu => ?_) fun e _ he => ?_
  · obtain ⟨hconfig', count, hmerges, hcount'⟩ := hu
    rw [hcount, Nat.zero_add] at hcount'
    exact ⟨hconfig'.trans hconfig, hcount' ▸ htable ▸ hmerges⟩
  · exact .inr (.inr (he.imp (htable ▸ id) (.of_config_eq hconfig)))

end Runs

end Solver

end PointsTo

import PointsTo.Proofs.Solver.Partition
import PointsTo.Proofs.Solver.Termination

/-!
# Solving a solved program

A solver that is solved is at rest (`Resting`): every class has passed its set on,
what is given outright is in its set, and the classes of a cycle may not be merged.
A second run queues every class with a set and starts searches from all of them.
But seeding finds each pointee in its place, a popped class has nothing to pass
on, and a search finds cycles of null and unknown memory at most, of which
nothing can be merged. So no action of the run changes more than the worklist,
the nodes to start from, and the numbers of pops and searches (`Idles`), and none
can fail.
-/

namespace PointsTo

/-- The counts of what a run has changed. -/
def SolverStats.changes (s : SolverStats) : List Nat :=
  [s.newMemberships, s.propagations, s.pointeesSent, s.materializedEdges, s.sccsCollapsed,
    s.nodesCollapsed]

namespace Solver

/-- There is nothing that a run could change. -/
structure Resting (s : Solver) : Prop where
  store : s.store.WellFormed
  reachable : s.table.Reachable
  indexed : s.indexed = true
  seeded : s.store.Seeded s.constraints
  passed (n o : Nat) : o ∈ (s.store.cell n).pts → s.store.Passed n o
  collapsed : s.store.Collapsed

/-- From `s` to `t` no set, edge or class has changed, and no change is counted. -/
structure Idles (s t : Solver) : Prop where
  store_eq : t.store = s.store
  constraints_eq : t.constraints = s.constraints
  indexed_eq : t.indexed = s.indexed
  changes_eq : t.stats.changes = s.stats.changes

section Resting

variable {s t u s₀ : Solver}

theorem Idles.refl (s : Solver) : s.Idles s := ⟨rfl, rfl, rfl, rfl⟩

theorem Idles.trans (h : s.Idles t) (h' : t.Idles u) : s.Idles u where
  store_eq := h'.store_eq.trans h.store_eq
  constraints_eq := h'.constraints_eq.trans h.constraints_eq
  indexed_eq := h'.indexed_eq.trans h.indexed_eq
  changes_eq := h'.changes_eq.trans h.changes_eq

theorem Resting.congr (h : s.Resting) (hstore : t.store = s.store)
    (hconstraints : t.constraints = s.constraints) (hindexed : t.indexed = s.indexed) :
    t.Resting where
  store := hstore ▸ h.store
  reachable := by
    have htable : t.table = s.table := congrArg Store.table hstore
    exact htable ▸ h.reachable
  indexed := hindexed.trans h.indexed
  seeded := hstore ▸ hconstraints ▸ h.seeded
  passed := hstore ▸ h.passed
  collapsed := hstore ▸ h.collapsed

theorem Resting.idles (h : s.Resting) (hst : s.Idles t) : t.Resting :=
  h.congr hst.store_eq hst.constraints_eq hst.indexed_eq

theorem Reached.resting (hs₀ : s₀.Blank) (h : Reached s₀ s) (hsolved : s.phase = .solved)
    (ht : s₀.table.Reachable) : s.Resting := by
  have hsound := h.sound hs₀ (.inr hsolved)
  exact
    { store := h.wellFormed hs₀
      reachable := h.reachable hs₀ ht
      indexed := hsound.indexed
      seeded := hsound.constraints_eq ▸ hsound.seeded
      passed := fun _ _ => hsound.steady.passed (h.drained hs₀ hsolved).1
      collapsed := h.collapsed hs₀ hsolved }

/-! ## The actions of a run -/

theorem prepare_idles (h : s.Resting) :
    Action.Ends prepare s (fun _ t => t = s) fun _ _ => False := by
  rw [prepare, Action.ends_bind, Action.ends_get, Action.ends_ite]
  exact ⟨fun hindexed => by simp [h.indexed] at hindexed, fun _ => rfl⟩

theorem seedPointee_idles (h : s.Resting) {dest src : Nat} (hmem : src ∈ s.store.pts dest) :
    Action.Ends (seedPointee dest src) s (fun _ t => t = s) fun _ _ => False := by
  rw [seedPointee, Action.ends_bind, Action.ends_get]
  dsimp only
  rw [Action.ends_ite]
  refine ⟨fun hfresh => ?_, fun _ => rfl⟩
  exact absurd hmem ((NodeSet.insert_fresh_iff (h.store.proper _).pts_ascending).1 hfresh)

/-- To seed pointees that are in their sets changes nothing. -/
theorem seedAll_idles {α : Type} (f : α → Nat × Nat) (xs : List α) (h : s.Resting)
    (hmem : ∀ x ∈ xs, (f x).2 ∈ s.store.pts (f x).1) :
    Action.Ends (xs.forM fun x => seedPointee (f x).1 (f x).2) s (fun _ t => t = s)
      fun _ _ => False := by
  refine (Action.ends_forM (fun rest t => t = s ∧ ∀ x ∈ rest, x ∈ xs) ?_
    ⟨rfl, fun _ hx => hx⟩).imp_ok
    fun _ _ ht => ht.1
  rintro x rest t ⟨rfl, hrest⟩
  rw [List.forall_mem_cons] at hrest
  exact (seedPointee_idles h (hmem x hrest.1)).imp_ok fun _ _ ht => ⟨ht, hrest.2⟩

theorem seed_idles (h : s.Resting) :
    Action.Ends seed s (fun _ t => ({ s with stats := s.stats.restart } : Solver).Idles t)
      fun _ _ => False := by
  refine (prepare_idles h).bind ?_
  rintro _ s rfl
  rw [Action.ends_bind, Action.ends_modify, Action.ends_bind, Action.ends_get]
  have hrestart : ({ s with stats := s.stats.restart } : Solver).Resting := h.congr rfl rfl rfl
  refine (seedAll_idles (fun c : Constraint => (c.dest, c.src)) _ hrestart fun c hc => ?_).bind ?_
  · obtain ⟨hc, hkind⟩ := List.mem_filter.1 hc
    exact h.seeded.address c hc (beq_iff_eq.1 hkind)
  rintro _ _ rfl
  refine (seedAll_idles (fun u : Nat => (u, u)) _ hrestart fun u hu => ?_).bind ?_
  · exact h.seeded.universal u ((mem_universals h.store).1 hu)
  rintro _ _ rfl
  rw [Action.ends_modify]
  obtain ⟨worklist, hframe⟩ := foldl_push_frame { s with stats := s.stats.restart }
    (seeded { s with stats := s.stats.restart })
  rw [hframe]
  exact ⟨rfl, rfl, rfl, rfl⟩

/-- A class at rest has nothing to pass on. -/
theorem process_idles (h : s.Resting) (popped : Nat) :
    Action.Ends (process popped) s (fun _ t => s.Idles t) fun _ _ => False := by
  rw [process, Action.ends_bind, Action.ends_modify, Action.ends_bind, Action.ends_get]
  dsimp only
  rw [Action.ends_ite]
  refine ⟨fun hdelta => ?_, fun _ => ⟨rfl, rfl, rfl, rfl⟩⟩
  have hproper := h.store.proper (s.store.root popped)
  have hempty : ((s.store.cell (s.store.root popped)).pts.difference
      (s.store.cell (s.store.root popped)).done).isEmpty = true := by
    refine NodeSet.isEmpty_iff.2 fun o ho => ?_
    rw [NodeSet.mem_difference hproper.pts_ascending hproper.done_ascending] at ho
    exact ho.2 (h.passed _ o ho.1)
  rw [Bool.not_eq_true'] at hdelta
  exact absurd (hempty.symm.trans hdelta) Bool.noConfusion

/-- Of a cycle at rest nothing can be merged. -/
theorem Resting.mergeableGroups_eq_nil (h : s.Resting) {roots members : List Nat}
    (hmembers : members ∈ (s.copyGraph.components roots).members) :
    s.table.mergeableGroups members = [] := by
  have hmergeable := components_mergeable h.store roots
  refine NodeTable.mergeableGroups_eq_nil
    ((List.nodup_flatten.1 hmergeable.nodup).1 members hmembers) fun a ha b hb hne => ?_
  have hroots := hmergeable.roots members hmembers
  have hconnected := hmergeable.connected members hmembers
  have hopposed : s.table.Opposed a b := by
    refine h.collapsed a b (hconnected a ha b hb) (hconnected b hb a ha) ?_
    rwa [(hroots a ha).root_eq, (hroots b hb).root_eq]
  obtain ⟨k, hak, hbk⟩ := hopposed
  exact ⟨k, h.reachable.special?_eq_some_iff.2 hak, h.reachable.special?_eq_some_iff.2 hbk⟩

theorem detectCycles_idles (h : s.Resting) :
    Action.Ends detectCycles s (fun merged t => merged = 0 ∧ s.Idles t) fun _ _ => False := by
  rw [detectCycles, Action.ends_bind, Action.ends_modify, Action.ends_bind, Action.ends_get]
  dsimp only
  rw [Action.ends_bind, Action.ends_modify]
  refine Action.Ends.bind (Action.ends_foldlM (fun rest merged t => (merged = 0 ∧ s.Idles t) ∧
      ∀ c ∈ rest, s.table.mergeableGroups c = []) ?_ ⟨⟨rfl, rfl, rfl, rfl, rfl⟩,
    fun c hc => h.mergeableGroups_eq_nil hc⟩) ?_
  · rintro c rest merged t ⟨⟨rfl, ht⟩, hrest⟩
    rw [List.forall_mem_cons] at hrest
    have htable : t.table = s.table := congrArg Store.table ht.store_eq
    rw [Action.ends_bind, collapseComponent, Action.ends_bind, Action.ends_get]
    dsimp only
    rw [htable, hrest.1]
    exact ⟨⟨rfl, ht⟩, hrest.2⟩
  · rintro _ t ⟨⟨rfl, ht⟩, _⟩
    rw [Action.ends_bind, Action.ends_modify, Action.ends_pure]
    exact ⟨rfl, ht.trans ⟨rfl, rfl, rfl, rfl⟩⟩

theorem searchDue_idles {c : Prop} [Decidable c] {rest : Action Solver Bool} (h : s.Resting)
    (hrest : ∀ t, s.Idles t → Action.Ends rest t (fun _ u => s.Idles u) fun _ _ => False) :
    Action.Ends (if c then do let _ ← detectCycles; rest else rest) s (fun _ u => s.Idles u)
      fun _ _ => False := by
  rw [Action.ends_ite]
  constructor
  · exact fun _ => (detectCycles_idles h).bind fun _ t ht => hrest t ht.2
  · exact fun _ => hrest s (.refl s)

theorem advanceOnce_idles (h : s.Resting) :
    Action.Ends advanceOnce s (fun _ t => s.Idles t) fun _ _ => False := by
  rw [advanceOnce, Action.ends_bind, Action.ends_get]
  refine searchDue_idles h fun t ht => ?_
  rw [Action.ends_bind, Action.ends_get]
  split
  next n worklist _ =>
    rw [Action.ends_bind, Action.ends_set]
    have hset : s.Idles { t with worklist } := ht.trans ⟨rfl, rfl, rfl, rfl⟩
    exact (process_idles (h.idles hset) n).bind fun _ u hu => hset.trans hu
  next =>
    refine (detectCycles_idles (h.idles ht)).bind fun merged u hu => ?_
    rw [Action.ends_bind, Action.ends_get, Action.ends_pure]
    exact ht.trans hu.2

theorem advance_idles (h : s.Resting) (hphase : s.phase ≠ .aborted) :
    Action.Ends advance s (fun _ t => s.Idles t) fun _ _ => False := by
  refine refuseAborted_ends hphase fun _ => ?_
  refine (guarded_ends (advanceOnce_idles h)).bind fun more t ht => ?_
  dsimp only
  rw [Action.ends_ite]
  constructor
  · intro _
    rw [Action.ends_bind, Action.ends_modify, Action.ends_pure]
    exact ht.trans ⟨rfl, rfl, rfl, rfl⟩
  · exact fun _ => ht

theorem begin_idles (h : s.Resting) (hphase : s.phase ≠ .aborted) :
    Action.Ends begin s (fun _ t => ({ s with stats := s.stats.restart } : Solver).Idles t)
      fun _ _ => False :=
  refuseAborted_ends hphase fun _ => guarded_ends (seed_idles h)

/-- The loop of a run at rest ends without an error and without a change. -/
theorem Drains.idles (hs₀ : s₀.Blank) {r : EStateM.Result AnalysisError Solver Unit}
    (h : s.Drains r) (hs : Reached s₀ s) (hphase : s.phase = .running) (hrest : s.Resting) :
    ∃ u, r = .ok () u ∧ s.Idles u := by
  induction h with
  | failed hadvance =>
      exact ((advance_idles hrest (by simp [hphase])).of_eq_error hadvance).elim
  | fixpoint hadvance =>
      exact ⟨_, rfl, (advance_idles hrest (by simp [hphase])).of_eq_ok hadvance⟩
  | more hadvance _ ih =>
      have hidles := (advance_idles hrest (by simp [hphase])).of_eq_ok hadvance
      have hends := (advance_ends hs₀ hs hphase).of_eq_ok hadvance
      obtain ⟨u, hr, hu⟩ := ih hends.1 hends.2.1 (hrest.idles hidles)
      exact ⟨u, hr, hidles.trans hu⟩

theorem solve_idles (hs₀ : s₀.Blank) (h : Reached s₀ s) (hsolved : s.phase = .solved)
    (ht : s₀.table.Reachable) :
    ∃ u, solve s = .ok () u ∧ u.phase = .solved ∧
      ({ s with stats := s.stats.restart } : Solver).Idles u := by
  have hrest := h.resting hs₀ hsolved ht
  have hbegin := (begin_idles hrest (by simp [hsolved])).and
    ((begin_ends hs₀ h).and (begin_drains hs₀ h).1)
  obtain ⟨_, t, _, hidles, ⟨hreached, hphase⟩, hdrains⟩ :=
    (hbegin.imp_error fun _ _ he => he.1).exists_ok
  have hrest' : t.Resting := hrest.congr hidles.store_eq hidles.constraints_eq hidles.indexed_eq
  obtain ⟨u, hu, hidles'⟩ := hdrains.idles hs₀ hreached hphase hrest'
  exact ⟨u, hu, ((solve_ends hs₀ h).of_eq_ok hu).2, hidles.trans hidles'⟩

end Resting

/-! ## Solving again -/

/-- A solved solver can be solved again. That succeeds, whatever the limits are; it
leaves every set, class and edge and the number of merges as they are, and reports
that it has changed nothing. -/
theorem solve_again {t : NodeTable} (ht : t.Reachable) (config : Config) (order : Schedule)
    (cs : List Constraint) (calls : List Call)
    (hsolved : ((new config order t cs).afterAll calls).phase = .solved) :
    let s := (new config order t cs).afterAll calls
    ∃ u, solve s = .ok () u ∧ u.phase = .solved ∧
      (∀ n, u.pointsTo n = s.pointsTo n) ∧ u.table = s.table ∧ u.cells = s.cells ∧
      u.stats.newMemberships = 0 ∧ u.stats.propagations = 0 ∧ u.stats.pointeesSent = 0 ∧
      u.stats.materializedEdges = 0 ∧ u.stats.sccsCollapsed = 0 ∧ u.stats.nodesCollapsed = 0 := by
  intro s
  obtain ⟨u, hu, hphase, hidles⟩ := solve_idles (blank_new ht.wellFormed config order cs)
    (reached_new ht.wellFormed config order cs calls) hsolved (ht.applyLimits config.limits)
  have htable : u.table = s.table := congrArg Store.table hidles.store_eq
  have hcells : u.cells = s.cells := congrArg Store.cells hidles.store_eq
  have hchanges : u.stats.changes = [0, 0, 0, 0, 0, 0] := hidles.changes_eq
  simp only [SolverStats.changes, List.cons.injEq, and_true] at hchanges
  refine ⟨u, hu, hphase, fun n => ?_, htable, hcells, hchanges⟩
  rw [pointsTo, pointsTo, cell, cell, htable, hcells]

/-- In the mixed program both runs find the cycle of null and unknown memory with
every search. -/
theorem solve_again_mixed :
    let s := (new ((Preset.config .thorough).set (.sccInterval 1)) .newest .mixed
      Constraint.mixed).afterAll [.solve]
    s.phase = .solved ∧ 0 < s.stats.newMemberships ∧ 0 < s.stats.nodesCollapsed ∧
      ∃ u, solve s = .ok () u ∧ u.table = s.table ∧ u.cells = s.cells ∧
        u.stats.newMemberships = 0 ∧ u.stats.nodesCollapsed = 0 := by
  intro s
  have hsolved : s.phase = .solved := by decide +kernel
  obtain ⟨u, hu, _, _, htable, hcells, hmemberships, _, _, _, _, hcollapsed⟩ :=
    solve_again NodeTable.reachable_mixed _ _ _ _ hsolved
  exact ⟨hsolved, by decide +kernel, by decide +kernel, u, hu, htable, hcells, hmemberships,
    hcollapsed⟩

end Solver

end PointsTo

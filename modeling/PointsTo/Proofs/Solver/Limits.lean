import PointsTo.Proofs.Limits
import PointsTo.Proofs.Solver.Membership
import PointsTo.Proofs.Solver.Representatives

/-!
# A solver within its limits

A solver charges its account as soon as a set has grown, and fails at once if that
takes the account past the bound. A merge can only lower it, since a union adds no
more than the set that is moved. So the account is within the bound as long as the
solver has not failed, and the sets hold no more than it says (`Within`); of a
solver that has failed only the table is known (`WorksOn`). Every part of a run
maintains the one or ends in the other (`Heeds`), so this is true not only of what
calls of `step` and `solve` come to, but also in between, wherever something is about
to be added to a set or classes are about to be merged (`Moment`).
-/

namespace PointsTo

namespace Solver

/-- The solver works under `config` on what merges have made of `t`. -/
structure WorksOn (config : Config) (t : NodeTable) (s : Solver) : Prop where
  config_eq : s.config = config
  mergesTo : t.MergesTo s.table

/-- The sets hold no more than the account says, and the account is within the bound. -/
structure Within (config : Config) (t : NodeTable) (s : Solver) : Prop
    extends s.WorksOn config t where
  held_le : s.store.held ≤ s.membership
  membership_le : ∀ k ∈ config.limits.maxMembership, s.membership ≤ k

/-- A solver is within its limits unless it is aborted. -/
structure Obeys (config : Config) (t : NodeTable) (s : Solver) : Prop
    extends s.WorksOn config t where
  within : s.phase ≠ .aborted → s.Within config t

/-- The action keeps a solver within its limits or fails. -/
abbrev Heeds {α : Type} (config : Config) (t : NodeTable) (m : Action Solver α) : Prop :=
  Action.Maintains (Within config t) (WorksOn config t) m

section Within

variable {config : Config} {t : NodeTable} {s u : Solver}

theorem Within.congr (h : s.Within config t) (hconfig : u.config = s.config)
    (hstore : u.store = s.store) : u.Within config t where
  config_eq := hconfig.trans h.config_eq
  mergesTo := by
    have htable : u.table = s.table := congrArg Store.table hstore
    exact htable ▸ h.mergesTo
  held_le := by
    rw [hstore]
    exact h.held_le.trans_eq (congrArg Store.membership hstore).symm
  membership_le k hk := (congrArg Store.membership hstore).trans_le (h.membership_le k hk)

theorem heeds_modify {f : Solver → Solver}
    (h : ∀ s, (f s).config = s.config ∧ (f s).store = s.store) : Heeds config t (modify f) :=
  Action.maintains_modify fun s hs => hs.congr (h s).1 (h s).2

theorem held_modifyCell_le (s : Solver) (n : Nat) (f : Cell → Cell) {k : Nat}
    (h : (f (s.cell n)).pts.size ≤ (s.cell n).pts.size + k) :
    (s.modifyCell n f).store.held ≤ s.store.held + k :=
  Store.held_modify_le (σ := s.store) rfl rfl h

/-- A cell may be changed as long as its set is not. -/
theorem Within.modifyCell (h : s.Within config t) (n : Nat) {f : Cell → Cell}
    (hf : ∀ c, (f c).pts = c.pts) : (s.modifyCell n f).Within config t := by
  have hheld := s.held_modifyCell_le n f (k := 0) (congrArg NodeSet.size (hf _)).le
  exact ⟨⟨h.config_eq, h.mergesTo⟩, hheld.trans h.held_le, h.membership_le⟩

theorem Within.markRecent (h : s.Within config t) (n : Nat) : (s.markRecent n).Within config t :=
  h.congr rfl rfl

/-- A merge takes no more off the account than off the sets, and adds no more to it than it
takes. -/
theorem Within.moveCell (h : s.Within config t) (rep gone : Nat) :
    (s.moveCell rep gone).Within config t := by
  let kept := s.cell rep
  let absorbed := s.cell gone
  let joined := s.modifyCell rep fun _ => absorb rep gone kept absorbed
  have hsize := NodeSet.size_union kept.pts absorbed.pts
  have hadded := NodeSet.union_snd_le kept.pts absorbed.pts
  have hjoined : joined.store.held ≤ s.store.held + (kept.pts.union absorbed.pts).2 :=
    s.held_modifyCell_le rep _ hsize.le
  have hmoved : (s.moveCell rep gone).store.held + (joined.cell gone).pts.size =
      joined.store.held :=
    Store.held_clear (σ := joined.store) (τ := (s.moveCell rep gone).store) rfl rfl
  have hgone : absorbed.pts.size ≤ (joined.cell gone).pts.size := by
    have hcell : joined.cell gone = _ := Store.cell_modify (σ := s.store) (τ := joined.store)
      (n := rep) (f := fun _ => absorb rep gone kept absorbed) rfl gone
    rw [hcell]
    split
    next heq =>
      -- a cell that is moved into itself is lost, and more than its set goes off the sum
      have hsame : absorbed = kept := congrArg s.cell heq.1
      rw [hsame]
      exact (Nat.le_add_right _ _).trans_eq (hsame ▸ hsize).symm
    next => exact le_rfl
  have hmembership : (s.moveCell rep gone).membership =
      s.membership + (kept.pts.union absorbed.pts).2 - absorbed.pts.size := rfl
  have hheld := h.held_le
  refine ⟨⟨h.config_eq, h.mergesTo⟩, ?_, fun k hk => ?_⟩
  · omega
  · have hle := h.membership_le k hk
    omega

/-! ## Passing pointees on -/

open PointsTo.Action

theorem charge_within {added : Nat} (h : s.WorksOn config t)
    (hheld : s.store.held ≤ s.membership + added) :
    Ends (charge added) s (fun _ => Within config t) fun _ => WorksOn config t := by
  obtain ⟨rfl, hmerges⟩ := h
  rw [charge, ends_bind, ends_modify, ends_bind, ends_get]
  split
  next limit hlimit =>
    rw [ends_ite]
    refine ⟨fun _ => ⟨rfl, hmerges⟩, fun hle => ⟨⟨rfl, hmerges⟩, hheld, fun k hk => ?_⟩⟩
    cases hlimit.symm.trans hk
    exact Nat.le_of_not_lt hle
  next hnone =>
    refine ⟨⟨rfl, hmerges⟩, hheld, fun k hk => ?_⟩
    cases hnone.symm.trans hk

/-- What is added to a set is charged before anything else happens. -/
theorem heeds_send (pointees : NodeSet) (target : Nat) :
    Heeds config t (send pointees target) := by
  intro s hs
  have hsize := NodeSet.size_union (s.cell target).pts pointees
  rw [send, ends_bind, ends_get]
  generalize (s.cell target).pts.union pointees = result at hsize ⊢
  obtain ⟨grown, added⟩ := result
  have hheld : (s.modifyCell target fun c => { c with pts := grown }).store.held ≤
      s.membership + added :=
    (s.held_modifyCell_le target _ hsize.le).trans (Nat.add_le_add_right hs.held_le added)
  rw [ends_bind, ends_modify, ends_ite]
  constructor
  · intro _
    rw [ends_bind, ends_modify]
    refine Ends.bind (charge_within ⟨hs.config_eq, hs.mergesTo⟩ hheld) fun _ u hu => ?_
    exact hu.congr rfl rfl
  · intro hadded
    rw [Nat.eq_zero_of_not_pos hadded] at hheld
    exact ⟨⟨hs.config_eq, hs.mergesTo⟩, hheld, hs.membership_le⟩

theorem heeds_seedPointee (dest src : Nat) : Heeds config t (seedPointee dest src) := by
  intro s hs
  have hsize := NodeSet.size_insert (s.cell (s.table.root dest)).pts src
  rw [seedPointee, ends_bind, ends_get]
  dsimp only
  rw [ends_ite]
  refine ⟨fun hfresh => ?_, fun _ => hs⟩
  rw [if_pos hfresh] at hsize
  rw [ends_bind, ends_set]
  refine charge_within ⟨hs.config_eq, hs.mergesTo⟩ ?_
  exact (s.held_modifyCell_le _ _ hsize.le).trans (Nat.add_le_add_right hs.held_le 1)

theorem heeds_addEdge (source target : Nat) : Heeds config t (addEdge source target) := by
  refine maintains_get.bind fun s => .ite (.bind ?_ fun _ => heeds_send _ _) (maintains_pure _)
  refine maintains_modify fun u hu => ?_
  have hlinked := hu.modifyCell (s.table.root source) (f := fun c =>
    { c with succs := ((s.cell (s.table.root source)).succs.insert (s.table.root target)).1 })
    fun _ => rfl
  exact hlinked.congr rfl rfl

theorem heeds_access (o k : Nat) : Heeds config t (access o k) := by
  refine maintains_get.bind fun s => ?_
  split
  next => exact .bind (heeds_modify fun _ => ⟨rfl, rfl⟩) fun _ => maintains_pure _
  next => exact maintains_pure _

theorem heeds_applyLoad (o : Nat) (rule : Nat × Nat) : Heeds config t (applyLoad o rule) :=
  (heeds_access o rule.2).bind fun _ => heeds_addEdge _ _

theorem heeds_applyStore (o : Nat) (rule : Nat × Nat) : Heeds config t (applyStore o rule) :=
  (heeds_access o rule.2).bind fun _ => heeds_addEdge _ _

theorem heeds_materialize (fresh : List Nat) (loads stores : List (Nat × Nat)) :
    Heeds config t (materialize fresh loads stores) := by
  refine maintains_forM (fun o => ?_) fresh
  exact (maintains_forM (heeds_applyLoad o) loads).bind
    fun _ => maintains_forM (heeds_applyStore o) stores

theorem heeds_process (popped : Nat) : Heeds config t (process popped) := by
  refine .bind (heeds_modify fun _ => ⟨rfl, rfl⟩) fun _ => ?_
  refine maintains_get.bind fun s => .ite ?_ (maintains_pure _)
  refine (maintains_modify fun _ hu => hu.modifyCell _ fun _ => rfl).bind fun _ => ?_
  refine (heeds_materialize _ _ _).bind fun _ => ?_
  refine (maintains_modify fun _ hu => hu.modifyCell _ fun _ => rfl).bind fun _ => ?_
  exact maintains_get.bind fun u => maintains_forM (heeds_send _) _

/-! ## Collapsing -/

theorem heeds_collapse (a b : Nat) : Heeds config t (collapse a b) := by
  intro s hs
  rw [collapse, ends_bind, ends_get]
  split
  next => exact hs.toWorksOn
  next rep table hmerge =>
    have hmerged : ({ s with table } : Solver).Within config t :=
      ⟨⟨hs.config_eq, .merge hs.mergesTo hmerge⟩, hs.held_le, hs.membership_le⟩
    exact hmerged.moveCell rep _

theorem heeds_collapseGroup (g : List Nat) : Heeds config t (collapseGroup g) := by
  cases g with
  | nil => exact maintains_pure 0
  | cons first others =>
      refine (maintains_foldlM heeds_collapse others first).bind fun rep => ?_
      exact .bind (heeds_modify fun _ => ⟨rfl, rfl⟩) fun _ => maintains_pure _

theorem heeds_collapseComponent (members : List Nat) :
    Heeds config t (collapseComponent members) := by
  refine maintains_get.bind fun s => maintains_foldlM (fun merged group => ?_) _ 0
  exact (heeds_collapseGroup group).bind fun _ => maintains_pure _

theorem heeds_detectCycles : Heeds config t detectCycles := by
  refine .bind (heeds_modify fun _ => ⟨rfl, rfl⟩) fun _ => ?_
  refine maintains_get.bind fun s => ?_
  refine .bind (heeds_modify fun _ => ⟨rfl, rfl⟩) fun _ => ?_
  refine (maintains_foldlM (fun merged members => ?_) _ 0).bind fun merged => ?_
  · exact (heeds_collapseComponent members).bind fun _ => maintains_pure _
  · exact .bind (heeds_modify fun _ => ⟨rfl, rfl⟩) fun _ => maintains_pure _

/-! ## Runs -/

theorem Within.indexConstraint (h : s.Within config t) (c : Constraint) :
    (s.indexConstraint c).Within config t := by
  unfold Solver.indexConstraint
  split
  next => exact h
  next =>
    dsimp only
    split
    next => exact h
    next =>
      refine Within.markRecent (h.modifyCell _ ?_) _
      exact fun _ => rfl
  next => exact h.modifyCell _ fun _ => rfl
  next => exact h.modifyCell _ fun _ => rfl

theorem Within.foldl_indexConstraint (h : s.Within config t) (cs : List Constraint) :
    (cs.foldl Solver.indexConstraint s).Within config t := by
  induction cs generalizing s with
  | nil => exact h
  | cons c cs ih => exact ih (h.indexConstraint c)

theorem heeds_prepare : Heeds config t prepare := by
  intro s hs
  rw [prepare, ends_bind, ends_get, ends_ite]
  refine ⟨fun _ => ?_, fun _ => hs⟩
  rw [ends_bind, ends_ofExcept]
  refine ⟨fun _ _ => ?_, fun _ _ => hs.toWorksOn⟩
  rw [ends_bind, ends_ofExcept]
  refine ⟨fun _ _ => ?_, fun _ _ => hs.toWorksOn⟩
  rw [ends_set]
  exact (hs.foldl_indexConstraint s.constraints).congr rfl rfl

theorem heeds_seed : Heeds config t seed := by
  refine heeds_prepare.bind fun _ => ?_
  refine .bind (heeds_modify fun _ => ⟨rfl, rfl⟩) fun _ => ?_
  refine maintains_get.bind fun s => ?_
  refine (maintains_forM (fun c : Constraint => heeds_seedPointee c.dest c.src) _).bind fun _ => ?_
  refine (maintains_forM (fun u => heeds_seedPointee u u) _).bind fun _ => ?_
  refine maintains_modify fun u hu => ?_
  obtain ⟨worklist, hframe⟩ := u.foldl_push_frame u.seeded
  rw [hframe]
  exact hu.congr rfl rfl

/-- Before the next node is processed, cycles may be due. -/
theorem heeds_searchDue {c : Prop} [Decidable c] {rest : Action Solver Bool}
    (hrest : Heeds config t rest) :
    Heeds config t (if c then detectCycles >>= fun _ => rest else rest) :=
  .ite (heeds_detectCycles.bind fun _ => hrest) hrest

theorem heeds_advanceOnce : Heeds config t advanceOnce := by
  refine maintains_get.bind fun _ => heeds_searchDue fun s hs => ?_
  rw [ends_bind, ends_get]
  split
  next n worklist _ =>
    rw [ends_bind, ends_set]
    refine ((heeds_process n).bind fun _ => maintains_pure true) _ ?_
    exact hs.congr rfl rfl
  next =>
    refine (heeds_detectCycles.bind fun merged => ?_) s hs
    exact maintains_get.bind fun _ => maintains_pure _

/-- What aborts a solver leaves only its sets in doubt. -/
theorem guarded_obeys {α : Type} {m : Action Solver α} (hm : Heeds config t m)
    (hs : s.Within config t) :
    Ends (guarded m) s (fun _ => Within config t) fun _ => Obeys config t := by
  refine guarded_ends ((hm s hs).imp_error fun e u hu => ?_)
  exact ⟨⟨hu.config_eq, hu.mergesTo⟩, fun hphase => absurd rfl hphase⟩

theorem Within.obeys (h : s.Within config t) : s.Obeys config t := ⟨h.toWorksOn, fun _ => h⟩

/-- The bounds that hold of the table that the solver was given hold of the solver. -/
theorem Obeys.admits (h : s.Obeys config t) (hmaxMerges : t.maxMerges = config.limits.maxMerges)
    (ht : config.limits.Admits t.size t.merges 0) (hphase : s.phase ≠ .aborted) :
    config.limits.Admits s.table.size s.table.merges s.store.held where
  nodes_le := (h.mergesTo.admits hmaxMerges ht).nodes_le
  merges_le := (h.mergesTo.admits hmaxMerges ht).merges_le
  memberships_le k hk := (h.within hphase).held_le.trans ((h.within hphase).membership_le k hk)

theorem within_new (ht : t.WellFormed) (config : Config) (order : Schedule)
    (cs : List Constraint) :
    (new config order t cs).Within config (t.applyLimits config.limits) where
  config_eq := rfl
  mergesTo := .refl
  held_le := (blank_new ht config order cs).held_eq.le
  membership_le k _ := Nat.zero_le k

/-- What calls of `step` and `solve` come to is within the limits unless it is aborted. -/
theorem Attains.obeys {s₀ : Solver} (hs₀ : s₀.Within config t) (h : s₀.Attains s) :
    s.Obeys config t := by
  induction h with
  | new => exact hs₀.obeys
  | begin h ih =>
      refine Ends.state (refuseAborted_ends (fun _ => ih) fun hphase => ?_)
      exact (guarded_obeys heeds_seed (ih.within hphase)).imp_ok fun _ _ hu => hu.obeys
  | advance h hrunning ih =>
      refine Ends.state (refuseAborted_ends (fun _ => ih) fun hphase => ?_)
      refine (guarded_obeys heeds_advanceOnce (ih.within hphase)).bind fun more u hu => ?_
      have hfinish : u.finish.Within config t := hu.congr rfl rfl
      rw [ends_ite]
      exact ⟨fun _ => ends_bind.2 hfinish.obeys, fun _ => hu.obeys⟩

end Within

/-! ## Moments of a run -/

open PointsTo.Action

/-- The rules of a node are applied to fresh pointees from `s` on, one of them in `u`. -/
def AppliesRule (s : Solver) (fresh : List Nat) (loads stores : List (Nat × Nat)) (u : Solver) :
    Prop :=
  ∃ o v, VisitsEach (fun o => do loads.forM (applyLoad o); stores.forM (applyStore o)) fresh s o v ∧
    ((∃ rule, VisitsEach (applyLoad o) loads v rule u) ∨
      ∃ w rule, loads.forM (applyLoad o) v = .ok () w ∧ VisitsEach (applyStore o) stores w rule u)

/-- What the set of a popped node gained is passed on from `s` on, to a rule or along an edge
in `u`. -/
def PassesOn (s : Solver) (popped : Nat) (u : Solver) : Prop :=
  let n := s.table.root popped
  let c := s.cell n
  let delta := c.pts.difference c.done
  let settled := (s.notePop n).modifyCell n fun c => { c with done := (c.done.union delta).1 }
  settled.AppliesRule delta.elements c.loads c.stores u ∨
    ∃ v m, materialize delta.elements c.loads c.stores settled = .ok () v ∧
      VisitsEach (send delta) ((v.refreshTargets n).served n) (v.refreshTargets n) m u

/-- An advance of `s` takes a node off the worklist in the state `v`. -/
inductive Pops (s : Solver) : Solver → Prop
  | first (h : ¬(0 < s.config.sccInterval ∧ s.config.sccInterval ≤ s.sinceScc)) : Pops s s
  | searched {merged : Nat} {v : Solver}
      (hdue : 0 < s.config.sccInterval ∧ s.config.sccInterval ≤ s.sinceScc)
      (h : detectCycles s = .ok merged v) : Pops s v

/-- Beginning or advancing a run in `s` comes to the state `u`, and next a set grows there or
two classes are merged. -/
inductive Moment (s u : Solver) : Prop
  | address {v : Solver} {c : Constraint} (hv : prepare s = .ok () v)
      (h : VisitsEach (fun c : Constraint => seedPointee c.dest c.src)
        (Constraint.ofKind .addrOf v.constraints) { v with stats := v.stats.restart } c u)
  | universal {v w : Solver} {n : Nat} (hv : prepare s = .ok () v)
      (hw : (Constraint.ofKind .addrOf v.constraints).forM (fun c => seedPointee c.dest c.src)
        { v with stats := v.stats.restart } = .ok () w)
      (h : VisitsEach (fun n => seedPointee n n) v.universals w n u)
  | merge {a b : Nat} (hrunning : s.phase = .running) (h : s.CallsInAdvance a b u)
  | pass {v : Solver} {n : Nat} {worklist : Worklist} (hrunning : s.phase = .running)
      (hv : s.Pops v) (hpop : v.worklist.pop? = some (n, worklist))
      (h : PassesOn { v with worklist } n u)

/-- What runs that start from `s₀` come to and come through. -/
inductive PassesThrough (s₀ : Solver) : Solver → Prop
  | attained {s : Solver} (h : s₀.Attains s) : PassesThrough s₀ s
  | moment {s u : Solver} (h : s₀.Attains s) (hphase : s.phase ≠ .aborted) (hu : s.Moment u) :
      PassesThrough s₀ u

section Moments

variable {config : Config} {t : NodeTable} {s u s₀ : Solver} {a b : Nat} {g members : List Nat}

theorem AppliesRule.within {fresh : List Nat} {loads stores : List (Nat × Nat)}
    (h : s.AppliesRule fresh loads stores u) (hs : s.Within config t) : u.Within config t := by
  obtain ⟨o, v, hv, hu⟩ := h
  have hrules : ∀ o, Heeds config t (do loads.forM (applyLoad o); stores.forM (applyStore o)) :=
    fun o => (maintains_forM (heeds_applyLoad o) loads).bind
      fun _ => maintains_forM (heeds_applyStore o) stores
  have hwithin := hv.maintained hrules hs
  rcases hu with ⟨rule, hu⟩ | ⟨w, rule, hw, hu⟩
  · exact hu.maintained (heeds_applyLoad o) hwithin
  · exact hu.maintained (heeds_applyStore o)
      ((maintains_forM (heeds_applyLoad o) loads).of_eq_ok hwithin hw)

theorem PassesOn.within {popped : Nat} (h : s.PassesOn popped u) (hs : s.Within config t) :
    u.Within config t := by
  have hsettled : ∀ (n : Nat) (delta : NodeSet), ((s.notePop n).modifyCell n fun c =>
      { c with done := (c.done.union delta).1 }).Within config t := by
    intro n delta
    have hpopped : (s.notePop n).Within config t := hs.congr rfl rfl
    exact hpopped.modifyCell n fun _ => rfl
  rcases h with h | ⟨v, m, hv, hu⟩
  · exact h.within (hsettled _ _)
  · have hwithin := (heeds_materialize _ _ _).of_eq_ok (hsettled _ _) hv
    exact hu.maintained (heeds_send _) (Within.modifyCell hwithin _ fun _ => rfl)

theorem Pops.within (h : s.Pops u) (hs : s.Within config t) : u.Within config t := by
  cases h with
  | first _ => exact hs
  | searched _ h => exact heeds_detectCycles.of_eq_ok hs h

theorem CallsInGroup.within (h : s.CallsInGroup g a b u) (hs : s.Within config t) :
    u.Within config t := by
  cases g with
  | nil => exact h.elim
  | cons first others => exact h.maintained heeds_collapse hs

theorem CallsInComponent.within (h : s.CallsInComponent members a b u) (hs : s.Within config t) :
    u.Within config t := by
  obtain ⟨_, _, v, hv, hu⟩ := h
  exact hu.within (hv.maintained (fun _ group =>
    (heeds_collapseGroup group).bind fun _ => maintains_pure _) hs)

theorem CallsInSearch.within (h : s.CallsInSearch a b u) (hs : s.Within config t) :
    u.Within config t := by
  obtain ⟨_, _, v, hv, hu⟩ := h
  exact hu.within (hv.maintained (fun _ members =>
    (heeds_collapseComponent members).bind fun _ => maintains_pure _) (hs.congr rfl rfl))

theorem CallsInAdvance.within (h : s.CallsInAdvance a b u) (hs : s.Within config t) :
    u.Within config t := by
  obtain ⟨v, hv, hu⟩ := h
  cases hv with
  | first _ => exact hu.within hs
  | again _ hsearch _ => exact hu.within (heeds_detectCycles.of_eq_ok hs hsearch)

/-- A run is within its limits also in the middle of beginning and advancing. -/
theorem Moment.within (h : s.Moment u) (hs : s.Within config t) : u.Within config t := by
  have hseeding : ∀ v, prepare s = .ok () v →
      ({ v with stats := v.stats.restart } : Solver).Within config t :=
    fun v hv => (heeds_prepare.of_eq_ok hs hv).congr rfl rfl
  have haddresses : ∀ c : Constraint, Heeds config t (seedPointee c.dest c.src) :=
    fun c => heeds_seedPointee c.dest c.src
  cases h with
  | address hv h => exact h.maintained haddresses (hseeding _ hv)
  | universal hv hw h =>
      have hseeded := (maintains_forM haddresses _).of_eq_ok (hseeding _ hv) hw
      exact h.maintained (fun n => heeds_seedPointee n n) hseeded
  | merge _ h => exact h.within hs
  | pass _ hv _ h => exact h.within ((hv.within hs).congr rfl rfl)

theorem PassesThrough.obeys (hs₀ : s₀.Within config t) (h : s₀.PassesThrough s) :
    s.Obeys config t := by
  cases h with
  | attained h => exact h.obeys hs₀
  | moment h hphase hu => exact (hu.within ((h.obeys hs₀).within hphase)).obeys

end Moments

end Solver

end PointsTo

import PointsTo.Proofs.Solver.Limits
import PointsTo.Proofs.Solver.SetAside
import Mathlib.Algebra.Order.Group.Multiset

/-!
# No rule is lost

Loads and stores are entered into the cells of their pointers once, and later only a merge
moves them, to the class that their pointer is in from then on. So what has to be shown is
that a rule never changes its class. `Store.entries` collects the rules of one kind from all
cells, each under a label of the node whose cell it is in. As long as labels do not tell
nodes of one class apart, no step on the store changes this collection
(`Step.entries_eq`). To take the root of a node at the end of a run for its label is such a
way to label nodes, all along the run, since classes only grow. Right after the constraints
have been entered the collection is that of the constraints.

The constraints are entered by the first call, unless table or constraints are refused; then
the solver is aborted and stays without rules (`Entry`).
-/

namespace PointsTo

/-- The rules of a cell that come of constraints of one kind. -/
def Cell.rules (kind : ConstraintKind) (c : Cell) : List (Nat × Nat) :=
  match kind with
  | .addrOf | .copy => []
  | .load => c.loads
  | .store => c.stores

/-- The rule of a load or store, under the label of its pointer. -/
def Constraint.entry (label : Nat → Nat) (c : Constraint) : Nat × Nat × Nat :=
  match c.kind with
  | .store => (label c.dest, c.src, c.offset)
  | _ => (label c.src, c.dest, c.offset)

def Constraint.entries (kind : ConstraintKind) (label : Nat → Nat) (cs : List Constraint) :
    Multiset (Nat × Nat × Nat) :=
  (ofKind kind cs).map (entry label)

theorem Constraint.entries_eq_map {kind : ConstraintKind} {label : Nat → Nat}
    {cs : List Constraint} {f : Constraint → Nat × Nat × Nat}
    (hf : ∀ c, c.kind = kind → c.entry label = f c) :
    entries kind label cs = ((ofKind kind cs).map f : List (Nat × Nat × Nat)) :=
  congrArg _ (List.map_congr_left fun c hc => hf c (eq_of_beq (List.mem_filter.1 hc).2))

theorem Constraint.entries_of_kind {kind : ConstraintKind} {c : Constraint}
    (hkind : c.kind = kind) (label : Nat → Nat) :
    entries kind label [c] = {c.entry label} := by
  rw [entries, ofKind, List.filter_singleton, hkind, beq_self_eq_true]
  rfl

theorem Constraint.entries_of_ne {kind : ConstraintKind} {c : Constraint}
    (hkind : c.kind ≠ kind) (label : Nat → Nat) : entries kind label [c] = 0 := by
  rw [entries, ofKind, List.filter_singleton, beq_false_of_ne hkind]
  rfl

namespace Store

/-- The rules of one kind in the cell of `n`, under the label of `n`. -/
def entriesAt (kind : ConstraintKind) (label : Nat → Nat) (σ : Store) (n : Nat) :
    Multiset (Nat × Nat × Nat) :=
  ((σ.cell n).rules kind).map fun r => (label n, r)

/-- The rules of one kind in all cells, each under the label of the node whose cell it is in. -/
def entries (kind : ConstraintKind) (label : Nat → Nat) (σ : Store) :
    Multiset (Nat × Nat × Nat) :=
  ∑ n ∈ Finset.range σ.cells.size, σ.entriesAt kind label n

/-- The label does not tell nodes of one class apart. -/
def Labels (σ : Store) (label : Nat → Nat) : Prop :=
  ∀ m n, σ.root m = σ.root n → label m = label n

/-! ## Steps -/

section Entries

variable {fieldSensitive : Bool} {cs : List Constraint} {σ τ : Store} {n rep gone : Nat}
  {c : Cell} {kind : ConstraintKind} {label : Nat → Nat} {r : Nat × Nat}

theorem rules_absorb (kind : ConstraintKind) (rep gone : Nat) (kept absorbed : Cell) :
    (Solver.absorb rep gone kept absorbed).rules kind = kept.rules kind ++ absorbed.rules kind := by
  cases kind <;> rfl

theorem rules_empty (kind : ConstraintKind) : ({} : Cell).rules kind = [] := by
  cases kind <;> rfl

theorem rules_congr {d : Cell} (hloads : c.loads = d.loads) (hstores : c.stores = d.stores)
    (kind : ConstraintKind) : c.rules kind = d.rules kind := by
  cases kind <;> first | rfl | assumption

theorem entriesAt_congr {m : Nat}
    (h : (τ.cell m).rules kind = (σ.cell m).rules kind) :
    τ.entriesAt kind label m = σ.entriesAt kind label m := by
  rw [entriesAt, entriesAt, h]

theorem Updates.entries_eq (h : Updates σ τ n c)
    (hrules : c.rules kind = (σ.cell n).rules kind) :
    τ.entries kind label = σ.entries kind label := by
  rw [entries, entries, h.cells_size]
  exact Finset.sum_congr rfl fun m _ => entriesAt_congr (h.field_eq (Cell.rules kind) hrules m)

theorem Updates.entries_append (h : Updates σ τ n c) (hn : n < σ.cells.size)
    (hrules : c.rules kind = (σ.cell n).rules kind ++ [r]) :
    τ.entries kind label = σ.entries kind label + {(label n, r)} := by
  have hsum := sum_range_add (f := σ.entriesAt kind label) (g := τ.entriesAt kind label) hn
    fun m hm => entriesAt_congr (by rw [h.cell_of_ne hm])
  have hcell : τ.entriesAt kind label n = {(label n, r)} + σ.entriesAt kind label n := by
    rw [entriesAt, entriesAt, h.cell_self, hrules, List.map_append, ← Multiset.coe_add, add_comm]
    rfl
  rw [hcell, ← add_assoc] at hsum
  rw [entries, entries, h.cells_size]
  exact add_right_cancel hsum

/-- The rules of the cell that is absorbed go over to the class that it is then in. -/
theorem Moves.entries_eq (h : Moves σ τ rep gone) (hσ : σ.WellFormed)
    (hlabel : label gone = label rep) : τ.entries kind label = σ.entries kind label := by
  have hsum := sum_range_add_add (f := σ.entriesAt kind label) (g := τ.entriesAt kind label)
    (h.absorbs.rep_lt.trans_eq hσ.cells_size.symm) (h.absorbs.gone_lt.trans_eq hσ.cells_size.symm)
    h.absorbs.ne fun m hm hm' => entriesAt_congr (by rw [h.cell_eq, if_neg hm, if_neg hm'])
  have hrep : τ.entriesAt kind label rep =
      σ.entriesAt kind label rep + σ.entriesAt kind label gone := by
    rw [entriesAt, entriesAt, entriesAt, h.cell_eq, if_pos rfl, rules_absorb, List.map_append,
      hlabel, Multiset.coe_add]
  have hgone : τ.entriesAt kind label gone = 0 := by
    rw [entriesAt, h.cell_eq, if_neg h.absorbs.ne.symm, if_pos rfl, rules_empty]
    rfl
  rw [hrep, hgone, add_zero, add_assoc] at hsum
  rw [entries, entries, h.cells_size]
  exact add_right_cancel hsum

theorem Extends.labels (h : σ.Extends τ) (hlabel : τ.Labels label) : σ.Labels label :=
  fun m n hmn => hlabel m n (h.classes m n hmn)

/-- No step loses a rule, makes one, or takes one to another class. -/
theorem Step.entries_eq (h : Step fieldSensitive cs σ τ) (hσ : σ.WellFormed)
    (hlabel : τ.Labels label) : τ.entries kind label = σ.entries kind label := by
  cases h with
  | grow _ _ _ _ hcell _ => exact hcell.entries_eq (rules_congr rfl rfl kind)
  | link _ _ _ _ hcell _ => exact hcell.entries_eq (rules_congr rfl rfl kind)
  | settle _ hcell _ => exact hcell.entries_eq (rules_congr rfl rfl kind)
  | refresh _ hcell _ => exact hcell.entries_eq (rules_congr rfl rfl kind)
  | @merge _ _ rep gone _ _ _ hmoves _ _ _ =>
      refine hmoves.entries_eq hσ (hlabel gone rep ?_)
      have hroot := hmoves.absorbs.root_eq
      rw [root, root, hroot, hroot, hmoves.absorbs.gone_root, hmoves.absorbs.rep_root, if_pos rfl,
        if_neg hmoves.absorbs.ne]

theorem Steps.entries_eq (h : Steps fieldSensitive cs σ τ) (hσ : σ.WellFormed)
    (hlabel : τ.Labels label) : τ.entries kind label = σ.entries kind label := by
  induction h with
  | refl => rfl
  | tail hsteps hstep ih =>
      have hwf := Steps.wellFormed hsteps hσ
      exact (hstep.entries_eq hwf hlabel).trans (ih ((hstep.extends hwf).labels hlabel))

end Entries

end Store

namespace Solver

/-! ## Entering the constraints -/

section Index

variable {s : Solver} {c : Constraint} {cs : List Constraint} {kind : ConstraintKind}
  {label : Nat → Nat}

/-- A load or store is entered as the one rule that it is. -/
theorem entries_indexConstraint (hs : s.store.WellFormed) (hlabel : s.store.Labels label)
    (hkind : kind = .load ∨ kind = .store) (hdest : c.dest < s.store.size)
    (hsrc : c.src < s.store.size) :
    (s.indexConstraint c).store.entries kind label =
      s.store.entries kind label + Constraint.entries kind label [c] := by
  have hupdates : ∀ {n : Nat} (f : Cell → Cell), n < s.store.size →
      Store.Updates s.store (s.modifyCell (s.store.root n) f).store (s.store.root n)
        (f (s.store.cell (s.store.root n))) :=
    fun f hn => hs.updates (hs.isRoot_root hn) f rfl rfl
  have hroot : ∀ {n : Nat}, n < s.store.size → s.store.root n < s.store.cells.size :=
    fun hn => (hs.isRoot_root hn).lt.trans_eq hs.cells_size.symm
  have hpointer : ∀ n, label (s.store.root n) = label n := fun n => hlabel _ _ (hs.root_root n)
  rw [indexConstraint]
  cases hc : c.kind with
  | addrOf =>
      rw [Constraint.entries_of_ne (by rcases hkind with rfl | rfl <;> simp [hc]), add_zero]
  | copy =>
      rw [Constraint.entries_of_ne (by rcases hkind with rfl | rfl <;> simp [hc]), add_zero]
      dsimp only
      split
      next => rfl
      next => exact (hupdates _ hsrc).entries_eq (Store.rules_congr rfl rfl kind)
  | load =>
      have hcell := hupdates
        (fun cell => { cell with loads := cell.loads ++ [(c.dest, c.offset)] }) hsrc
      rcases hkind with rfl | rfl
      · have hentry : c.entry label = (label (s.store.root c.src), c.dest, c.offset) := by
          rw [Constraint.entry, hc, hpointer]
        rw [Constraint.entries_of_kind hc, hentry]
        exact hcell.entries_append (hroot hsrc) rfl
      · rw [Constraint.entries_of_ne (by simp [hc]), add_zero]
        exact hcell.entries_eq rfl
  | store =>
      have hcell := hupdates
        (fun cell => { cell with stores := cell.stores ++ [(c.src, c.offset)] }) hdest
      rcases hkind with rfl | rfl
      · rw [Constraint.entries_of_ne (by simp [hc]), add_zero]
        exact hcell.entries_eq rfl
      · have hentry : c.entry label = (label (s.store.root c.dest), c.src, c.offset) := by
          rw [Constraint.entry, hc, hpointer]
        rw [Constraint.entries_of_kind hc, hentry]
        exact hcell.entries_append (hroot hdest) rfl

theorem entries_foldl_indexConstraint (hs : s.store.WellFormed) (hlabel : s.store.Labels label)
    (hkind : kind = .load ∨ kind = .store)
    (hcs : ∀ c ∈ cs, c.dest < s.store.size ∧ c.src < s.store.size) :
    (cs.foldl indexConstraint s).store.entries kind label =
      s.store.entries kind label + Constraint.entries kind label cs := by
  induction cs generalizing s with
  | nil => exact (add_zero _).symm
  | cons c cs ih =>
      obtain ⟨⟨hdest, hsrc⟩, hrest⟩ := List.forall_mem_cons.1 hcs
      have henters := indexConstraint_enters hs hdest hsrc s.config.fieldSensitive
      have hlabel' : (s.indexConstraint c).store.Labels label := by
        intro m n hmn
        rw [Store.root, Store.root, henters.table_eq] at hmn
        exact hlabel m n hmn
      have hcons : Constraint.entries kind label (c :: cs) =
          Constraint.entries kind label [c] + Constraint.entries kind label cs := by
        rw [Constraint.entries, Constraint.entries, Constraint.entries, Multiset.coe_add,
          ← List.map_append, Constraint.ofKind, Constraint.ofKind, Constraint.ofKind,
          ← List.filter_append, List.singleton_append]
      rw [List.foldl_cons, ih henters.wellFormed hlabel' (henters.gains.size_eq.symm ▸ hrest),
        entries_indexConstraint hs hlabel hkind hdest hsrc, hcons, add_assoc]

end Index

section Live

variable {s s₀ : Solver} {kind : ConstraintKind}

theorem Blank.entries_eq (hs₀ : s₀.Blank) (kind : ConstraintKind) (label : Nat → Nat) :
    s₀.store.entries kind label = 0 := by
  refine Finset.sum_eq_zero fun n _ => ?_
  rw [Store.entriesAt, hs₀.cell_eq, Store.rules_empty]
  rfl

/-- The rules of a solver are those of its constraints, each with the class of its pointer. -/
theorem Live.entries_eq (hs₀ : s₀.Blank) (h : Live s₀ s) (hkind : kind = .load ∨ kind = .store) :
    s.store.entries kind s.store.root =
      Constraint.entries kind s.store.root s₀.constraints := by
  have henters := hs₀.enters h.valid
  have hlabels : s₀.store.Labels s.store.root := (h.extends hs₀).labels fun _ _ => id
  have hindexed := entries_foldl_indexConstraint hs₀.wellFormed hlabels hkind
    fun c hc => Constraint.lt_size_of_flaw? (NodeTable.validate_eq_ok_iff.1 h.valid c hc)
  rw [hs₀.entries_eq, zero_add] at hindexed
  exact (h.steps.entries_eq henters.wellFormed fun _ _ => id).trans hindexed

end Live

/-! ## When the constraints are entered -/

/-- What has been entered in a solver that was `s₀` once: nothing before the first call and
nothing if table or constraints have been refused then, else all of the constraints. -/
inductive Entry (s₀ : Solver) : Solver → Prop
  | fresh : Entry s₀ s₀
  | refused {s : Solver} {e : AnalysisError} (hconstraints : s.constraints = s₀.constraints)
      (hindexed : s.indexed = false) (hphase : s.phase = .aborted) (he : s₀.Refuses e) :
      Entry s₀ s
  | entered {s : Solver} (h : Live s₀ s) (hphase : s.phase ≠ .fresh)
      (hcapacity : s₀.table.checkCapacity = .ok ()) : Entry s₀ s

section Entry

variable {s s₀ : Solver}

theorem prepare_checks (s : Solver) :
    Action.Ends prepare s
      (fun _ _ => s.indexed = false → s.table.checkCapacity = .ok ())
      (fun e _ => s.indexed = false ∧ s.Refuses e) := by
  rw [prepare, Action.ends_bind, Action.ends_get, Action.ends_ite]
  constructor
  · intro hindexed
    rw [Bool.not_eq_true'] at hindexed
    rw [Action.ends_bind, Action.ends_ofExcept]
    refine ⟨fun _ hcapacity => ?_, fun _ he => ⟨hindexed, .inl he⟩⟩
    rw [Action.ends_bind, Action.ends_ofExcept]
    exact ⟨fun _ _ _ => hcapacity, fun _ he => ⟨hindexed, .inr he⟩⟩
  · exact fun hindexed hnot => absurd (by rw [hnot]; rfl) hindexed

variable (hs₀ : s₀.Blank)

include hs₀

theorem Entry.begin (h : Entry s₀ s) (hs : Reached s₀ s) :
    Action.Ends begin s (fun _ => Entry s₀) fun _ => Entry s₀ := by
  refine refuseAborted_ends (fun _ => h) fun hphase => guarded_ends ?_
  have hchecked : s.indexed = false → s = s₀ := by
    intro hindexed
    cases h with
    | fresh => rfl
    | refused _ _ haborted _ => exact absurd haborted hphase
    | entered hlive _ _ => exact absurd (hlive.indexed.symm.trans hindexed) Bool.noConfusion
  have hcapacity : (s.indexed = false → s.table.checkCapacity = .ok ()) →
      s₀.table.checkCapacity = .ok () := by
    intro hcapacity
    cases h with
    | fresh => exact hcapacity hs₀.indexed
    | refused _ _ haborted _ => exact absurd haborted hphase
    | entered _ _ hcapacity => exact hcapacity
  refine Action.Ends.bind (((prepare_live hs₀ hs hphase).and (prepare_checks s)).imp_error ?_) ?_
  · rintro e t ⟨⟨rfl, _⟩, hindexed, he⟩
    obtain rfl := hchecked hindexed
    exact .refused rfl hindexed rfl he
  · rintro _ t ⟨⟨⟨hlive, ht, _⟩, _⟩, hcap⟩
    refine (seedRest_ends ht (hlive.range hs₀)).imp ?_ fun e u hu => ?_
    · rintro _ u ⟨hu, hrunning, _⟩
      exact .entered ((hlive.runs hu).congr rfl rfl rfl rfl) (by simp [hrunning]) (hcapacity hcap)
    · exact .entered ((hlive.runs hu).congr rfl rfl rfl rfl) Phase.noConfusion (hcapacity hcap)

theorem Entry.advance (h : Entry s₀ s) (hs : Reached s₀ s) (hrunning : s.phase = .running) :
    Action.Ends advance s (fun _ => Entry s₀) fun _ => Entry s₀ := by
  refine refuseAborted_ends (fun _ => h) fun _ => ?_
  have hsound := hs.sound hs₀ (.inl hrunning)
  have hcapacity : s₀.table.checkCapacity = .ok () := by
    cases h with
    | fresh => exact absurd (hs₀.phase.symm.trans hrunning) Phase.noConfusion
    | refused _ _ haborted _ => exact absurd (haborted.symm.trans hrunning) Phase.noConfusion
    | entered _ _ hcapacity => exact hcapacity
  refine Action.Ends.bind (guarded_ends ((advanceOnce_ends hsound.steady).imp_error
    fun e t ht => .entered ((hsound.toLive.runs ht).congr rfl rfl rfl rfl) Phase.noConfusion
      hcapacity)) ?_
  rintro more t ⟨ht, _, _⟩
  have hlive := hsound.toLive.runs ht
  dsimp only
  rw [Action.ends_ite]
  constructor
  · exact fun _ => Action.ends_bind.2
      (.entered (hlive.congr rfl rfl rfl rfl) Phase.noConfusion hcapacity)
  · exact fun _ => .entered hlive (by simp [ht.phase_eq, hrunning]) hcapacity

theorem Attains.entry (h : s₀.Attains s) : Entry s₀ s := by
  induction h with
  | new => exact .fresh
  | begin h ih => exact (ih.begin hs₀ (h.reached hs₀)).state
  | advance h hrunning ih => exact (ih.advance hs₀ (h.reached hs₀) hrunning).state

omit hs₀ in
theorem Entry.constraints_eq (h : Entry s₀ s) : s.constraints = s₀.constraints := by
  cases h with
  | fresh => rfl
  | refused hconstraints _ _ _ => exact hconstraints
  | entered hlive _ _ => exact hlive.constraints_eq

theorem Entry.live (h : Entry s₀ s) (hindexed : s.indexed = true) : Live s₀ s := by
  cases h with
  | fresh => exact absurd (hs₀.indexed.symm.trans hindexed) Bool.noConfusion
  | refused _ hnot _ _ => exact absurd (hnot.symm.trans hindexed) Bool.noConfusion
  | entered hlive _ _ => exact hlive

theorem Entry.indexed_iff (h : Entry s₀ s) :
    s.indexed = true ↔ s.phase ≠ .fresh ∧ s₀.table.checkCapacity = .ok () ∧
      s₀.table.validate s₀.config.fieldSensitive s₀.constraints = .ok () := by
  cases h with
  | fresh =>
      exact iff_of_false (by simp [hs₀.indexed]) fun hcalled => hcalled.1 hs₀.phase
  | refused _ hindexed _ he =>
      refine iff_of_false (by simp [hindexed]) fun ⟨_, hcapacity, hvalid⟩ => ?_
      rcases he with he | he
      · cases hcapacity.symm.trans he
      · cases hvalid.symm.trans he
  | entered hlive hphase hcapacity =>
      exact iff_of_true hlive.indexed ⟨hphase, hcapacity, hlive.valid⟩

end Entry

/-! ## Rules of solvers that calls lead to -/

/-- Whatever calls have been made and whether or not they have failed, a solver works on the
constraints and the nodes that it was given, of which nothing but merges has made a different
table. Its constraints are entered once it has been called and has found table and
constraints valid. From then on, the loads in all cells, each with the class of the node whose
cell it is in, are the load constraints with the classes of their sources, as often as they
are listed, and the stores are the store constraints with the classes of their destinations.
This is also so where a node is processed with its rules set aside. -/
theorem rules_kept {t : NodeTable} (ht : t.Reachable) (config : Config) (order : Schedule)
    (cs : List Constraint) {s : Solver} (hs : (new config order t cs).Attains s) :
    s.constraints = cs ∧ s.table.nodes = t.nodes ∧
    (t.applyLimits config.limits).MergesTo s.table ∧
    (s.indexed = true ↔ s.phase ≠ .fresh ∧
      (t.applyLimits config.limits).checkCapacity = .ok () ∧
      (t.applyLimits config.limits).validate config.fieldSensitive cs = .ok ()) ∧
    (s.indexed = true →
      (∑ n ∈ Finset.range s.cells.size,
          (((s.cell n).loads.map fun r => (s.table.root n, r) : List (Nat × Nat × Nat)) :
            Multiset (Nat × Nat × Nat))) =
        ((Constraint.ofKind .load cs).map fun c => (s.table.root c.src, c.dest, c.offset) :
          List (Nat × Nat × Nat)) ∧
      (∑ n ∈ Finset.range s.cells.size,
          (((s.cell n).stores.map fun r => (s.table.root n, r) : List (Nat × Nat × Nat)) :
            Multiset (Nat × Nat × Nat))) =
        ((Constraint.ofKind .store cs).map fun c => (s.table.root c.dest, c.src, c.offset) :
          List (Nat × Nat × Nat))) ∧
    ∀ popped, processAside popped = process popped := by
  have hblank := blank_new ht.wellFormed config order cs
  have hentry := hs.entry hblank
  have hmerges := (hs.obeys (within_new ht.wellFormed config order cs)).mergesTo
  obtain ⟨_, hcount⟩ := hmerges.merges
  refine ⟨hentry.constraints_eq, hcount.nodes_eq, hmerges, hentry.indexed_iff hblank,
    fun hindexed => ⟨?_, ?_⟩, processAside_eq⟩
  · exact ((hentry.live hblank hindexed).entries_eq hblank (.inl rfl)).trans
      (Constraint.entries_eq_map fun c hc => by rw [Constraint.entry, hc]; rfl)
  · exact ((hentry.live hblank hindexed).entries_eq hblank (.inr rfl)).trans
      (Constraint.entries_eq_map fun c hc => by rw [Constraint.entry, hc]; rfl)

/-- The variables are a cycle of copies, so the load through the second one moves into the
cell of the first one, and then a bound of four memberships is passed between two edges that
the rules make. Load and store are in the cell that is left. -/
theorem rules_kept_failing :
    let config := { (Preset.config .thorough).set (.sccInterval 1) with
      limits := { maxMembership := some 4 } }
    let cs : List Constraint :=
      [.addrOf 0 2, .addrOf 1 3, .copy 0 1, .copy 1 0, .load 0 1 1, .store 0 1 1]
    let s := (new config .newest .sample cs).afterAll [.solve, .step]
    s.phase = .aborted ∧ s.table.root 1 = 0 ∧ s.indexed = true ∧
      s.table.nodes = NodeTable.sample.nodes ∧
      (∑ n ∈ Finset.range s.cells.size,
          (((s.cell n).loads.map fun r => (s.table.root n, r) : List (Nat × Nat × Nat)) :
            Multiset (Nat × Nat × Nat))) = {(0, 0, 1)} ∧
      (∑ n ∈ Finset.range s.cells.size,
          (((s.cell n).stores.map fun r => (s.table.root n, r) : List (Nat × Nat × Nat)) :
            Multiset (Nat × Nat × Nat))) = {(0, 1, 1)} := by
  intro config cs s
  have hattains : (new config .newest .sample cs).Attains s :=
    attains_afterAll (blank_new NodeTable.reachable_sample.wellFormed _ _ _) [.solve, .step]
  obtain ⟨_, hnodes, _, hindexed, hrules, _⟩ :=
    rules_kept NodeTable.reachable_sample config .newest cs hattains
  have haborted : s.phase = .aborted := by decide +kernel
  have hroot : s.table.root 1 = 0 ∧ s.table.root 0 = 0 := by decide +kernel
  have hentered : s.indexed = true :=
    hindexed.2 ⟨by rw [haborted]; decide, by decide +kernel, by decide +kernel⟩
  obtain ⟨hloads, hstores⟩ := hrules hentered
  clear_value s
  have hload : ((Constraint.ofKind .load cs).map fun c =>
      (s.table.root c.src, c.dest, c.offset)) = [(s.table.root 1, 0, 1)] := rfl
  have hstore : ((Constraint.ofKind .store cs).map fun c =>
      (s.table.root c.dest, c.src, c.offset)) = [(s.table.root 0, 1, 1)] := rfl
  rw [hload, hroot.1] at hloads
  rw [hstore, hroot.2] at hstores
  exact ⟨haborted, hroot.1, hentered, hnodes, hloads, hstores⟩

end Solver

end PointsTo

import PointsTo.Proofs.Action
import PointsTo.Proofs.Solver.Cycles
import PointsTo.Proofs.Worklist

/-!
# Passing pointees on loses none

A pointee of a class is either passed on or its class waits in the worklist. It
counts as passed on when every edge of the class has carried it and every load
and store through the class has made its edge for it (`Store.Flow`). A node that
is being processed lies in between: its pointees already count as passed on but
some edges have not carried them yet. So what has been sent and what the rules
have seen are parameters of the invariant `Tracks`, which every action keeps,
and only at the end of `process` are both again what the cells say is passed on.

An action that fails leaves a store that came about by the same kinds of steps,
which is all that is needed of it.
-/

namespace PointsTo

namespace Store

/-- The pointees in `sent` have arrived wherever an edge leads, and the rules
have made their edges for those in `ruled`. -/
structure Flow (fieldSensitive : Bool) (sent ruled : Nat → Nat → Prop) (σ : Store) : Prop where
  edges (n m o : Nat) : m ∈ (σ.cell n).succs → sent n o → o ∈ σ.pts m
  loads (n o : Nat) (r : Nat × Nat) : r ∈ (σ.cell n).loads → ruled n o →
    σ.Linked (σ.table.route fieldSensitive o r.2) r.1
  stores (n o : Nat) (r : Nat × Nat) : r ∈ (σ.cell n).stores → ruled n o →
    σ.Linked r.1 (σ.table.route fieldSensitive o r.2)

def Passed (σ : Store) (n o : Nat) : Prop := o ∈ (σ.cell n).done

/-- Sets and edges have grown, and nothing else has changed. -/
structure Spreads (σ τ : Store) : Prop where
  table_eq : τ.table = σ.table
  done_eq (n : Nat) : (τ.cell n).done = (σ.cell n).done
  loads_eq (n : Nat) : (τ.cell n).loads = (σ.cell n).loads
  stores_eq (n : Nat) : (τ.cell n).stores = (σ.cell n).stores
  pts (n o : Nat) : o ∈ (σ.cell n).pts → o ∈ (τ.cell n).pts
  succs (n m : Nat) : m ∈ (σ.cell n).succs → m ∈ (τ.cell n).succs

section Spreads

variable {σ τ υ : Store}

theorem Spreads.refl (σ : Store) : σ.Spreads σ where
  table_eq := rfl
  done_eq _ := rfl
  loads_eq _ := rfl
  stores_eq _ := rfl
  pts _ _ h := h
  succs _ _ h := h

theorem Spreads.trans (h : σ.Spreads τ) (h' : τ.Spreads υ) : σ.Spreads υ where
  table_eq := h'.table_eq.trans h.table_eq
  done_eq n := (h'.done_eq n).trans (h.done_eq n)
  loads_eq n := (h'.loads_eq n).trans (h.loads_eq n)
  stores_eq n := (h'.stores_eq n).trans (h.stores_eq n)
  pts n o ho := h'.pts n o (h.pts n o ho)
  succs n m hm := h'.succs n m (h.succs n m hm)

theorem Spreads.root_eq (h : σ.Spreads τ) (n : Nat) : τ.root n = σ.root n := by
  rw [root, root, h.table_eq]

theorem Spreads.passed_eq (h : σ.Spreads τ) : τ.Passed = σ.Passed := by
  funext n o
  rw [Passed, Passed, h.done_eq]

theorem Spreads.isRoot (h : σ.Spreads τ) {n : Nat} (hn : σ.IsRoot n) : τ.IsRoot n :=
  ⟨by rw [size, h.table_eq]; exact hn.lt, by rw [h.root_eq, hn.root_eq]⟩

theorem Updates.spreads {n : Nat} {c : Cell} (h : Updates σ τ n c) (hkeeps : σ.Keeps n c)
    (hsame : c.done = (σ.cell n).done ∧ c.loads = (σ.cell n).loads ∧ c.stores = (σ.cell n).stores)
    (hsuccs : ∀ m ∈ (σ.cell n).succs, m ∈ c.succs) : σ.Spreads τ := by
  refine ⟨h.table_eq, h.field_eq Cell.done hsame.1, h.field_eq Cell.loads hsame.2.1,
    h.field_eq Cell.stores hsame.2.2, fun m o ho => ?_, fun m k hk => ?_⟩
  · rw [h.cell_eq]
    split
    next heq => exact hkeeps.pts o (heq ▸ ho)
    next => exact ho
  · rw [h.cell_eq]
    split
    next heq => exact hsuccs k (heq ▸ hk)
    next => exact hk

variable {fieldSensitive : Bool} {sent ruled : Nat → Nat → Prop}

/-- New edges have to carry what was sent; everything else stays as it was. -/
theorem Flow.of_extends (h : σ.Flow fieldSensitive sent ruled) (hext : σ.Extends τ)
    (hedges : ∀ n m o, m ∈ (τ.cell n).succs → sent n o → m ∈ (σ.cell n).succs ∨ o ∈ τ.pts m)
    (hloads : ∀ n, (τ.cell n).loads = (σ.cell n).loads)
    (hstores : ∀ n, (τ.cell n).stores = (σ.cell n).stores) :
    τ.Flow fieldSensitive sent ruled where
  edges n m o hm ho := (hedges n m o hm ho).elim
    (fun hold => hext.pts m o (h.edges n m o hold ho)) id
  loads n o r hr ho := by
    rw [NodeTable.route_congr hext.nodes_eq]
    exact hext.linked _ _ (h.loads n o r (hloads n ▸ hr) ho)
  stores n o r hr ho := by
    rw [NodeTable.route_congr hext.nodes_eq]
    exact hext.linked _ _ (h.stores n o r (hstores n ▸ hr) ho)

theorem Flow.mono (h : σ.Flow fieldSensitive sent ruled) {sent' ruled' : Nat → Nat → Prop}
    (hsent : ∀ n m o, m ∈ (σ.cell n).succs → sent' n o → sent n o ∨ o ∈ σ.pts m)
    (hruled : ∀ n o, ruled' n o → ruled n o ∨
      (∀ r ∈ (σ.cell n).loads, σ.Linked (σ.table.route fieldSensitive o r.2) r.1) ∧
      ∀ r ∈ (σ.cell n).stores, σ.Linked r.1 (σ.table.route fieldSensitive o r.2)) :
    σ.Flow fieldSensitive sent' ruled' where
  edges n m o hm ho := (hsent n m o hm ho).elim (h.edges n m o hm) id
  loads n o r hr ho := (hruled n o ho).elim (h.loads n o r hr) fun hall => hall.1 r hr
  stores n o r hr ho := (hruled n o ho).elim (h.stores n o r hr) fun hall => hall.2 r hr

end Spreads

end Store

namespace Solver

/-- The solver `t` comes from `s` by steps on the store. -/
structure Runs (s t : Solver) : Prop where
  steps : s.store.Steps s.config.fieldSensitive s.constraints t.store
  config_eq : t.config = s.config
  constraints_eq : t.constraints = s.constraints
  indexed_eq : t.indexed = s.indexed
  phase_eq : t.phase = s.phase

section Runs

variable {s t u : Solver}

theorem Runs.refl (s : Solver) : s.Runs s := ⟨.refl, rfl, rfl, rfl, rfl⟩

theorem Runs.trans (h : s.Runs t) (h' : t.Runs u) : s.Runs u where
  steps := h.steps.trans (h.config_eq ▸ h.constraints_eq ▸ h'.steps)
  config_eq := h'.config_eq.trans h.config_eq
  constraints_eq := h'.constraints_eq.trans h.constraints_eq
  indexed_eq := h'.indexed_eq.trans h.indexed_eq
  phase_eq := h'.phase_eq.trans h.phase_eq

theorem Runs.of_step (h : s.store.Step s.config.fieldSensitive s.constraints t.store)
    (hsame : t.config = s.config ∧ t.constraints = s.constraints ∧ t.indexed = s.indexed ∧
      t.phase = s.phase) : s.Runs t :=
  ⟨.single h, hsame.1, hsame.2.1, hsame.2.2.1, hsame.2.2.2⟩

theorem Runs.extends (h : s.Runs t) (hs : s.store.WellFormed) : s.store.Extends t.store :=
  h.steps.extends hs

end Runs

/-- A node in the worklist stands for the class of `n`. -/
def Queued (s : Solver) (n : Nat) : Prop := ∃ w ∈ s.worklist.queue, s.store.root w = n

/-- No pointee is lost: each is passed on, or its class is queued or among the
`late` ones. -/
structure Tracks (s : Solver) (sent ruled : Nat → Nat → Prop) (late : Nat → Prop) : Prop where
  store : s.store.WellFormed
  worklist : s.worklist.WellFormed
  orderly : s.Orderly
  flow : s.store.Flow s.config.fieldSensitive sent ruled
  sent_pts (n o : Nat) : sent n o → o ∈ (s.store.cell n).pts
  pending (n o : Nat) : o ∈ (s.store.cell n).pts → o ∉ (s.store.cell n).done →
    s.Queued n ∨ late n

/-- What holds between any two actions of a run. -/
abbrev Steady (s : Solver) : Prop := s.Tracks s.store.Passed s.store.Passed fun _ => False

section Tracks

variable {s t : Solver} {sent ruled : Nat → Nat → Prop} {late : Nat → Prop} {n m : Nat}

theorem queued_push (hs : s.worklist.WellFormed) :
    (s.push n).Queued m ↔ s.store.root n = m ∨ s.Queued m := by
  constructor
  · rintro ⟨w, hw, hroot⟩
    rcases (Worklist.mem_queue_push hs).1 hw with rfl | hw
    · exact .inl hroot
    · exact .inr ⟨w, hw, hroot⟩
  · rintro (hroot | ⟨w, hw, hroot⟩)
    · exact ⟨n, (Worklist.mem_queue_push hs).2 (.inl rfl), hroot⟩
    · exact ⟨w, (Worklist.mem_queue_push hs).2 (.inr hw), hroot⟩

theorem Orderly.push (h : s.Orderly) (hs : s.worklist.WellFormed) (hn : n < s.store.size) :
    (s.push n).Orderly where
  queue_lt m hm := (Worklist.mem_queue_push hs).1 hm |>.elim (fun heq => heq ▸ hn) (h.queue_lt m)
  recent_ascending := h.recent_ascending
  recent_lt := h.recent_lt

theorem Orderly.markRecent (h : s.Orderly) (hn : n < s.store.size) : (s.markRecent n).Orderly where
  queue_lt := h.queue_lt
  recent_ascending := NodeSet.ascending_add h.recent_ascending
  recent_lt m hm := (NodeSet.mem_add h.recent_ascending).1 hm |>.elim (fun heq => heq ▸ hn)
    (h.recent_lt m)

theorem Orderly.congr (h : s.Orderly) (hworklist : t.worklist = s.worklist)
    (hrecent : t.recent = s.recent) (hsize : t.store.size = s.store.size) : t.Orderly where
  queue_lt := by
    rw [hworklist, hsize]
    exact h.queue_lt
  recent_ascending := hrecent ▸ h.recent_ascending
  recent_lt := by
    rw [hrecent, hsize]
    exact h.recent_lt

/-- A change outside of the store and the worklist. -/
theorem Tracks.congr (h : s.Tracks sent ruled late) (hconfig : t.config = s.config)
    (hstore : t.store = s.store) (hworklist : t.worklist = s.worklist) (ht : t.Orderly) :
    t.Tracks sent ruled late where
  store := hstore ▸ h.store
  worklist := hworklist ▸ h.worklist
  orderly := ht
  flow := hconfig ▸ hstore ▸ h.flow
  sent_pts := hstore ▸ h.sent_pts
  pending := by
    unfold Queued
    rw [hworklist, hstore]
    exact h.pending

theorem Tracks.push (h : s.Tracks sent ruled late) (hn : n < s.store.size) :
    (s.push n).Tracks sent ruled late where
  store := h.store
  worklist := h.worklist.push n
  orderly := h.orderly.push h.worklist hn
  flow := h.flow
  sent_pts := h.sent_pts
  pending m o ho hdone := (h.pending m o ho hdone).imp_left
    fun hq => (queued_push h.worklist).2 (.inr hq)

end Tracks

/-! ## Growing a set -/

/-- The solver after `added` new memberships are accounted for. -/
def charged (s : Solver) (added : Nat) : Solver :=
  { s with
    membership := s.membership + added
    stats.newMemberships := s.stats.newMemberships + added }

theorem charge_ends (s : Solver) (added : Nat) :
    Action.Ends (charge added) s (fun _ t => t = s.charged added)
      (fun _ t => t = s.charged added) := by
  rw [charge, Action.ends_bind, Action.ends_modify, Action.ends_bind, Action.ends_get]
  split
  next =>
    rw [Action.ends_ite]
    exact ⟨fun _ => rfl, fun _ => rfl⟩
  next => rfl

/-- What an action that is part of processing a node comes to. -/
structure Advances (sent ruled : Nat → Nat → Prop) (late : Nat → Prop) (s t : Solver) : Prop where
  runs : s.Runs t
  tracks : t.Tracks sent ruled late
  spreads : s.store.Spreads t.store
  proceeds : s.Proceeds t

section Advances

variable {s t u : Solver} {sent ruled : Nat → Nat → Prop} {late : Nat → Prop}

theorem Advances.refl (h : s.Tracks sent ruled late) : Advances sent ruled late s s :=
  ⟨.refl s, h, .refl s.store, .refl s⟩

theorem Advances.trans (h : Advances sent ruled late s t) (h' : Advances sent ruled late t u) :
    Advances sent ruled late s u :=
  ⟨h.runs.trans h'.runs, h'.tracks, h.spreads.trans h'.spreads, h.proceeds.trans h'.proceeds⟩

variable {n : Nat} {pointees grown : NodeSet} {added : Nat}

/-- A class is queued after its set has grown. -/
theorem Proceeds.grow (h : s.Tracks sent ruled late) (hn : s.store.IsRoot n)
    (hunites : NodeSet.Unites (s.store.cell n).pts pointees (grown, added))
    (hlt : ∀ o ∈ pointees, o < s.store.size)
    (hcell : Store.Updates s.store t.store n { s.store.cell n with pts := grown })
    (hrecent : t.recent = s.recent)
    (hworklist : t.worklist = s.worklist ∨ 0 < added ∧ t.worklist = (s.worklist.push n).1) :
    s.Proceeds t := by
  have hkeeps := h.store.keeps_grow hunites hlt
  have hext := hcell.extends hkeeps
  have hlinked : ∀ x y, t.store.Linked x y → s.store.Linked x y := fun _ _ =>
    (Store.linked_congr hcell.table_eq (hcell.field_eq Cell.succs rfl)).1
  have hrecent' : ∀ m ∈ s.recent, m ∈ t.recent := fun m hm => hrecent ▸ hm
  rcases hworklist with hworklist | ⟨hadded, hworklist⟩
  · exact .of_linked hcell.table_eq hext hworklist hrecent' hlinked
  · refine ⟨.of_linked hext hrecent' hlinked, hcell.table_eq, ?_⟩
    obtain ⟨o, ho, hold⟩ := hunites.exists_of_pos hadded
    have hmissing := hext.missing_lt hn.lt (hkeeps.proper.pts_lt o ho)
      (by rwa [Store.pts, hcell.root_eq, hn.root_eq, hcell.cell_self])
      (by rwa [Store.pts, hn.root_eq])
    have hlen := Worklist.length_queue_push_le s.worklist n
    rw [hworklist]
    omega

/-- A set may grow if its class is queued, or late anyway, when there is something
new in it. -/
theorem Tracks.grow (h : s.Tracks sent ruled late) (hn : s.store.IsRoot n)
    (hunites : NodeSet.Unites (s.store.cell n).pts pointees (grown, added))
    (hlt : ∀ o ∈ pointees, o < s.store.size) (hruns : s.Runs t)
    (hcell : Store.Updates s.store t.store n { s.store.cell n with pts := grown })
    (hrecent : t.recent = s.recent)
    (hworklist : t.worklist = s.worklist ∨ 0 < added ∧ t.worklist = (s.worklist.push n).1)
    (hnew : added = 0 ∨ t.Queued n ∨ late n) : Advances sent ruled late s t := by
  have hkeeps := h.store.keeps_grow hunites hlt
  have hspreads : s.store.Spreads t.store := hcell.spreads hkeeps ⟨rfl, rfl, rfl⟩ fun _ hm => hm
  have hsuccs : ∀ m, (t.store.cell m).succs = (s.store.cell m).succs :=
    hcell.field_eq Cell.succs rfl
  obtain ⟨hwf, horderly, hqueued⟩ :
      t.worklist.WellFormed ∧ t.Orderly ∧ ∀ m, s.Queued m → t.Queued m := by
    rcases hworklist with hworklist | ⟨_, hworklist⟩
    · refine ⟨hworklist ▸ h.worklist, h.orderly.congr hworklist hrecent hcell.size_eq, ?_⟩
      rintro m ⟨w, hw, hwm⟩
      exact ⟨w, hworklist ▸ hw, (hcell.root_eq w).trans hwm⟩
    · refine ⟨hworklist ▸ h.worklist.push n,
        (h.orderly.push h.worklist hn.lt).congr hworklist hrecent hcell.size_eq, ?_⟩
      rintro m ⟨w, hw, hwm⟩
      refine ⟨w, ?_, (hcell.root_eq w).trans hwm⟩
      rw [hworklist]
      exact (Worklist.mem_queue_push h.worklist).2 (.inr hw)
  refine ⟨hruns, ?_, hspreads, .grow h hn hunites hlt hcell hrecent hworklist⟩
  refine
    { store := hcell.wellFormed h.store hn hkeeps.proper
      worklist := hwf
      orderly := horderly
      flow := ?_
      sent_pts := fun m o ho => hspreads.pts m o (h.sent_pts m o ho)
      pending := fun m o ho hdone => ?_ }
  · rw [hruns.config_eq]
    exact h.flow.of_extends (hcell.extends hkeeps) (fun m k o hk _ => .inl (hsuccs m ▸ hk))
      hspreads.loads_eq hspreads.stores_eq
  · rw [hspreads.done_eq] at hdone
    by_cases hm : m = n
    · rcases hnew with hzero | hnew
      · rw [hm, hcell.cell_self] at ho
        have hold : o ∈ (s.store.cell m).pts := hm ▸ hunites.eq_of_eq_zero
          (h.store.proper n).pts_ascending hzero ▸ ho
        exact (h.pending m o hold hdone).imp_left (hqueued m)
      · exact hm ▸ hnew
    · rw [hcell.cell_of_ne hm] at ho
      exact (h.pending m o ho hdone).imp_left (hqueued m)

/-- A call of `send` makes the set of the target grow and queues the target if
there was something new for it. -/
theorem send_ends (h : s.Tracks sent ruled late) (hn : s.store.IsRoot n)
    (hp : pointees.Ascending) (hlt : ∀ o ∈ pointees, o < s.store.size)
    (hreason : ∀ o ∈ pointees, s.store.Derives s.constraints n o) :
    Action.Ends (send pointees n) s
      (fun _ t => Advances sent ruled late s t ∧
        (∀ m, (t.store.cell m).succs = (s.store.cell m).succs) ∧
        ∀ o ∈ pointees, o ∈ (t.store.cell n).pts)
      (fun _ t => s.Runs t) := by
  have hunites : NodeSet.Unites (s.store.cell n).pts pointees ((s.cell n).pts.union pointees) :=
    NodeSet.union_unites (h.store.proper n).pts_ascending hp
  rw [send, Action.ends_bind, Action.ends_get]
  generalize (s.cell n).pts.union pointees = result at hunites ⊢
  obtain ⟨grown, added⟩ := result
  have hcell : ∀ t : Solver, t.table = s.table →
      t.cells = s.cells.modify n (fun c => { c with pts := grown }) →
      Store.Updates s.store t.store n { s.store.cell n with pts := grown } :=
    fun t htable hcells => h.store.updates hn (fun c => { c with pts := grown }) htable hcells
  have hsent : ∀ t, Advances sent ruled late s t →
      Store.Updates s.store t.store n { s.store.cell n with pts := grown } →
      Advances sent ruled late s t ∧ (∀ m, (t.store.cell m).succs = (s.store.cell m).succs) ∧
        ∀ o ∈ pointees, o ∈ (t.store.cell n).pts := by
    refine fun t hadvances hcell => ⟨hadvances, hcell.field_eq Cell.succs rfl, fun o ho => ?_⟩
    rw [hcell.cell_self]
    exact (hunites.mem o).2 (.inr ho)
  rw [Action.ends_bind, Action.ends_modify, Action.ends_ite]
  constructor
  · intro hadded
    rw [Action.ends_bind, Action.ends_modify, Action.ends_bind]
    refine (charge_ends _ added).imp ?_ ?_
    · rintro _ t rfl
      rw [Action.ends_modify]
      refine hsent _ (h.grow hn hunites hlt ?_ (hcell _ rfl rfl) rfl (.inr ⟨hadded, rfl⟩)
        (.inr (.inl ?_))) (hcell _ rfl rfl)
      · exact .of_step (.grow hn hunites hlt hreason (hcell _ rfl rfl) rfl) ⟨rfl, rfl, rfl, rfl⟩
      · exact (queued_push h.worklist).2 (.inl hn.root_eq)
    · rintro _ t rfl
      exact .of_step (.grow hn hunites hlt hreason (hcell _ rfl rfl) rfl) ⟨rfl, rfl, rfl, rfl⟩
  · intro hadded
    rw [Action.ends_pure]
    have hzero : added = 0 := Nat.eq_zero_of_not_pos hadded
    refine hsent _ (h.grow hn hunites hlt ?_ (hcell _ rfl rfl) rfl (.inl rfl) (.inl hzero))
      (hcell _ rfl rfl)
    refine .of_step (.grow hn hunites hlt hreason (hcell _ rfl rfl) ?_) ⟨rfl, rfl, rfl, rfl⟩
    rw [hzero]
    rfl

/-! ## Making an edge -/

variable {a b : Nat}

/-- A new edge may be made as long as its source does not count as having sent
anything. -/
theorem Tracks.link (h : s.Tracks sent ruled late) (ha : s.store.IsRoot a)
    (hb : s.store.IsRoot b) (hruns : s.Runs t)
    (hcell : Store.Updates s.store t.store a
      { s.store.cell a with succs := (s.store.cell a).succs.add b })
    (hrecent : t.recent = s.recent.add a) (hworklist : t.worklist = s.worklist) :
    Advances (fun n o => n ≠ a ∧ sent n o) ruled late s t := by
  have hkeeps := h.store.keeps_link (n := a) hb
  have hmem : ∀ m, m ∈ (s.store.cell a).succs.add b ↔ m = b ∨ m ∈ (s.store.cell a).succs :=
    fun m => NodeSet.mem_add (h.store.proper a).succs_ascending
  have hspreads : s.store.Spreads t.store :=
    hcell.spreads hkeeps ⟨rfl, rfl, rfl⟩ fun m hm => (hmem m).2 (.inr hm)
  have hpts : ∀ n, (t.store.cell n).pts = (s.store.cell n).pts := hcell.field_eq Cell.pts rfl
  have hrecent' : ∀ m, m ∈ t.recent ↔ m = a ∨ m ∈ s.recent := by
    rw [hrecent]
    exact fun m => NodeSet.mem_add h.orderly.recent_ascending
  have hext := hcell.extends hkeeps
  have hproceeds : s.Proceeds t :=
    { toRemembers := .of_link h.store hcell hext (fun m hm => (hrecent' m).2 (.inr hm))
        ((hrecent' a).2 (.inl rfl))
      table_eq := hcell.table_eq
      pays := hworklist ▸ Nat.add_le_add_left hext.missing_le _ }
  refine ⟨hruns, ?_, hspreads, hproceeds⟩
  refine
    { store := hcell.wellFormed h.store ha hkeeps.proper
      worklist := hworklist ▸ h.worklist
      orderly := (h.orderly.markRecent ha.lt).congr hworklist hrecent hcell.size_eq
      flow := ?_
      sent_pts := fun n o ho => hspreads.pts n o (h.sent_pts n o ho.2)
      pending := fun n o ho hdone => ?_ }
  · have hflow : s.store.Flow s.config.fieldSensitive (fun n o => n ≠ a ∧ sent n o) ruled :=
      h.flow.mono (fun _ _ _ _ ho => .inl ho.2) (fun _ _ ho => .inl ho)
    rw [hruns.config_eq]
    refine hflow.of_extends (hcell.extends hkeeps) (fun n m o hm ho => .inl ?_)
      hspreads.loads_eq hspreads.stores_eq
    rwa [hcell.cell_of_ne ho.1] at hm
  · rw [hpts] at ho
    rw [hspreads.done_eq] at hdone
    refine (h.pending n o ho hdone).imp_left ?_
    rintro ⟨w, hw, hroot⟩
    exact ⟨w, hworklist ▸ hw, (hspreads.root_eq w).trans hroot⟩

/-- Once the new edge has carried the whole set of its source, the source counts
again as having sent what it had sent before. -/
theorem Advances.carried (h : s.Tracks sent ruled late)
    (hst : Advances (fun n o => n ≠ a ∧ sent n o) ruled late s t)
    (hsuccs : ∀ m ∈ (t.store.cell a).succs, m = b ∨ m ∈ (s.store.cell a).succs)
    (hb : s.store.IsRoot b) (hpts : ∀ o ∈ (s.store.cell a).pts, o ∈ (t.store.cell b).pts) :
    Advances sent ruled late s t := by
  have hext := hst.runs.extends h.store
  refine ⟨hst.runs, ?_, hst.spreads, hst.proceeds⟩
  refine
    { hst.tracks with
      flow := hst.tracks.flow.mono (fun n m o hm ho => ?_) (fun _ _ ho => .inl ho)
      sent_pts := fun n o ho => hst.spreads.pts n o (h.sent_pts n o ho) }
  by_cases hn : n = a
  · subst hn
    refine .inr ?_
    rcases hsuccs m hm with rfl | hm
    · rw [Store.pts, (hst.spreads.isRoot hb).root_eq]
      exact hpts o (h.sent_pts n o ho)
    · exact hext.pts m o (h.flow.edges n m o hm ho)
  · exact .inl ⟨hn, ho⟩

/-- What is left of making an edge after it has been entered. -/
theorem carry_ends (h : s.Tracks sent ruled late) (ha : s.store.IsRoot a)
    (hb : s.store.IsRoot b) (hruns : s.Runs t)
    (hcell : Store.Updates s.store t.store a
      { s.store.cell a with succs := (s.store.cell a).succs.add b })
    (hrecent : t.recent = s.recent.add a) (hworklist : t.worklist = s.worklist) :
    Action.Ends (send (s.store.cell a).pts b) t
      (fun _ u => Advances sent ruled late s u ∧ b ∈ (u.store.cell a).succs)
      (fun _ u => s.Runs u) := by
  have hmem : ∀ m, m ∈ (t.store.cell a).succs ↔ m = b ∨ m ∈ (s.store.cell a).succs := by
    intro m
    rw [hcell.cell_self]
    exact NodeSet.mem_add (h.store.proper a).succs_ascending
  have hlink := h.link ha hb hruns hcell hrecent hworklist
  have hpts : (t.store.cell a).pts = (s.store.cell a).pts := by rw [hcell.cell_self]
  have hroot : t.store.root b = b := (hlink.spreads.isRoot hb).root_eq
  refine (send_ends hlink.tracks (hlink.spreads.isRoot hb)
    (h.store.proper a).pts_ascending ?_ ?_).imp ?_ fun _ u hu => hruns.trans hu
  · rw [hcell.size_eq]
    exact (h.store.proper a).pts_lt
  · intro o ho
    rw [← hroot]
    exact .edge ((hmem b).2 (.inl rfl)) (hpts ▸ ho)
  · rintro _ u ⟨hu, hsuccs, hsent⟩
    refine ⟨(hlink.trans hu).carried h (fun m hm => ?_) hb hsent, ?_⟩
    · rw [hsuccs] at hm
      exact (hmem m).1 hm
    · rw [hsuccs]
      exact (hmem b).2 (.inl rfl)

theorem addEdge_ends {source target : Nat} (h : s.Tracks sent ruled late)
    (hsource : source < s.store.size) (htarget : target < s.store.size)
    (hreason : s.store.Demands s.config.fieldSensitive (s.store.root source)
      (s.store.root target)) :
    Action.Ends (addEdge source target) s
      (fun _ t => Advances sent ruled late s t ∧ t.store.Linked source target)
      (fun _ t => s.Runs t) := by
  have ha : s.store.IsRoot (s.store.root source) := h.store.isRoot_root hsource
  have hb : s.store.IsRoot (s.store.root target) := h.store.isRoot_root htarget
  have hsuccs := (h.store.proper (s.store.root source)).succs_ascending
  rw [addEdge, Action.ends_bind, Action.ends_get]
  dsimp only
  rw [Action.ends_ite]
  constructor
  · rintro ⟨hne, _⟩
    have hrest : ∀ t : Solver, t.table = s.table →
        t.cells = s.cells.modify (s.store.root source) (fun c =>
          { c with
            succs := (s.store.cell (s.store.root source)).succs.add (s.store.root target) }) →
        t.membership = s.membership → t.recent = s.recent.add (s.store.root source) →
        t.worklist = s.worklist →
        (t.config = s.config ∧ t.constraints = s.constraints ∧ t.indexed = s.indexed ∧
          t.phase = s.phase) →
        Action.Ends (send (s.store.cell (s.store.root source)).pts (s.store.root target)) t
          (fun _ u => Advances sent ruled late s u ∧ u.store.Linked source target)
          (fun _ u => s.Runs u) := by
      intro t htable hcells hcount hrecent hworklist hsame
      have hcell := h.store.updates (τ := t.store) ha (fun c =>
        { c with succs := (s.store.cell (s.store.root source)).succs.add (s.store.root target) })
        htable hcells
      have hruns : s.Runs t := .of_step (.link ha hb hne hreason hcell hcount) hsame
      refine (carry_ends h ha hb hruns hcell hrecent hworklist).imp ?_ fun _ _ hu => hu
      rintro _ u ⟨hu, hm⟩
      refine ⟨hu, .inr ⟨s.store.root target, ?_, ?_⟩⟩
      · rwa [hu.spreads.root_eq]
      · rw [hu.spreads.root_eq, hu.spreads.root_eq, h.store.root_root]
    exact hrest _ rfl rfl rfl rfl rfl ⟨rfl, rfl, rfl, rfl⟩
  · intro hold
    refine ⟨.refl h, ?_⟩
    by_cases hne : s.store.root source = s.store.root target
    · exact .inl hne
    · refine .inr ⟨s.store.root target, ?_, h.store.root_root target⟩
      by_contra hfresh
      exact hold ⟨hne, (NodeSet.insert_fresh_iff hsuccs).2 hfresh⟩

/-! ## Loads and stores -/

variable {o k : Nat} {r : Nat × Nat}

theorem access_ends (h : s.Tracks sent ruled late) (o k : Nat) :
    Action.Ends (access o k) s
      (fun field t => field = s.store.table.route s.config.fieldSensitive o k ∧
        Advances sent ruled late s t ∧ t.store = s.store)
      (fun _ t => s.Runs t) := by
  have hsame : ∀ t : Solver, t.store = s.store → t.worklist = s.worklist → t.recent = s.recent →
      (t.config = s.config ∧ t.constraints = s.constraints ∧ t.indexed = s.indexed ∧
        t.phase = s.phase) → Advances sent ruled late s t := by
    rintro t hstore hworklist hrecent ⟨hconfig, hconstraints, hindexed, hphase⟩
    refine ⟨⟨hstore ▸ .refl, hconfig, hconstraints, hindexed, hphase⟩, ?_, hstore ▸ .refl _,
      .of_store_eq hstore hworklist fun _ hm => hrecent ▸ hm⟩
    refine ⟨hstore ▸ h.store, hworklist ▸ h.worklist,
      h.orderly.congr hworklist hrecent (congrArg Store.size hstore), ?_, ?_, ?_⟩
    · rw [hstore, hconfig]
      exact h.flow
    · rw [hstore]
      exact h.sent_pts
    · rw [hstore]
      intro n o ho hdone
      refine (h.pending n o ho hdone).imp_left ?_
      rintro ⟨w, hw, hroot⟩
      exact ⟨w, hworklist ▸ hw, hstore ▸ hroot⟩
  rw [access, Action.ends_bind, Action.ends_get]
  split
  next => exact ⟨rfl, hsame _ rfl rfl rfl ⟨rfl, rfl, rfl, rfl⟩, rfl⟩
  next => exact ⟨rfl, .refl h, rfl⟩

theorem applyLoad_ends (h : s.Tracks sent ruled late) (ho : o ∈ (s.store.cell n).pts)
    (hr : r ∈ (s.store.cell n).loads) :
    Action.Ends (applyLoad o r) s
      (fun _ t => Advances sent ruled late s t ∧
        t.store.Linked (s.store.table.route s.config.fieldSensitive o r.2) r.1)
      (fun _ t => s.Runs t) := by
  have hproper := h.store.proper n
  refine (access_ends h o r.2).bind ?_
  rintro _ t ⟨rfl, ht, hstore⟩
  refine (addEdge_ends ht.tracks ?_ ?_ ?_).imp ?_ fun _ u hu => ht.runs.trans hu
  · rw [hstore]
    exact h.store.table.route_lt (hproper.pts_lt o ho) _ _
  · rw [hstore]
    exact hproper.loads_lt r hr
  · rw [hstore, ht.runs.config_eq]
    exact .load ho hr
  · exact fun _ u hu => ⟨ht.trans hu.1, hu.2⟩

theorem applyStore_ends (h : s.Tracks sent ruled late) (ho : o ∈ (s.store.cell n).pts)
    (hr : r ∈ (s.store.cell n).stores) :
    Action.Ends (applyStore o r) s
      (fun _ t => Advances sent ruled late s t ∧
        t.store.Linked r.1 (s.store.table.route s.config.fieldSensitive o r.2))
      (fun _ t => s.Runs t) := by
  have hproper := h.store.proper n
  refine (access_ends h o r.2).bind ?_
  rintro _ t ⟨rfl, ht, hstore⟩
  refine (addEdge_ends ht.tracks ?_ ?_ ?_).imp ?_ fun _ u hu => ht.runs.trans hu
  · rw [hstore]
    exact hproper.stores_lt r hr
  · rw [hstore]
    exact h.store.table.route_lt (hproper.pts_lt o ho) _ _
  · rw [hstore, ht.runs.config_eq]
    exact .store ho hr
  · exact fun _ u hu => ⟨ht.trans hu.1, hu.2⟩

/-- The rules of a cell have made their edges for the pointee `o`. -/
def Materialized (s t : Solver) (n o : Nat) : Prop :=
  (∀ r ∈ (s.store.cell n).loads,
      t.store.Linked (s.store.table.route s.config.fieldSensitive o r.2) r.1) ∧
    ∀ r ∈ (s.store.cell n).stores,
      t.store.Linked r.1 (s.store.table.route s.config.fieldSensitive o r.2)

theorem Materialized.extends (h : s.Materialized t n o) (htu : t.store.Extends u.store) :
    s.Materialized u n o :=
  ⟨fun r hr => htu.linked _ _ (h.1 r hr), fun r hr => htu.linked _ _ (h.2 r hr)⟩

/-- One pointee is taken through all rules of a cell. -/
theorem applyRules_ends (h : s.Tracks sent ruled late) (ho : o ∈ (s.store.cell n).pts) :
    Action.Ends (do
        (s.store.cell n).loads.forM (applyLoad o)
        (s.store.cell n).stores.forM (applyStore o)) s
      (fun _ t => Advances sent ruled late s t ∧ s.Materialized t n o)
      (fun _ t => s.Runs t) := by
  refine (Action.ends_forM_all (I := Advances sent ruled late s)
    (P := fun r t => t.store.Linked (s.store.table.route s.config.fieldSensitive o r.2) r.1)
    (.refl h) fun r hr t ht => ?_).bind ?_
  · have ho' := ht.spreads.pts n o ho
    refine (applyLoad_ends ht.tracks ho' (ht.spreads.loads_eq n ▸ hr)).imp ?_
      fun _ u hu => ht.runs.trans hu
    rintro _ u ⟨hu, hlinked⟩
    rw [ht.runs.config_eq, ht.spreads.table_eq] at hlinked
    exact ⟨ht.trans hu, hlinked, fun r' => (hu.runs.extends ht.tracks.store).linked _ _⟩
  · rintro _ t ⟨ht, hloads⟩
    refine (Action.ends_forM_all (I := fun u => Advances sent ruled late s u ∧
        ∀ r ∈ (s.store.cell n).loads,
          u.store.Linked (s.store.table.route s.config.fieldSensitive o r.2) r.1)
      (P := fun r u => u.store.Linked r.1 (s.store.table.route s.config.fieldSensitive o r.2))
      ⟨ht, hloads⟩ fun r hr u hu => ?_).imp ?_ fun _ _ hu => hu
    · obtain ⟨hu, hloads⟩ := hu
      have ho' := hu.spreads.pts n o ho
      refine (applyStore_ends hu.tracks ho' (hu.spreads.stores_eq n ▸ hr)).imp ?_
        fun _ v hv => hu.runs.trans hv
      rintro _ v ⟨hv, hlinked⟩
      rw [hu.runs.config_eq, hu.spreads.table_eq] at hlinked
      have hext := hv.runs.extends hu.tracks.store
      exact ⟨⟨hu.trans hv, fun r' hr' => hext.linked _ _ (hloads r' hr')⟩, hlinked,
        fun r' => hext.linked _ _⟩
    · rintro _ u ⟨⟨hu, hloads⟩, hstores⟩
      exact ⟨hu, hloads, hstores⟩

theorem materialize_ends {fresh : List Nat} (h : s.Tracks sent ruled late)
    (hfresh : ∀ o ∈ fresh, o ∈ (s.store.cell n).pts) :
    Action.Ends (materialize fresh (s.store.cell n).loads (s.store.cell n).stores) s
      (fun _ t => Advances sent ruled late s t ∧ ∀ o ∈ fresh, s.Materialized t n o)
      (fun _ t => s.Runs t) := by
  refine Action.ends_forM_all (I := Advances sent ruled late s)
    (P := fun o t => s.Materialized t n o) (.refl h) fun o ho t ht => ?_
  have hrules := applyRules_ends ht.tracks (ht.spreads.pts n o (hfresh o ho))
  rw [ht.spreads.loads_eq, ht.spreads.stores_eq] at hrules
  refine hrules.imp ?_ fun _ u hu => ht.runs.trans hu
  rintro _ u ⟨hu, hmade⟩
  refine ⟨ht.trans hu, ?_, fun o' hmade' => hmade'.extends (hu.runs.extends ht.tracks.store)⟩
  rwa [Materialized, ht.runs.config_eq, ht.spreads.table_eq, ht.spreads.loads_eq,
    ht.spreads.stores_eq] at hmade

/-! ## Processing a node -/

/-- A cell counts as passed on before its new pointees are on their way; what
has been sent and ruled is still what it was. -/
theorem Tracks.settle (h : s.Tracks sent ruled fun m => m = n) (hn : s.store.IsRoot n)
    (hruns : s.Runs t)
    (hcell : Store.Updates s.store t.store n
      { s.store.cell n with done := (s.store.cell n).pts })
    (hrecent : t.recent = s.recent) (hworklist : t.worklist = s.worklist) :
    (t.Tracks sent ruled fun _ => False) ∧ s.Proceeds t := by
  have hkeeps := h.store.keeps_settle n
  have hpts := hcell.field_eq Cell.pts rfl
  have hsuccs := hcell.field_eq Cell.succs rfl
  refine ⟨?_, .of_linked hcell.table_eq (hcell.extends hkeeps) hworklist
    (fun _ hm => hrecent ▸ hm) fun _ _ => (Store.linked_congr hcell.table_eq hsuccs).1⟩
  refine
    { store := hcell.wellFormed h.store hn hkeeps.proper
      worklist := hworklist ▸ h.worklist
      orderly := h.orderly.congr hworklist hrecent hcell.size_eq
      flow := ?_
      sent_pts := fun m o ho => ?_
      pending := fun m o ho hdone => .inl ?_ }
  · rw [hruns.config_eq]
    exact h.flow.of_extends (hcell.extends hkeeps) (fun m k o hk _ => .inl (hsuccs m ▸ hk))
      (hcell.field_eq Cell.loads rfl) (hcell.field_eq Cell.stores rfl)
  · rw [hpts m]
    exact h.sent_pts m o ho
  · have hne : m ≠ n := by
      rintro rfl
      rw [hcell.cell_self] at ho hdone
      exact hdone ho
    rw [hcell.cell_of_ne hne] at ho hdone
    obtain ⟨w, hw, hroot⟩ := (h.pending m o ho hdone).resolve_right hne
    exact ⟨w, hworklist ▸ hw, (hcell.root_eq w).trans hroot⟩

/-- Edges may be led to representatives. -/
theorem Tracks.refresh (h : s.Tracks sent ruled late) (hn : s.store.IsRoot n) (hruns : s.Runs t)
    (hcell : Store.Updates s.store t.store n { s.store.cell n with
      succs := .ofList (((s.store.cell n).succs.elements.map s.store.root).filter (· != n)) })
    (hrecent : t.recent = s.recent) (hworklist : t.worklist = s.worklist) :
    t.Tracks sent ruled late ∧ s.Proceeds t := by
  have hkeeps := h.store.keeps_refresh n
  have hext := hcell.extends hkeeps
  have hpts := hcell.field_eq Cell.pts rfl
  have hdone := hcell.field_eq Cell.done rfl
  refine ⟨?_, .of_linked hcell.table_eq hext hworklist (fun _ hm => hrecent ▸ hm)
    fun _ _ => hcell.linked_of_refresh h.store⟩
  refine
    { store := hcell.wellFormed h.store hn hkeeps.proper
      worklist := hworklist ▸ h.worklist
      orderly := h.orderly.congr hworklist hrecent hcell.size_eq
      flow := ?_
      sent_pts := fun m o ho => ?_
      pending := fun m o ho hnot => ?_ }
  · rw [hruns.config_eq]
    refine h.flow.of_extends hext (fun m k o hk hsent => ?_) (hcell.field_eq Cell.loads rfl)
      (hcell.field_eq Cell.stores rfl)
    by_cases hm : m = n
    · -- the representative of an old target has the pointees of that target
      subst hm
      rw [hcell.cell_self] at hk
      obtain ⟨_, k', hk', rfl⟩ := Store.mem_refreshed.1 hk
      refine .inr (hext.pts _ o ?_)
      have harrived := h.flow.edges m k' o hk' hsent
      rwa [Store.pts, h.store.root_root]
    · exact .inl (hcell.cell_of_ne hm ▸ hk)
  · rw [hpts m]
    exact h.sent_pts m o ho
  · rw [hpts m] at ho
    rw [hdone m] at hnot
    refine (h.pending m o ho hnot).imp_left ?_
    rintro ⟨w, hw, hroot⟩
    exact ⟨w, hworklist ▸ hw, (hcell.root_eq w).trans hroot⟩

/-- Every target of an edge is served, and nothing else is. -/
theorem mem_served {m : Nat} : m ∈ s.served n ↔ m ∈ (s.store.cell n).succs :=
  (s.sends.perm _ _).mem_iff

/-- The new pointees of a cell are sent along all its edges, in whatever order. -/
theorem deliver_ends {delta : NodeSet} (h : s.Tracks sent ruled late) (hasc : delta.Ascending)
    (hdelta : ∀ o ∈ delta, o ∈ (s.store.cell n).pts)
    (hroots : ∀ m ∈ (s.store.cell n).succs, s.store.root m = m) :
    Action.Ends ((s.served n).forM (send delta)) s
      (fun _ t => (Advances sent ruled late s t ∧
          (t.store.cell n).succs = (s.store.cell n).succs) ∧
        ∀ m ∈ s.served n, ∀ o ∈ delta, o ∈ t.store.pts m)
      (fun _ t => s.Runs t) := by
  have hproper := h.store.proper n
  refine Action.ends_forM_all
    (I := fun t => Advances sent ruled late s t ∧
      (t.store.cell n).succs = (s.store.cell n).succs)
    (P := fun m t => ∀ o ∈ delta, o ∈ t.store.pts m) ⟨.refl h, rfl⟩ ?_
  rintro m hm t ⟨ht, hsuccs⟩
  rw [mem_served] at hm
  have hroot : s.store.IsRoot m := ⟨hproper.succs_lt m hm, hroots m hm⟩
  have hroot' := ht.spreads.isRoot hroot
  refine (send_ends ht.tracks hroot' hasc ?_ ?_).imp ?_ fun _ u hu => ht.runs.trans hu
  · intro o ho
    rw [(ht.runs.extends h.store).size_eq]
    exact hproper.pts_lt o (hdelta o ho)
  · intro o ho
    rw [← hroot'.root_eq]
    exact .edge (hsuccs ▸ hm) (ht.spreads.pts n o (hdelta o ho))
  · rintro _ u ⟨hu, hkept, hsent⟩
    refine ⟨⟨ht.trans hu, (hkept n).trans hsuccs⟩, fun o ho => ?_, fun b hb o ho => ?_⟩
    · rw [Store.pts, (hu.spreads.isRoot hroot').root_eq]
      exact hsent o ho
    · exact (hu.runs.extends ht.tracks.store).pts b o (hb o ho)

/-- The second half of processing a node. Before it, the pointees in `delta` count
as passed on but have been neither sent nor ruled; after it, they have. -/
theorem spread_ends {delta : NodeSet} (h : s.Tracks sent sent fun _ => False)
    (hn : s.store.IsRoot n) (hasc : delta.Ascending)
    (hdelta : ∀ o ∈ delta, o ∈ (s.store.cell n).pts)
    (hpassed : ∀ m o, o ∈ (s.store.cell m).done → sent m o ∨ m = n ∧ o ∈ delta) :
    Action.Ends (do
        materialize delta.elements (s.store.cell n).loads (s.store.cell n).stores
        modify (·.refreshTargets n)
        let t ← get
        (t.served n).forM (send delta)) s
      (fun _ t => s.Runs t ∧ t.Steady ∧ s.Proceeds t) (fun _ t => s.Runs t) := by
  refine (materialize_ends h hdelta).bind ?_
  rintro _ t ⟨ht, hmade⟩
  have htn := ht.spreads.isRoot hn
  have hrest : ∀ u : Solver, t.Runs u → u.recent = t.recent → u.worklist = t.worklist →
      Store.Updates t.store u.store n { t.store.cell n with
        succs := .ofList (((t.store.cell n).succs.elements.map t.store.root).filter (· != n)) } →
      Action.Ends ((u.served n).forM (send delta)) u
        (fun _ v => s.Runs v ∧ v.Steady ∧ s.Proceeds v) (fun _ v => s.Runs v) := by
    intro u htu hrecent hworklist hcell
    obtain ⟨hu, hproceeds⟩ := ht.tracks.refresh htn htu hcell hrecent hworklist
    have hroots : ∀ m ∈ (u.store.cell n).succs, u.store.root m = m := by
      intro m hm
      rw [hcell.cell_self] at hm
      obtain ⟨_, m', _, rfl⟩ := Store.mem_refreshed.1 hm
      rw [hcell.root_eq, ht.tracks.store.root_root]
    have hkept : ∀ m, (u.store.cell m).done = (s.store.cell m).done ∧
        (u.store.cell m).loads = (s.store.cell m).loads ∧
        (u.store.cell m).stores = (s.store.cell m).stores := by
      intro m
      rw [← ht.spreads.done_eq, ← ht.spreads.loads_eq, ← ht.spreads.stores_eq]
      exact ⟨hcell.field_eq Cell.done rfl m, hcell.field_eq Cell.loads rfl m,
        hcell.field_eq Cell.stores rfl m⟩
    refine (deliver_ends hu hasc ?_ hroots).imp ?_ fun _ v hv => ht.runs.trans (htu.trans hv)
    · intro o ho
      rw [hcell.cell_self]
      exact ht.spreads.pts n o (hdelta o ho)
    · rintro _ v ⟨⟨hv, hsuccs⟩, harrived⟩
      have hruns : s.Runs v := ht.runs.trans (htu.trans hv.runs)
      have hext : t.store.Extends v.store := (htu.trans hv.runs).extends ht.tracks.store
      refine ⟨hruns, ?_, ht.proceeds.trans (hproceeds.trans hv.proceeds)⟩
      refine
        { hv.tracks with
          flow := hv.tracks.flow.mono (fun m k o hk ho => ?_) (fun m o ho => ?_)
          sent_pts := fun m o ho => (hv.tracks.store.proper m).done_subset o ho }
      · rw [Store.Passed, hv.spreads.done_eq, (hkept m).1] at ho
        refine (hpassed m o ho).imp_right ?_
        rintro ⟨rfl, ho⟩
        exact harrived k (mem_served.2 (hsuccs ▸ hk)) o ho
      · rw [Store.Passed, hv.spreads.done_eq, (hkept m).1] at ho
        refine (hpassed m o ho).imp_right ?_
        rintro ⟨rfl, ho⟩
        rw [hv.spreads.loads_eq, hv.spreads.stores_eq, (hkept m).2.1, (hkept m).2.2,
          hruns.config_eq]
        simp only [NodeTable.route_congr (hruns.extends h.store).nodes_eq]
        exact (hmade o ho).extends hext
  rw [Action.ends_bind, Action.ends_modify, Action.ends_bind, Action.ends_get]
  have hcell : Store.Updates t.store (t.refreshTargets n).store n { t.store.cell n with
      succs := .ofList (((t.store.cell n).succs.elements.map t.store.root).filter (· != n)) } :=
    ht.tracks.store.updates htn (fun c => { c with succs := .ofList (t.targets n) }) rfl rfl
  exact hrest _ (.of_step (.refresh htn hcell rfl) ⟨rfl, rfl, rfl, rfl⟩) rfl rfl hcell

/-- What a set gained is passed on once it counts as passed on. -/
theorem passGain_ends {delta : NodeSet}
    (h : s.Tracks s.store.Passed s.store.Passed fun m => m = n) (hn : s.store.IsRoot n)
    (hasc : delta.Ascending)
    (hdelta : ∀ o, o ∈ delta ↔ o ∈ (s.store.cell n).pts ∧ o ∉ (s.store.cell n).done)
    (hst : s.Runs t) (hrecent : t.recent = s.recent) (hworklist : t.worklist = s.worklist)
    (hcell : Store.Updates s.store t.store n
      { s.store.cell n with done := (s.store.cell n).pts }) :
    Action.Ends (do
        materialize delta.elements (s.store.cell n).loads (s.store.cell n).stores
        modify (·.refreshTargets n)
        let u ← get
        (u.served n).forM (send delta)) t
      (fun _ u => s.Runs u ∧ u.Steady ∧ s.Proceeds u) (fun _ u => s.Runs u) := by
  obtain ⟨ht, hproceeds⟩ := h.settle hn hst hcell hrecent hworklist
  have htn : t.store.IsRoot n :=
    ⟨by rw [hcell.size_eq]; exact hn.lt, (hcell.root_eq n).trans hn.root_eq⟩
  have hspread := spread_ends ht htn hasc (fun o ho => ?_) (fun m o ho => ?_)
  · rw [hcell.cell_self] at hspread
    exact hspread.imp (fun _ u hu => ⟨hst.trans hu.1, hu.2.1, hproceeds.trans hu.2.2⟩)
      fun _ u hu => hst.trans hu
  · rw [hcell.cell_self]
    exact ((hdelta o).1 ho).1
  · rw [hcell.cell_eq] at ho
    split at ho
    next heq =>
      by_cases hold : o ∈ (s.store.cell n).done
      · exact .inl (heq ▸ hold)
      · exact .inr ⟨heq, (hdelta o).2 ⟨ho, hold⟩⟩
    next => exact .inl ho

/-- What a set gained is passed on, if it gained anything. -/
theorem passOn_ends {delta : NodeSet} (h : s.Tracks s.store.Passed s.store.Passed fun m => m = n)
    (hdelta : delta = (s.store.cell n).pts.difference (s.store.cell n).done) :
    Action.Ends (do
        if !delta.isEmpty then
          modify (·.modifyCell n fun c => { c with done := (c.done.union delta).1 })
          materialize delta.elements (s.store.cell n).loads (s.store.cell n).stores
          modify (·.refreshTargets n)
          let t ← get
          (t.served n).forM (send delta)) s
      (fun _ t => s.Runs t ∧ t.Steady ∧ s.Proceeds t) (fun _ t => s.Runs t) := by
  have hproper := h.store.proper n
  have hmem : ∀ o, o ∈ delta ↔ o ∈ (s.store.cell n).pts ∧ o ∉ (s.store.cell n).done := by
    intro o
    rw [hdelta]
    exact NodeSet.mem_difference hproper.pts_ascending hproper.done_ascending
  have hasc : delta.Ascending := hdelta ▸ NodeSet.ascending_difference _ hproper.pts_ascending
  have hdone : ((s.store.cell n).done.union delta).1 = (s.store.cell n).pts := by
    rw [hdelta]
    exact NodeSet.union_difference hproper.pts_ascending hproper.done_ascending hproper.done_subset
  rw [Action.ends_ite]
  constructor
  · intro hne
    obtain ⟨o, ho⟩ : ∃ o, o ∈ delta := by
      by_contra hnone
      have hempty := NodeSet.isEmpty_iff.2 fun o ho => hnone ⟨o, ho⟩
      simp [hempty] at hne
    have hn : s.store.IsRoot n := h.store.isRoot_of_mem_pts ((hmem o).1 ho).1
    have hcell : Store.Updates s.store (s.modifyCell n fun c =>
        { c with done := (c.done.union delta).1 }).store n
        { s.store.cell n with done := (s.store.cell n).pts } := by
      have hcell := h.store.updates hn (fun c => { c with done := (c.done.union delta).1 })
        (τ := (s.modifyCell n fun c => { c with done := (c.done.union delta).1 }).store) rfl rfl
      rwa [hdone] at hcell
    rw [Action.ends_bind, Action.ends_modify]
    exact passGain_ends h hn hasc hmem
      (.of_step (.settle hn hcell rfl) ⟨rfl, rfl, rfl, rfl⟩) rfl rfl hcell
  · intro hempty
    rw [Action.ends_pure]
    refine ⟨.refl s, { h with pending := fun m o ho hnot => ?_ }, .refl s⟩
    refine (h.pending m o ho hnot).imp_right ?_
    rintro rfl
    rw [Bool.not_eq_true', Bool.not_eq_false] at hempty
    exact NodeSet.isEmpty_iff.1 hempty o ((hmem o).2 ⟨ho, hnot⟩)

theorem process_ends {popped : Nat} (hpopped : popped < s.store.size)
    (h : s.Tracks s.store.Passed s.store.Passed fun m => m = s.store.root popped) :
    Action.Ends (process popped) s (fun _ t => s.Runs t ∧ t.Steady ∧ s.Proceeds t)
      (fun _ t => s.Runs t) := by
  rw [process, Action.ends_bind, Action.ends_modify, Action.ends_bind, Action.ends_get]
  have hroot := h.store.isRoot_root hpopped
  have hruns : s.Runs (s.notePop (s.table.root popped)) := ⟨.refl, rfl, rfl, rfl, rfl⟩
  have hnoted : (s.notePop (s.table.root popped)).Tracks s.store.Passed s.store.Passed
      fun m => m = s.store.root popped :=
    h.congr rfl rfl rfl ((h.orderly.markRecent hroot.lt).congr rfl rfl rfl)
  have hproceeds : s.Proceeds (s.notePop (s.table.root popped)) :=
    .of_store_eq rfl rfl fun _ hm => (NodeSet.mem_add h.orderly.recent_ascending).2 (.inr hm)
  exact (passOn_ends hnoted rfl).imp
    (fun _ t ht => ⟨hruns.trans ht.1, ht.2.1, hproceeds.trans ht.2.2⟩)
    fun _ t ht => hruns.trans ht

end Advances

end Solver

end PointsTo

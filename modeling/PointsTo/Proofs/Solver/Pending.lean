import PointsTo.Proofs.Constraint
import PointsTo.Proofs.NodeSet.Finite
import PointsTo.Proofs.Solver.Termination

/-!
# Pending work between two advances

What a set holds beyond its `done` part is pending: its class waits in the worklist, and
everything else has gone wherever it has to. While a node is processed this is not so. Its
delta counts as done at once, the rules make their edges after that, one of them may lead
from or to the node itself, and the edges carry the delta last; a merge leaves an edge with
an end that stands for no class any more, and clears what the two classes had passed on.
`Tracks` is the invariant in between, with what has been sent and what the rules have seen
as parameters, and `advanceOnce_ends` leads from one `Steady` solver to another one.

So between two advances nothing is left of those parameters. Here the invariant is read off
for the solvers that any calls lead to, in terms of their cells.
-/

namespace PointsTo

namespace Solver

variable {s s₀ : Solver} {n : Nat}

/-- A solver without sets has nothing to pass on. -/
theorem Blank.steady (h : s.Blank) : s.Steady := by
  have hdone : ∀ n o, ¬s.store.Passed n o := by
    intro n o ho
    rw [Store.Passed, h.cell_eq] at ho
    exact NodeSet.not_mem_default o ho
  exact
    { store := h.wellFormed
      worklist := h.worklist
      orderly := h.orderly
      flow := ⟨fun n _ o _ ho => absurd ho (hdone n o), fun n o _ _ ho => absurd ho (hdone n o),
        fun n o _ _ ho => absurd ho (hdone n o)⟩
      sent_pts := fun n o ho => absurd ho (hdone n o)
      pending := fun n o ho _ => by
        rw [h.cell_eq] at ho
        exact absurd ho (NodeSet.not_mem_default o) }

theorem Reached.steady (hs₀ : s₀.Blank) (h : Reached s₀ s) (hphase : s.phase ≠ .aborted) :
    s.Steady := by
  cases h with
  | fresh => exact hs₀.steady
  | refused _ haborted => exact absurd haborted hphase
  | failed _ haborted => exact absurd haborted hphase
  | running hsound _ => exact hsound.steady
  | solved hsound _ _ => exact hsound.steady

/-- A class with pending work waits in the worklist, under whichever of its nodes. -/
theorem Steady.queued (h : s.Steady) (hne : (s.store.cell n).done ≠ (s.store.cell n).pts) :
    s.Queued n := by
  have hproper := h.store.proper n
  have hrest : ∃ o ∈ (s.store.cell n).pts, o ∉ (s.store.cell n).done := by
    by_contra hnone
    push Not at hnone
    exact hne (NodeSet.ext_of_ascending hproper.done_ascending hproper.pts_ascending
      fun o => ⟨hproper.done_subset o, hnone o⟩)
  obtain ⟨o, ho, hdone⟩ := hrest
  exact (h.pending n o ho hdone).resolve_right id

/-- The work that is not waiting in the worklist is done: of every representative, what is
in the `done` part of its set is in the set, and in the sets of the classes that its edges
lead to, and every load and store through it has joined the class of the field that it
reaches from such a pointee with the class of its other operand, or recorded an edge between
the two. If there is more in the set, the class waits. -/
theorem pending_work_kept {t : NodeTable} (ht : t.Reachable) (config : Config)
    (order : Schedule) (cs : List Constraint) {s : Solver}
    (hs : (new config order t cs).Attains s) (hphase : s.phase ≠ .aborted) :
    ∀ n, s.table.root n = n →
      (∀ o ∈ (s.cell n).done, o ∈ (s.cell n).pts) ∧
      ((s.cell n).done ≠ (s.cell n).pts → ∃ w ∈ s.worklist.queue, s.table.root w = n) ∧
      (∀ m ∈ (s.cell n).succs, s.table.root m ≠ n →
        ∀ o ∈ (s.cell n).done, o ∈ (s.cell (s.table.root m)).pts) ∧
      ∀ o ∈ (s.cell n).done,
        (∀ d k, (d, k) ∈ (s.cell n).loads →
          s.store.Linked (s.table.route s.config.fieldSensitive o k) d) ∧
        ∀ v k, (v, k) ∈ (s.cell n).stores →
          s.store.Linked v (s.table.route s.config.fieldSensitive o k) := by
  have hblank := blank_new ht.wellFormed config order cs
  have hsteady := (hs.reached hblank).steady hblank hphase
  intro n _
  refine ⟨(hsteady.store.proper n).done_subset, hsteady.queued, ?_, ?_⟩
  · exact fun m hm _ o ho => hsteady.flow.edges n m o hm ho
  · exact fun o ho => ⟨fun d k hr => hsteady.flow.loads n o (d, k) hr ho,
      fun v k hr => hsteady.flow.stores n o (v, k) hr ho⟩

/-- After two steps the load and the store of `Constraint.sample` have made an edge each for
the one pointee of `p`, and `q` has passed on the one of its two pointees that it had before. -/
theorem pending_work_kept_sample :
    let s := (new (Preset.config .thorough) .newest .sample Constraint.sample).afterAll
      [.step, .step]
    s.phase = .running ∧ (s.cell 0).loads = [(1, 1)] ∧ (s.cell 0).stores = [(1, 1)] ∧
      s.table.route true 2 1 = 3 ∧ s.store.Linked 3 1 ∧ s.store.Linked 1 3 ∧
      (s.cell 1).pts = ⟨[2, 3]⟩ ∧ (s.cell 1).done = ⟨[3]⟩ ∧ 3 ∈ (s.cell 3).pts ∧
      ∃ w ∈ s.worklist.queue, s.table.root w = 1 := by
  intro s
  have hrunning : s.phase = .running := by decide +kernel
  have hattains : (new (Preset.config .thorough) .newest .sample Constraint.sample).Attains s :=
    attains_afterAll (blank_new NodeTable.reachable_sample.wellFormed _ _ _) [.step, .step]
  have hkept := pending_work_kept NodeTable.reachable_sample _ _ _ hattains
    (by rw [hrunning]; decide)
  have hroute : s.table.route true 2 1 = 3 := by decide +kernel
  have hfields : s.config.fieldSensitive = true := by decide +kernel
  have hloads : (s.cell 0).loads = [(1, 1)] := by decide +kernel
  have hstores : (s.cell 0).stores = [(1, 1)] := by decide +kernel
  have hpts : (s.cell 1).pts = ⟨[2, 3]⟩ := by decide +kernel
  have hdone : (s.cell 1).done = ⟨[3]⟩ := by decide +kernel
  have hroot : s.table.root 3 = 3 := by decide +kernel
  obtain ⟨_, _, _, hrules⟩ := hkept 0 (by decide +kernel)
  obtain ⟨hload, hstore⟩ := hrules 2 (by decide +kernel)
  obtain ⟨_, hqueued, hedges, _⟩ := hkept 1 (by decide +kernel)
  rw [hfields] at hload hstore
  refine ⟨hrunning, hloads, hstores, hroute, ?_, ?_, hpts, hdone, ?_, ?_⟩
  · exact hroute ▸ hload 1 1 (by rw [hloads]; exact List.mem_cons_self)
  · exact hroute ▸ hstore 1 1 (by rw [hstores]; exact List.mem_cons_self)
  · have hedge := hedges 3 (by decide +kernel) (by rw [hroot]; decide) 3 (by decide +kernel)
    rwa [hroot] at hedge
  · exact hqueued (by rw [hpts, hdone]; decide)

end Solver

end PointsTo

import PointsTo.Proofs.Solver.Termination
import Mathlib.Algebra.BigOperators.Group.Finset.Basic

/-!
# The account of memberships

A solver does not add up the sizes of its sets. It keeps an account, to which it
adds what an insertion or a union reports as new, and from which a merge takes the
set that has been moved. The reports are exact because the sets are ascending, so
with every step on its store the account and the sum change alike (`Step.held_eq`),
and the statistics of a solved solver give the sum.
-/

namespace PointsTo

namespace Store

def setSize (σ : Store) (n : Nat) : Nat := (σ.cell n).pts.size

/-- The sum of the sizes of all sets. -/
def held (σ : Store) : Nat := ∑ n ∈ Finset.range σ.cells.size, σ.setSize n

section Sums

variable {M : Type} [AddCommMonoid M] {f g : Nat → M} {size a b : Nat}

/-- Where one summand is changed, the sum changes by as much. -/
theorem sum_range_add (ha : a < size) (h : ∀ m, m ≠ a → g m = f m) :
    (∑ m ∈ Finset.range size, g m) + f a = (∑ m ∈ Finset.range size, f m) + g a := by
  have hmem : a ∈ Finset.range size := Finset.mem_range.2 ha
  have hrest : ∑ m ∈ (Finset.range size).erase a, g m =
      ∑ m ∈ (Finset.range size).erase a, f m :=
    Finset.sum_congr rfl fun m hm => h m (Finset.ne_of_mem_erase hm)
  rw [← Finset.add_sum_erase _ g hmem, ← Finset.add_sum_erase _ f hmem, hrest,
    add_right_comm, add_comm (g a), ← add_right_comm]

/-- The same for two summands. -/
theorem sum_range_add_add (ha : a < size) (hb : b < size) (hne : a ≠ b)
    (h : ∀ m, m ≠ a → m ≠ b → g m = f m) :
    (∑ m ∈ Finset.range size, g m) + f a + f b =
      (∑ m ∈ Finset.range size, f m) + g a + g b := by
  have hfirst := sum_range_add (f := f) (g := Function.update f a (g a)) ha fun m hm =>
    Function.update_of_ne hm _ _
  have hsecond := sum_range_add (f := Function.update f a (g a)) (g := g) hb fun m hm => by
    by_cases hma : m = a
    · rw [hma, Function.update_self]
    · rw [Function.update_of_ne hma, h m hma hm]
  rw [Function.update_self] at hfirst
  rw [Function.update_of_ne hne.symm] at hsecond
  rw [add_right_comm, hsecond, add_right_comm, hfirst]

end Sums

section Held

variable {fieldSensitive : Bool} {cs : List Constraint} {σ τ : Store} {n rep gone : Nat}
  {c : Cell}

theorem setSize_le_held (σ : Store) (n : Nat) : σ.setSize n ≤ σ.held := by
  by_cases hn : n < σ.cells.size
  · have hsum := Finset.add_sum_erase _ σ.setSize (Finset.mem_range.2 hn)
    exact (Nat.le_add_right _ _).trans_eq hsum
  · rw [setSize, cell_of_size_le (Nat.le_of_not_lt hn)]
    exact Nat.zero_le σ.held

theorem held_congr (hsize : τ.cells.size = σ.cells.size)
    (hpts : ∀ n, (τ.cell n).pts = (σ.cell n).pts) : τ.held = σ.held := by
  rw [held, held, hsize]
  exact Finset.sum_congr rfl fun n _ => congrArg NodeSet.size (hpts n)

theorem Updates.held_add (h : Updates σ τ n c) (hn : n < σ.cells.size) :
    τ.held + σ.setSize n = σ.held + c.pts.size := by
  have hsum := sum_range_add (f := σ.setSize) (g := τ.setSize) hn fun m hm => by
    rw [setSize, setSize, h.cell_of_ne hm]
  have hcell : τ.setSize n = c.pts.size := by rw [setSize, h.cell_self]
  rw [held, held, h.cells_size, hsum, hcell]

theorem Updates.held_eq (h : Updates σ τ n c) (hpts : c.pts = (σ.cell n).pts) :
    τ.held = σ.held :=
  held_congr h.cells_size (h.field_eq Cell.pts hpts)

theorem held_modify_of_size_le {f : Cell → Cell} (hn : σ.cells.size ≤ n)
    (hcells : τ.cells = σ.cells.modify n f) : τ.held = σ.held := by
  refine held_congr (by rw [hcells, Array.size_modify]) fun m => ?_
  rw [cell_modify hcells, if_neg fun h => Nat.not_lt.2 hn h.2]

/-- Wherever a cell is changed, the sum grows by no more than its set. -/
theorem held_modify_le {f : Cell → Cell} {k : Nat} (htable : τ.table = σ.table)
    (hcells : τ.cells = σ.cells.modify n f)
    (h : (f (σ.cell n)).pts.size ≤ σ.setSize n + k) : τ.held ≤ σ.held + k := by
  by_cases hn : n < σ.cells.size
  · have hadd := (updates_of_lt hn f htable hcells).held_add hn
    omega
  · exact (held_modify_of_size_le (Nat.le_of_not_lt hn) hcells).trans_le (Nat.le_add_right _ _)

/-- Where a cell is cleared, the sum loses its set. -/
theorem held_clear (htable : τ.table = σ.table)
    (hcells : τ.cells = σ.cells.modify n fun _ => {}) : τ.held + σ.setSize n = σ.held := by
  by_cases hn : n < σ.cells.size
  · exact (updates_of_lt hn (fun _ => {}) htable hcells).held_add hn
  · have hempty : σ.setSize n = 0 := by
      rw [setSize, cell_of_size_le (Nat.le_of_not_lt hn)]
      rfl
    rw [hempty, Nat.add_zero, held_modify_of_size_le (Nat.le_of_not_lt hn) hcells]

/-- A merge moves the set of the cell that is absorbed, and what both sets held is then held
once. -/
theorem Moves.held_add (h : Moves σ τ rep gone) (hσ : σ.WellFormed) :
    τ.held + σ.setSize gone =
      σ.held + ((σ.cell rep).pts.union (σ.cell gone).pts).2 := by
  have hrep : τ.setSize rep =
      σ.setSize rep + ((σ.cell rep).pts.union (σ.cell gone).pts).2 := by
    rw [setSize, h.cell_eq, if_pos rfl]
    exact NodeSet.size_union _ _
  have hgone : τ.setSize gone = 0 := by
    rw [setSize, h.cell_eq, if_neg h.absorbs.ne.symm, if_pos rfl]
    rfl
  have hsum := sum_range_add_add (f := σ.setSize) (g := τ.setSize)
    (h.absorbs.rep_lt.trans_eq hσ.cells_size.symm) (h.absorbs.gone_lt.trans_eq hσ.cells_size.symm)
    h.absorbs.ne fun m hm hm' => by
      rw [setSize, setSize, h.cell_eq, if_neg hm, if_neg hm']
  rw [hrep, hgone] at hsum
  rw [held, held, h.cells_size]
  omega

/-- Every step keeps the account. -/
theorem Step.held_eq (h : Step fieldSensitive cs σ τ) (hσ : σ.WellFormed)
    (heq : σ.held = σ.membership) : τ.held = τ.membership := by
  cases h with
  | grow hn hunites _ _ hcell hcount =>
      have hadd := hcell.held_add (hn.lt.trans_eq hσ.cells_size.symm)
      have hsize := hunites.size
      rw [setSize] at hadd
      dsimp only at hadd hsize
      omega
  | link _ _ _ _ hcell hcount => rw [hcell.held_eq rfl, heq, hcount]
  | settle _ hcell hcount => rw [hcell.held_eq rfl, heq, hcount]
  | refresh _ hcell hcount => rw [hcell.held_eq rfl, heq, hcount]
  | @merge _ _ _ gone _ _ _ hmoves _ _ hcount =>
      have hadd := hmoves.held_add hσ
      have hle := σ.setSize_le_held gone
      rw [setSize] at hadd hle
      omega

theorem Steps.held_eq (h : Steps fieldSensitive cs σ τ) (hσ : σ.WellFormed)
    (heq : σ.held = σ.membership) : τ.held = τ.membership := by
  induction h with
  | refl => exact heq
  | tail hsteps hstep ih => exact hstep.held_eq (Steps.wellFormed hsteps hσ) ih

end Held

end Store

namespace Solver

section Membership

variable {s s₀ : Solver}

theorem Blank.held_eq (hs₀ : s₀.Blank) : s₀.store.held = 0 :=
  Finset.sum_eq_zero fun n _ => congrArg (·.pts.size) (hs₀.cell_eq n)

/-- The account of a solver is the sum of the sizes of its sets, aborted or not. -/
theorem Reached.held_eq (hs₀ : s₀.Blank) (hzero : s₀.membership = 0) (h : Reached s₀ s) :
    s.store.held = s.membership := by
  have hblank : s₀.store.held = s₀.store.membership := hs₀.held_eq.trans hzero.symm
  have hlive : Live s₀ s → s.store.held = s.store.membership := by
    intro h
    have henters := hs₀.enters h.valid
    refine h.steps.held_eq henters.wellFormed ?_
    obtain ⟨cells, recent, hframe⟩ := s₀.foldl_indexConstraint_frame s₀.constraints
    have hmembership : s₀.indexConstraints.store.membership = s₀.store.membership := by
      rw [indexConstraints, hframe]
      rfl
    rw [hmembership, ← hblank]
    refine Store.held_congr ?_ fun n => (henters.sets_eq n).1
    exact henters.wellFormed.cells_size.trans (henters.gains.size_eq.trans hs₀.cells_size.symm)
  cases h with
  | fresh => exact hblank
  | refused hstore _ =>
      have hmembership : s.membership = s₀.membership := congrArg Store.membership hstore
      rw [hstore, hmembership, hblank]
      rfl
  | failed h _ => exact hlive h
  | running h _ => exact hlive h.toLive
  | solved h _ _ => exact hlive h.toLive

/-- The statistics of a solved solver give the account. -/
theorem Attains.totalMemberships_eq (hs₀ : s₀.Blank) (h : s₀.Attains s)
    (hphase : s.phase = .solved) : s.stats.totalMemberships = s.membership := by
  cases h with
  | new => exact absurd (hs₀.phase.symm.trans hphase) Phase.noConfusion
  | @begin t ht =>
      have hends := begin_ends hs₀ (ht.reached hs₀)
      have hnot : (Action.state Solver.begin t).phase ≠ .solved :=
        Action.Ends.state (P := fun s : Solver => s.phase ≠ .solved)
          (hends.imp (fun _ _ hu => by simp [hu.2]) fun _ _ hu => by simp [hu.2])
      exact absurd hphase hnot
  | @advance t ht hrunning =>
      have hfinish : Action.Ends Solver.advance t
          (fun more u => more = false → u.stats.totalMemberships = u.membership)
          fun _ _ => True := by
        refine refuseAborted_ends (fun _ => trivial) fun _ => ?_
        refine Action.Ends.bind (Q := fun _ _ => True) (guarded_ends ?_) fun more u _ => ?_
        · unfold Action.Ends
          split <;> trivial
        · rw [Action.ends_ite]
          exact ⟨fun _ _ => rfl, fun hmore hfalse => absurd (by simp [hfalse]) hmore⟩
      have hends := (advance_ends hs₀ (ht.reached hs₀) hrunning).and hfinish
      have hsolved : ∀ u : Solver, u = Action.state Solver.advance t → u.phase = .solved →
          u.stats.totalMemberships = u.membership := by
        rintro _ rfl
        refine Action.Ends.state (P := fun u : Solver =>
          u.phase = .solved → u.stats.totalMemberships = u.membership) (hends.imp ?_ ?_)
        · rintro more u ⟨⟨_, hmore⟩, hu⟩ hphase
          cases more with
          | false => exact hu rfl
          | true =>
              rw [if_pos rfl, hphase] at hmore
              exact absurd hmore.1 Phase.noConfusion
        · rintro _ u ⟨⟨_, hu⟩, _⟩ hphase
          exact absurd (hu.symm.trans hphase) Phase.noConfusion
      exact hsolved _ rfl hphase

end Membership

end Solver

end PointsTo

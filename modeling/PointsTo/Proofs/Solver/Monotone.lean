import PointsTo.Proofs.Solver.Termination

/-!
# Sets and classes only grow

A call may fail half-way: when a bound is passed, a set may be half propagated,
and a cycle half collapsed. But whatever a call has done before that, it has done
by the steps of `Store.Step`, and none of them loses a pointee or takes a class
apart; the first call enters the constraints besides, and that only adds edges
and rules. So a call that fails keeps as much as one that succeeds.
-/

namespace PointsTo

namespace Store

/-- The store `τ` holds all that `σ` does, and no merge has been forgotten. -/
structure Gains (σ τ : Store) : Prop extends σ.Extends τ where
  merges_le : σ.table.merges ≤ τ.table.merges

section Gains

variable {fieldSensitive : Bool} {cs : List Constraint} {σ τ υ : Store}

theorem Gains.refl (σ : Store) : σ.Gains σ := ⟨.refl σ, Nat.le_refl _⟩

theorem Gains.trans (h : σ.Gains τ) (h' : τ.Gains υ) : σ.Gains υ :=
  ⟨h.toExtends.trans h'.toExtends, Nat.le_trans h.merges_le h'.merges_le⟩

theorem Step.merges_le (h : Step fieldSensitive cs σ τ) : σ.table.merges ≤ τ.table.merges := by
  cases h with
  | grow _ _ _ _ hcell _ => rw [hcell.table_eq]
  | link _ _ _ _ hcell _ => rw [hcell.table_eq]
  | settle _ hcell _ => rw [hcell.table_eq]
  | refresh _ hcell _ => rw [hcell.table_eq]
  | merge _ _ _ hmoves _ _ _ =>
      rw [hmoves.absorbs.merges_eq]
      exact Nat.le_succ _

theorem Steps.gains (h : Steps fieldSensitive cs σ τ) (hσ : σ.WellFormed) : σ.Gains τ := by
  refine ⟨h.extends hσ, ?_⟩
  induction h with
  | refl => exact Nat.le_refl _
  | tail _ hstep ih => exact Nat.le_trans ih hstep.merges_le

end Gains

end Store

namespace Solver

section Calls

variable {s s₀ t u : Solver}

theorem Runs.gains (h : s.Runs t) (hs : s.store.WellFormed) : s.store.Gains t.store :=
  h.steps.gains hs

theorem seed_gains (hs₀ : s₀.Blank) (h : Reached s₀ s) (hphase : s.phase ≠ .aborted) :
    Action.Ends seed s (fun _ t => s.store.Gains t.store) fun _ t => s.store.Gains t.store := by
  refine Action.Ends.bind ((prepare_live hs₀ h hphase).imp_error ?_) ?_
  · rintro _ t ⟨rfl, _⟩
    exact .refl _
  · rintro _ t ⟨⟨hlive, ht, _⟩, htable, hext⟩
    have hprepared : s.store.Gains t.store := ⟨hext, by rw [store, store, htable]⟩
    refine (seedRest_ends ht (hlive.range hs₀)).imp (fun _ u hu => ?_) fun _ u hu => ?_
    · exact hprepared.trans (hu.1.gains ht.store)
    · exact hprepared.trans (hu.gains ht.store)

theorem begin_gains (hs₀ : s₀.Blank) (h : Reached s₀ s) :
    Action.Ends begin s (fun _ t => s.store.Gains t.store) fun _ t => s.store.Gains t.store :=
  refuseAborted_ends (fun _ => .refl _) fun hphase => guarded_ends (seed_gains hs₀ h hphase)

theorem advance_gains (hs₀ : s₀.Blank) (h : Reached s₀ s) (hphase : s.phase = .running) :
    Action.Ends advance s (fun _ t => s.store.Gains t.store) fun _ t => s.store.Gains t.store := by
  have hsteady := (h.sound hs₀ (.inl hphase)).steady
  refine refuseAborted_ends (fun _ => .refl _) fun _ => ?_
  refine Action.Ends.bind (guarded_ends ((advanceOnce_ends hsteady).imp_error
    fun _ t ht => ht.gains hsteady.store)) fun more t ht => ?_
  have hgains := ht.1.gains hsteady.store
  rw [Action.ends_ite]
  exact ⟨fun _ => hgains, fun _ => hgains⟩

/-- What a call has done stays done, whether it succeeds or fails. -/
theorem Reached.gains_after (hs₀ : s₀.Blank) (h : Reached s₀ s) (call : Call) :
    s.store.Gains (s.after call).store :=
  h.after_keeps hs₀ (R := fun s t => s.store.Gains t.store) (fun _ => .refl _)
    (fun h h' => h.trans h') (begin_gains hs₀) (advance_gains hs₀) call

/-- Every single call, successful or failing, leaves every node its pointees and every
class its members, and takes no merge back. -/
theorem after_monotone {t : NodeTable} (ht : t.Reachable) (config : Config) (order : Schedule)
    (cs : List Constraint) (calls : List Call) (call : Call) :
    let s := (new config order t cs).afterAll calls
    (∀ n, ∀ o ∈ s.pointsTo n, o ∈ (s.after call).pointsTo n) ∧
    (∀ a b, s.table.root a = s.table.root b →
      (s.after call).table.root a = (s.after call).table.root b) ∧
    s.table.merges ≤ (s.after call).table.merges := by
  intro s
  have hblank := blank_new ht.wellFormed config order cs
  have hreached : (new config order t cs).Reached s :=
    reached_new ht.wellFormed config order cs calls
  have hgains := hreached.gains_after hblank call
  refine ⟨fun n o ho => ?_, hgains.classes, hgains.merges_le⟩
  rw [pointsTo_eq (hreached.wellFormed hblank)] at ho
  rw [pointsTo_eq ((hreached.after hblank call).wellFormed hblank)]
  exact hgains.pts n o ho

/-- The second call fails for want of memberships, but it has passed a pointee on before
that. -/
theorem after_monotone_sample :
    let s := (new ((Preset.config .thorough).set (.maxMembership (some 3))) .newest .sample
      Constraint.sample).afterAll [.step]
    s.phase = .running ∧ (s.after .solve).phase = .aborted ∧
      (s.pointsTo 1).elements = [3] ∧ ((s.after .solve).pointsTo 1).elements = [2, 3] ∧
      (∀ n, ∀ o ∈ s.pointsTo n, o ∈ (s.after .solve).pointsTo n) ∧
      s.table.merges ≤ (s.after .solve).table.merges := by
  intro s
  have hmonotone := after_monotone NodeTable.reachable_sample
    ((Preset.config .thorough).set (.maxMembership (some 3))) .newest Constraint.sample [.step]
    .solve
  exact ⟨by decide +kernel, by decide +kernel, by decide +kernel, by decide +kernel,
    hmonotone.1, hmonotone.2.2⟩

end Calls

end Solver

end PointsTo

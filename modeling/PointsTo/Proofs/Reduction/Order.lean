import PointsTo.Config.Preset
import PointsTo.Proofs.Components.Exact
import PointsTo.Proofs.Reduction.NormalForm

/-!
# Order of the input

In which order the constraints come in makes no difference to a reduction but to the
order of what it gives. Both passes look at the constraints through canonical data:
cycles are listed ascending and in the order of their smallest members, inputs are
sets, and closed classes are listed ascending. All of this depends only on how often
each constraint is there. So of two permutations the passes make the same merges in
the same order, and stop at the same one if the bound on merges is used up.

Nothing has to be known of the table for this. The constraints have to be valid,
because the error for one that is not says where it is in the list.
-/

namespace PointsTo

theorem NodeSet.ofList_perm {xs ys : List Nat} (h : xs.Perm ys) : ofList xs = ofList ys := by
  refine ext_of_ascending (ascending_ofList xs) (ascending_ofList ys) fun n => ?_
  rw [mem_ofList, mem_ofList, h.mem_iff]

theorem Digraph.successors_ofEdges_perm {es fs : List (Nat × Nat)} (h : es.Perm fs) (n : Nat) :
    ((ofEdges es).successors n).Perm ((ofEdges fs).successors n) := by
  unfold ofEdges
  exact (h.filter _).map _

theorem NodeTable.validate_perm {t : NodeTable} {fieldSensitive : Bool} {cs ds : List Constraint}
    (h : cs.Perm ds) (hvalid : t.validate fieldSensitive cs = .ok ()) :
    t.validate fieldSensitive ds = .ok () := by
  rw [validate_eq_ok_iff] at *
  exact fun c hc => hvalid c (h.mem_iff.2 hc)

namespace Reduction

section Order

variable {t : NodeTable} {cs ds : List Constraint}

theorem resolveAll_perm (h : cs.Perm ds) (t : NodeTable) :
    (resolveAll t cs).Perm (resolveAll t ds) :=
  h.map _

/-! ## What the passes look at -/

theorem copyCycles_perm (h : cs.Perm ds) : copyCycles cs = copyCycles ds := by
  have hedges : (copyEdges cs).Perm (copyEdges ds) := (h.filter _).map _
  have hcomponents := Digraph.components_congr
    (Digraph.fathoms_ofEdges (copyEdges ds)
      (NodeSet.ofList ((copyEdges ds).map (·.1))).elements)
    (Digraph.fathoms_ofEdges (copyEdges cs)
      (NodeSet.ofList ((copyEdges cs).map (·.1))).elements)
    (Digraph.successors_ofEdges_perm hedges) fun n => by
      rw [NodeSet.ofList_perm (hedges.map _)]
  exact congrArg Components.members hcomponents

theorem inputsOf_perm (h : cs.Perm ds) : inputsOf cs = inputsOf ds := by
  funext n
  unfold inputsOf
  rw [NodeSet.ofList_perm ((h.filter _).map _), NodeSet.ofList_perm ((h.filter _).map _)]

theorem closedClasses_perm (h : cs.Perm ds) (t : NodeTable) :
    closedClasses t cs = closedClasses t ds := by
  have hwritten := fun n => ((h.filter (·.kind == .load)).map (·.dest)).contains_eq (a := n)
  have hfed := NodeSet.ofList_perm ((h.filter (!·.isComplex)).map (·.dest))
  simp only [closedClasses, hwritten, hfed]

theorem equalGroups_perm (h : cs.Perm ds) (t : NodeTable) :
    equalGroups t cs = equalGroups t ds := by
  rw [equalGroups, equalGroups, closedClasses_perm h, inputsOf_perm h]

/-! ## The passes -/

theorem collapse_agree (h : cs.Perm ds) :
    Action.Agree (fun r q => r.1.Perm q.1 ∧ r.2 = q.2) (collapse cs) (collapse ds) t := by
  have hcycles : collapseCycles cs = collapseCycles ds := by
    rw [collapseCycles, collapseCycles, copyCycles_perm h]
  rw [collapse, collapse, hcycles]
  refine (Action.Agree.refl _ t).bind ?_
  rintro merges _ rfl u
  split
  · exact Action.agree_pure ⟨h, rfl⟩
  · refine (Action.Agree.refl get u).bind ?_
    rintro v _ rfl _
    exact Action.agree_pure ⟨resolveAll_perm h v, rfl⟩

theorem equalize_agree (h : cs.Perm ds) (fuel : Nat) :
    Action.Agree (fun r q => r.1.Perm q.1 ∧ r.2 = q.2) (equalize fuel cs) (equalize fuel ds)
      t := by
  induction fuel generalizing cs ds t with
  | zero => exact Action.agree_pure ⟨h, rfl⟩
  | succ fuel ih =>
      have hround : mergeEqual cs = mergeEqual ds := by
        simp only [mergeEqual, equalGroups_perm h]
      rw [equalize, equalize, hround]
      refine (Action.Agree.refl _ t).bind ?_
      rintro merged _ rfl u
      split
      · exact Action.agree_pure ⟨h, rfl⟩
      · refine (Action.Agree.refl get u).bind ?_
        rintro v _ rfl w
        refine (ih (resolveAll_perm h v)).bind ?_
        rintro ⟨working, counts⟩ ⟨working', _⟩ ⟨hworking, rfl⟩ _
        exact Action.agree_pure ⟨hworking, rfl⟩

/-! ## What is given -/

theorem kept_tidy_perm (h : cs.Perm ds) : (tidy cs).kept.Perm (tidy ds).kept := by
  rw [kept_tidy, kept_tidy]
  refine (List.perm_ext_iff_of_nodup (nodup_eraseDups _) (nodup_eraseDups _)).2 fun c => ?_
  rw [List.mem_eraseDups, List.mem_eraseDups, (h.filter _).mem_iff]

theorem selfCopies_tidy_perm (h : cs.Perm ds) : (tidy cs).selfCopies = (tidy ds).selfCopies := by
  rw [selfCopies_tidy, selfCopies_tidy, (h.filter _).length_eq]

theorem duplicates_tidy_perm (h : cs.Perm ds) : (tidy cs).duplicates = (tidy ds).duplicates := by
  have hcs := tidy_accounts cs
  have hds := tidy_accounts ds
  rw [← h.length_eq, ← (kept_tidy_perm h).length_eq, ← selfCopies_tidy_perm h] at hds
  omega

theorem reduce_agree {config : Config} (h : cs.Perm ds)
    (hvalid : t.validate config.fieldSensitive cs = .ok ()) :
    Action.Agree (fun r q => r.1.Perm q.1 ∧ r.2 = q.2) (reduce config cs) (reduce config ds)
      t := by
  have hstart : Action.Agree (fun r q => r = t ∧ q = t)
      (get : Action NodeTable NodeTable) get t := ⟨t, rfl, rfl, rfl⟩
  refine hstart.bind ?_
  rintro _ table ⟨rfl, rfl⟩ u
  rw [hvalid, NodeTable.validate_perm h hvalid]
  refine (Action.Agree.refl _ u).bind fun _ _ _ v => ?_
  refine .ite_bind (fun _ => collapse_agree (resolveAll_perm h table))
    (fun _ => Action.agree_pure ⟨resolveAll_perm h table, rfl⟩) ?_
  rintro ⟨working, cycleMerges⟩ ⟨working', _⟩ ⟨hworking, rfl⟩ w
  refine .ite_bind (fun _ => equalize_agree hworking _)
    (fun _ => Action.agree_pure ⟨hworking, rfl⟩) ?_
  rintro ⟨working, counts⟩ ⟨working', _⟩ ⟨hworking, rfl⟩ _
  refine Action.agree_pure ⟨kept_tidy_perm hworking, ?_⟩
  rw [h.length_eq, (kept_tidy_perm hworking).length_eq, selfCopies_tidy_perm hworking,
    duplicates_tidy_perm hworking]

/-- Reductions of a list of valid constraints and of a permutation of it either both succeed
or both fail, with the same error. They leave the same classes, having made as many merges.
If they succeed, they give the same constraints, up to their order, and the same statistics. -/
theorem reduce_perm {config : Config} (h : cs.Perm ds)
    (hvalid : t.validate config.fieldSensitive cs = .ok ()) :
    (∃ r q u v, reduce config cs t = .ok r u ∧ reduce config ds t = .ok q v ∧
      r.1.Perm q.1 ∧ r.2 = q.2 ∧ (∀ n, u.root n = v.root n) ∧ u.merges = v.merges) ∨
    ∃ e u v, reduce config cs t = .error e u ∧ reduce config ds t = .error e v ∧
      (∀ n, u.root n = v.root n) ∧ u.merges = v.merges := by
  rcases (reduce_agree h hvalid).outcomes with ⟨r, q, u, hr, hq, hperm, hstats⟩ | ⟨e, u, he, he'⟩
  · exact .inl ⟨r, q, u, u, hr, hq, hperm, hstats, fun _ => rfl, rfl⟩
  · exact .inr ⟨e, u, u, he, he', fun _ => rfl, rfl⟩

/-- Listed backwards, the constraints give the same two in the other order. -/
theorem reduce_perm_redundant :
    NodeTable.sample.validate true Constraint.redundant = .ok () ∧
    ∃ r q u v, reduce (Preset.config .balanced) Constraint.redundant .sample = .ok r u ∧
      reduce (Preset.config .balanced) Constraint.redundant.reverse .sample = .ok q v ∧
      r.1 = [.addrOf 0 2, .store 0 0 1] ∧ q.1 = [.store 0 0 1, .addrOf 0 2] ∧
      r.1.Perm q.1 ∧ r.2 = q.2 ∧ (∀ n, u.root n = v.root n) ∧ u.merges = v.merges := by
  have hvalid : NodeTable.sample.validate (Preset.config .balanced).fieldSensitive
      Constraint.redundant = .ok () := by decide +kernel
  have hgiven : ∃ r u, reduce (Preset.config .balanced) Constraint.redundant .sample = .ok r u ∧
      r.1 = [.addrOf 0 2, .store 0 0 1] := Action.Ends.exists_ok (by decide +kernel)
  have hreversed : ∃ q v, reduce (Preset.config .balanced) Constraint.redundant.reverse .sample =
      .ok q v ∧ q.1 = [.store 0 0 1, .addrOf 0 2] := Action.Ends.exists_ok (by decide +kernel)
  obtain ⟨r, u, hr, hds⟩ := hgiven
  obtain ⟨q, v, hq, hds'⟩ := hreversed
  rcases reduce_perm (List.reverse_perm _).symm hvalid with
    ⟨r', q', u', v', hr', hq', hsame⟩ | ⟨e, u', v', he, _⟩
  · rw [hr] at hr'
    rw [hq] at hq'
    cases hr'
    cases hq'
    exact ⟨hvalid, r, q, u, v, hr, hq, hds, hds', hsame⟩
  · rw [hr] at he
    cases he

end Order

end Reduction

end PointsTo

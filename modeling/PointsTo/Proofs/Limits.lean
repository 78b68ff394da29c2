import PointsTo.Reduction
import PointsTo.Proofs.Action
import PointsTo.Proofs.NodeTable.Groups

/-!
# Within the limits

A merge is counted before the next one is checked against the bound, and neither
changes how many nodes there are. So a table that is within its bounds stays so
whatever is merged in it (`MergesTo`), and a reduction does nothing else to its
table, whether it succeeds or not.
-/

namespace PointsTo

/-- So many nodes, merges and memberships are within the bounds that are set. -/
structure Limits.Admits (l : Limits) (nodes merges memberships : Nat) : Prop where
  nodes_le : ∀ k ∈ l.maxNodes, nodes ≤ k
  merges_le : ∀ k ∈ l.maxMerges, merges ≤ k
  memberships_le : ∀ k ∈ l.maxMembership, memberships ≤ k

namespace NodeTable

/-- The table `u` comes of `t` by merging classes, whichever they are. -/
inductive MergesTo (t : NodeTable) : NodeTable → Prop
  | refl : MergesTo t t
  | merge {a b rep : Nat} {u v : NodeTable} (h : MergesTo t u)
      (hmerge : u.merge a b = .ok (rep, v)) : MergesTo t v

section MergesTo

variable {t u : NodeTable} {limits : Limits} {a b rep : Nat}

theorem mergesUsedUp?_eq_none_iff : t.mergesUsedUp? = none ↔ ∀ k ∈ t.maxMerges, t.merges < k := by
  unfold mergesUsedUp?
  cases t.maxMerges with
  | none => simp
  | some k => simp

/-- A merge that joins two classes is counted, and there was room for it. -/
theorem merges_of_merge_eq_ok (h : t.merge a b = .ok (rep, u)) :
    u = t ∨ t.Merges 1 u ∧ ∀ k ∈ t.maxMerges, t.merges < k := by
  rcases merge_eq_ok h with ⟨_, _, rfl⟩ | ⟨_, _, hroom, hjoin⟩
  · exact .inl rfl
  · cases hjoin
    exact .inr ⟨⟨rfl, rfl, rfl, rfl, rfl⟩, mergesUsedUp?_eq_none_iff.1 hroom⟩

theorem MergesTo.merges (h : t.MergesTo u) : ∃ count, t.Merges count u := by
  induction h with
  | refl => exact ⟨0, .refl t⟩
  | merge _ hmerge ih =>
      obtain ⟨count, hcount⟩ := ih
      rcases merges_of_merge_eq_ok hmerge with rfl | ⟨hone, _⟩
      · exact ⟨count, hcount⟩
      · exact ⟨count + 1, hcount.trans hone⟩

/-- Merges stop at the bound, and there are none if it lies below those made before. -/
theorem MergesTo.merges_le_max {k : Nat} (h : t.MergesTo u) (hk : k ∈ t.maxMerges) :
    u.merges ≤ max k t.merges := by
  induction h with
  | refl => exact Nat.le_max_right k t.merges
  | @merge _ _ _ v _ h hmerge ih =>
      rcases merges_of_merge_eq_ok hmerge with rfl | ⟨hone, hroom⟩
      · exact ih
      · obtain ⟨_, hmerges⟩ := h.merges
        rw [hone.merges_eq]
        exact Nat.le_trans (hroom k (hmerges.maxMerges_eq ▸ hk)) (Nat.le_max_left k t.merges)

theorem MergesTo.merges_le {k : Nat} (h : t.MergesTo u) (hk : k ∈ t.maxMerges)
    (hle : t.merges ≤ k) : u.merges ≤ k :=
  Nat.max_eq_left hle ▸ h.merges_le_max hk

/-- A table that is within its bounds stays so whatever is merged. -/
theorem MergesTo.admits (h : t.MergesTo u) (hmaxMerges : t.maxMerges = limits.maxMerges)
    (ht : limits.Admits t.size t.merges 0) : limits.Admits u.size u.merges 0 where
  nodes_le := by
    obtain ⟨_, hmerges⟩ := h.merges
    rw [size_congr hmerges.nodes_eq]
    exact ht.nodes_le
  merges_le k hk := h.merges_le (hmaxMerges ▸ hk) (ht.merges_le k hk)
  memberships_le := ht.memberships_le

end MergesTo

end NodeTable

namespace Reduction

section Reduce

open PointsTo.Action

variable {t : NodeTable}

theorem maintains_merge (a b : Nat) : Maintains t.MergesTo t.MergesTo (merge a b) := by
  intro u hu
  exact ends_ofStep.2 ⟨fun _ _ hmerge => .merge hu hmerge, fun _ _ => hu⟩

theorem maintains_mergeGroup (g : List Nat) :
    Maintains t.MergesTo t.MergesTo (mergeGroup g) := by
  cases g with
  | nil => exact maintains_pure 0
  | cons rep others =>
      exact (maintains_foldlM maintains_merge others rep).bind fun _ => maintains_pure _

theorem maintains_mergeGroups (groups : List (List Nat)) :
    Maintains t.MergesTo t.MergesTo (mergeGroups groups) :=
  maintains_foldlM (fun _ group => (maintains_mergeGroup group).bind fun _ => maintains_pure _)
    groups 0

theorem maintains_collapseCycles (cs : List Constraint) :
    Maintains t.MergesTo t.MergesTo (collapseCycles cs) := by
  refine maintains_foldlM (fun count cycle => ?_) _ 0
  exact maintains_get.bind fun _ => (maintains_mergeGroups _).bind fun _ => maintains_pure _

theorem maintains_equalize (fuel : Nat) (cs : List Constraint) :
    Maintains t.MergesTo t.MergesTo (equalize fuel cs) := by
  induction fuel generalizing cs with
  | zero => exact maintains_pure _
  | succ fuel ih =>
      refine (maintains_get.bind fun _ => maintains_mergeGroups _).bind fun merged => ?_
      refine .ite (maintains_pure _) (maintains_get.bind fun u => ?_)
      exact (ih (resolveAll u cs)).bind fun _ => maintains_pure _

theorem maintains_collapse (cs : List Constraint) :
    Maintains t.MergesTo t.MergesTo (collapse cs) := by
  refine (maintains_collapseCycles cs).bind fun merges => ?_
  exact .ite (maintains_pure _) (maintains_get.bind fun _ => maintains_pure _)

/-- A reduction changes its table by merges only. -/
theorem maintains_reduce (config : Config) (cs : List Constraint) :
    Maintains t.MergesTo t.MergesTo (reduce config cs) := by
  refine maintains_get.bind fun u => (maintains_ofExcept fun _ hs => hs).bind fun _ => ?_
  refine .ite_bind (.ite (maintains_collapse _) (maintains_pure _)) fun _ => ?_
  refine .ite_bind (.ite (maintains_equalize _ _) (maintains_pure _)) fun _ => ?_
  exact maintains_pure _

end Reduce

end Reduction

end PointsTo

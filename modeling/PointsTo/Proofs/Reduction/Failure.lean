import PointsTo.Proofs.Grouping
import PointsTo.Proofs.NodeTable.Groups
import PointsTo.Proofs.Reduction
import Mathlib.Data.List.Flatten

/-!
# How a reduction can fail

A reduction that has accepted its constraints fails only when the bound on
merges is used up. Both passes merge groups of resolved operands, which are
roots. Those of copy cycles are split so that no classes clash, and closed
classes hold no special node at all, since nothing can point to them. That the
groups of one round have no member in common is a matter of the search for
cycles in the one pass, and in the other of the keys by which closed classes are
grouped.

What comes out is well formed for the joined classes: a resolved constraint has
no flaw if the constraint had none, for neither the nodes nor the largest object
change.
-/

namespace PointsTo

/-- Flaws depend on the nodes and the largest object of a table. -/
theorem Constraint.flaw?_congr {t u : NodeTable} (hnodes : u.nodes = t.nodes)
    (hcount : u.maxFieldCount = t.maxFieldCount) (fieldSensitive : Bool) (c : Constraint) :
    c.flaw? u fieldSensitive = c.flaw? t fieldSensitive := by
  rw [flaw?, flaw?, NodeTable.size_congr hnodes, NodeTable.isPointee_congr hnodes, hcount]

namespace Reduction

section Resolve

variable {t u : NodeTable} {fieldSensitive : Bool} {c : Constraint}

/-- A resolved constraint is as well formed as it was before. -/
theorem flaw?_resolve (hu : u.Coherent) (hnodes : u.nodes = t.nodes)
    (h : c.flaw? t fieldSensitive = none) : (resolve u c).flaw? t fieldSensitive = none := by
  obtain ⟨hdest, hsrc⟩ := Constraint.lt_size_of_flaw? h
  have hroot : ∀ n, n < t.size → u.root n < t.size := by
    rw [← NodeTable.size_congr hnodes]
    exact fun _ => hu.root_lt
  have hdest' := hroot _ hdest
  have hsrc' := hroot _ hsrc
  unfold Constraint.flaw? resolve at *
  cases hkind : c.kind <;> simp_all [Nat.not_le.2]

/-- Merging makes no constraint flawed. -/
theorem flawless_of_merges {cs : List Constraint} {count : Nat} (h : t.Merges count u)
    (hcs : ∀ c ∈ cs, c.flaw? t fieldSensitive = none) :
    ∀ c ∈ cs, c.flaw? u fieldSensitive = none := fun c hc => by
  rw [Constraint.flaw?_congr h.nodes_eq h.maxFieldCount_eq]
  exact hcs c hc

/-- Only constraints whose operands are led to roots are looked at for what can be
merged. -/
structure Led (t : NodeTable) (ds : List Constraint) : Prop where
  dest (c : Constraint) : c ∈ ds → t.root c.dest = c.dest ∧ c.dest < t.size
  src (c : Constraint) : c ∈ ds → c.kind ≠ .addrOf → t.root c.src = c.src ∧ c.src < t.size

theorem led_of_flawless {cs : List Constraint} (hu : u.Coherent) (hnodes : u.nodes = t.nodes)
    (hcs : ∀ c ∈ cs, c.flaw? t fieldSensitive = none) : Led u (resolveAll u cs) where
  dest _ hc := ⟨(root_of_mem_resolveAll hu hc).1, NodeTable.size_congr hnodes ▸
    (lt_size_of_mem_resolveAll hu hnodes hcs hc).1⟩
  src _ hc hkind := ⟨(root_of_mem_resolveAll hu hc).2 hkind, NodeTable.size_congr hnodes ▸
    (lt_size_of_mem_resolveAll hu hnodes hcs hc).2⟩

end Resolve

/-! ## Merging -/

section Merging

variable {t u : NodeTable} {fieldSensitive : Bool} {cs ds : List Constraint}
  {g : List Nat} {groups later : List (List Nat)}

theorem joins_merge : NodeTable.Joins id merge := by
  intro a b t
  exact Action.ends_ofStep.2 ⟨fun _ _ hmerge => hmerge, fun _ hmerge => hmerge⟩

theorem mergeGroup_merges (h : t.Joinable (g :: groups) later) :
    Action.Ends (mergeGroup g) t (fun n u => u.Joinable groups later ∧ t.Merges n u)
      (fun e _ => t.RunsOut e) := by
  cases g with
  | nil => exact ⟨h.tail, .refl t⟩
  | cons first others =>
      exact Action.Ends.bind (joins_merge.foldlM (s := t) h) fun _ _ hu => hu

theorem mergeGroups_merges (h : t.Joinable groups later) :
    Action.Ends (mergeGroups groups) t (fun n u => u.Joinable [] later ∧ t.Merges n u)
      (fun e _ => t.RunsOut e) :=
  NodeTable.foldlM_merges id (fun groups t => t.Joinable groups later)
    (fun _ _ _ => mergeGroup_merges) h

/-- The members of copy cycles are sources of copies. -/
theorem copyCycles_joinable (ht : t.Coherent) (hds : Led t ds) :
    t.Joinable [] (copyCycles ds) where
  coherent := ht
  apart := by
    refine ⟨(Digraph.components_connected _ _).1, fun m hm => ?_⟩
    obtain ⟨cycle, hcycle, hm⟩ := List.mem_flatten.1 hm
    obtain ⟨b, c, hc, hkind, rfl, rfl⟩ := exists_copiesTo_of_mem_copyCycles hcycle hm
    exact hds.src c hc (by simp [hkind])
  clashFree _ hg := absurd hg List.not_mem_nil

theorem collapseCycles_merges (ht : t.Coherent) (hds : Led t ds) :
    Action.Ends (collapseCycles ds) t (fun n u => u.Coherent ∧ t.Merges n u)
      (fun e _ => t.RunsOut e) := by
  refine (NodeTable.foldlM_merges id (fun cycles t => t.Joinable [] cycles) ?_
    (copyCycles_joinable ht hds)).imp_ok fun _ _ hu => hu.imp_left NodeTable.Joinable.coherent
  exact fun _ _ _ ht => mergeGroups_merges ht.split

theorem nodup_closedClasses (t : NodeTable) (ds : List Constraint) :
    (closedClasses t ds).Nodup :=
  (NodeSet.ascending_ofList _).nodup.filter _

/-- Each closed class has one key, so it is in one group. -/
theorem nodup_equalGroups : (equalGroups t ds).flatten.Nodup := by
  rw [equalGroups_eq]
  refine List.Sublist.nodup (List.Sublist.flatten List.filter_sublist) ?_
  exact (flatten_groupsBy_perm (inputsOf ds) (nodup_closedClasses t ds)).nodup_iff.2
    (nodup_closedClasses t ds)

theorem equalGroups_joinable (ht : t.Coherent) (hds : Led t ds) :
    t.Joinable (equalGroups t ds) [] := by
  have hclosed : ∀ g ∈ equalGroups t ds, ∀ n ∈ g,
      (t.root n = n ∧ n < t.size) ∧ t.hasPointee n = false := by
    intro g hg n hn
    obtain ⟨_, hmem⟩ := exists_inputs_of_mem_equalGroups hg
    obtain ⟨⟨c, hc, _, rfl⟩, _, hpointee⟩ := mem_closedClasses.1 (hmem n hn).1
    exact ⟨hds.dest c hc, hpointee⟩
  refine ⟨ht, ⟨?_, fun n hn => ?_⟩, fun g hg => ?_⟩
  · rw [List.append_nil]
    exact nodup_equalGroups
  · rw [List.append_nil] at hn
    obtain ⟨g, hg, hn⟩ := List.mem_flatten.1 hn
    exact (hclosed g hg n hn).1
  · exact ht.clashFree fun n hn => ⟨(hclosed g hg n hn).1.2, (hclosed g hg n hn).2⟩

theorem mergeEqual_merges (ht : t.WellFormed) (hds : Led t ds) :
    Action.Ends (mergeEqual ds) t (fun n u => (Evolves t u ∧ (n = 0 → u = t)) ∧ t.Merges n u)
      (fun e _ => t.RunsOut e) := by
  have hevolves := mergeEqual_evolves ht ds fun c hc => (hds.dest c hc).2
  have hmerges : Action.Ends (mergeEqual ds) t (fun n u => t.Merges n u)
      fun e _ => t.RunsOut e := by
    rw [mergeEqual, Action.ends_bind, Action.ends_get]
    exact (mergeGroups_merges (equalGroups_joinable ht.toCoherent hds)).imp_ok
      fun _ _ hu => hu.2
  exact (hevolves.and hmerges).imp_error fun _ _ he => he.2

/-- A reduction rejects its constraints or runs out of merges. If it does neither, it
has counted its merges, and what it gives has no flaw. -/
theorem reduce_merges (ht : t.WellFormed) (config : Config) (cs : List Constraint) :
    Action.Ends (reduce config cs) t
      (fun r u => t.Merges (r.2.cycleMerges + r.2.equivalenceMerges) u ∧
        (∀ c ∈ cs, c.flaw? t config.fieldSensitive = none) ∧
        ∀ c ∈ r.1, c.flaw? u config.fieldSensitive = none)
      (fun e _ => t.validate config.fieldSensitive cs = .error e ∨ t.RunsOut e) := by
  refine (reduce_induct (I := fun n u => t.Merges n u) ht (fun e he => .inl he)
    (fun _ => .refl t) (fun hcs _ => ?_) fun hcs n u htu hu => ?_).imp_ok fun r u hu => ?_
  · have hled := led_of_flawless ht.toCoherent rfl hcs
    exact (collapseCycles_merges ht.toCoherent hled).imp (fun _ _ hu => hu.2) fun _ _ => .inr
  · have hled := led_of_flawless htu.wellFormed.toCoherent htu.coarsens.nodes_eq hcs
    exact (mergeEqual_merges htu.wellFormed hled).imp (fun _ _ hv => hu.trans hv.2)
      fun _ _ he => .inr (hu.runsOut he)
  · obtain ⟨hmerges, htu, hcs, hnormal⟩ := hu
    refine ⟨hmerges, hcs, fun c hc => ?_⟩
    rw [hnormal.output_eq] at hc
    obtain ⟨d, hd, rfl⟩ := List.mem_map.1 (mem_kept_tidy.1 hc).1
    rw [Constraint.flaw?_congr hmerges.nodes_eq hmerges.maxFieldCount_eq]
    exact flaw?_resolve htu.wellFormed.toCoherent hmerges.nodes_eq (hcs d hd)

/-- Invalid constraints are rejected before anything else is done. -/
theorem reduce_refuses {config : Config} {e : AnalysisError}
    (h : t.validate config.fieldSensitive cs = .error e) : reduce config cs t = .error e t := by
  have hends : Action.Ends (reduce config cs) t (fun _ _ => False)
      (fun e' u => e' = e ∧ u = t) := by
    rw [reduce, Action.ends_bind, Action.ends_get, Action.ends_bind, h,
      Action.ends_ofExcept_error]
    exact ⟨rfl, rfl⟩
  obtain ⟨e', u, hreduce, rfl, rfl⟩ := hends.exists_error
  exact hreduce

end Merging

end Reduction

end PointsTo

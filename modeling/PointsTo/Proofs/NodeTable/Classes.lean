import PointsTo.Proofs.NodeTable
import PointsTo.Proofs.DisjointSets.Find
import Mathlib.Data.Finset.Insert

/-!
# How many classes there are

A merge takes its place from exactly one representative, and a new node is one. So
the merges of a table are the nodes that have lost their place, whatever order nodes
were created and classes were merged in.
-/

namespace PointsTo

namespace NodeTable

/-- The nodes that have lost their place to a representative. -/
def merged (t : NodeTable) : Finset Nat := (Finset.range t.size).filter fun n => t.root n ≠ n

section Merged

variable {t u : NodeTable} {rep gone n : Nat}

theorem mem_merged : n ∈ t.merged ↔ n < t.size ∧ t.root n ≠ n := by
  rw [merged, Finset.mem_filter, Finset.mem_range]

theorem Coherent.merged_append (ht : t.Coherent) (kind : NodeKind) :
    (t.append kind).merged = t.merged := by
  have hroot : ∀ n, (t.append kind).root n = t.root n := ht.sets.root_push
  ext n
  rw [mem_merged, mem_merged, hroot, size_append]
  refine ⟨fun ⟨hlt, hne⟩ => ⟨?_, hne⟩, fun ⟨hlt, hne⟩ => ⟨Nat.lt_succ_of_lt hlt, hne⟩⟩
  by_contra hge
  exact hne (ht.root_of_size_le (Nat.le_of_not_lt hge))

theorem Absorbs.gone_notMem_merged (h : Absorbs t u rep gone) : gone ∉ t.merged := fun hmem =>
  (mem_merged.1 hmem).2 h.gone_root

theorem Absorbs.merged_eq (h : Absorbs t u rep gone) : u.merged = insert gone t.merged := by
  ext n
  rw [Finset.mem_insert, mem_merged, mem_merged, size_congr h.nodes_eq, ne_eq, h.root_eq_iff]
  constructor
  · rintro ⟨hlt, hroot⟩
    by_cases hn : n = gone
    · exact .inl hn
    · exact .inr ⟨hlt, fun hself => hroot ⟨hself, hn⟩⟩
  · rintro (rfl | ⟨hlt, hne⟩)
    · exact ⟨h.gone_lt, fun hself => hself.2 rfl⟩
    · exact ⟨hlt, fun hself => hne hself.1⟩

/-- The merges of a table are counted by the nodes that have lost their place. -/
theorem Reachable.card_merged (ht : t.Reachable) : t.merged.card = t.merges := by
  refine ht.of_kept (P := fun t => t.merged.card = t.merges) (fun _ _ => rfl) (fun _ _ h => h)
    (fun _ _ h => h) (fun t kind ht h => ?_) fun t u a b rep ht ha hb hmerge h => ?_
  · rw [ht.merged_append]
    exact h
  · rcases ht.merge_cases ha hb hmerge with ⟨_, _, rfl⟩ | ⟨_, gone, habs, _⟩
    · exact h
    · rw [habs.merged_eq, Finset.card_insert_of_notMem habs.gone_notMem_merged, habs.merges_eq, h]

/-- Every merge leaves one class less than there are nodes. -/
theorem Reachable.card_roots_add_merges (ht : t.Reachable) :
    ((Finset.range t.size).filter fun n => t.root n = n).card + t.merges = t.size := by
  rw [← ht.card_merged, merged, Finset.card_filter_add_card_filter_not, Finset.card_range]

/-- What is frozen are the representatives that look-ups give. -/
theorem Reachable.roots_eq (ht : t.Reachable) : t.roots = t.sets.representatives.1 := by
  have hsize := ht.wellFormed.sets_size
  rw [ht.wellFormed.sets.representatives_eq (hsize.trans_le ht.size_le), hsize]
  rfl

end Merged

end NodeTable

end PointsTo

import PointsTo.Proofs.Reduction.Failure
import PointsTo.Proofs.Reduction.Merging
import Mathlib.Data.Finset.Card

/-!
# How far a cycle collapses

The groups of a cycle are read off the classes as they are before the first merge.
They stay right while they are merged: what the members of a group become still lacks
the kind of special node that the group lacks, and the other groups are not touched.
So without a bound on merges no merge is refused. In the end two members are apart
only if their classes hold different kinds, and there are no more than two kinds. So
there is one class for each kind that the cycle had, and one if it had none.
-/

namespace PointsTo

namespace NodeTable

/-- The kinds of special nodes that the classes of the members hold. -/
def kinds (t : NodeTable) (members : List Nat) : Finset Special :=
  (members.filterMap t.special?).toFinset

/-- The classes of the members, each by its root. -/
def classesOf (t : NodeTable) (members : List Nat) : Finset Nat := (members.map t.root).toFinset

/-! ## The groups of a cycle -/

section Groups

variable {t : NodeTable} {members g : List Nat} {a b : Nat}

theorem pairwise_ascending (ns : List Nat) : (ascending ns).Pairwise (· ≤ ·) := by
  have hsorted : (ascending ns).Pairwise fun a b => decide (a ≤ b) = true := by
    refine pairwise_sortBy (fun a b => ?_) (fun a b c hab hbc => ?_) ns
    · simp only [decide_eq_true_eq]
      exact Nat.le_total a b
    · rw [decide_eq_true_eq] at *
      exact Nat.le_trans hab hbc
  exact hsorted.imp fun hab => of_decide_eq_true hab

/-- No member is in two groups, or twice in one. -/
theorem nodup_mergeableGroups (hnodup : members.Nodup) :
    (∀ g ∈ t.mergeableGroups members, g.Nodup) ∧
      (t.mergeableGroups members).Pairwise List.Disjoint := by
  obtain ⟨kept, hperm, hsublist⟩ := t.mergeableGroups_subperm members
  exact List.nodup_flatten.1 (hperm.nodup_iff.1 (hnodup.sublist hsublist))

theorem pairwise_lt_of_mem_mergeableGroups (hnodup : members.Nodup)
    (hg : g ∈ t.mergeableGroups members) : g.Pairwise (· < ·) := by
  have hdistinct := (nodup_mergeableGroups hnodup).1 g hg
  obtain ⟨piece, _, _, rfl⟩ := mem_mergeableGroups.1 hg
  exact ((pairwise_ascending piece).and hdistinct).imp fun hab => Nat.lt_of_le_of_ne hab.1 hab.2

theorem Linked.mem_right (h : t.Linked members a b) (ha : a ∈ members) : b ∈ members := by
  rcases h with rfl | ⟨g, hg, _, hb⟩
  · exact ha
  · exact mem_of_mem_mergeableGroups hg hb

end Groups

/-! ## Classes and kinds -/

section Kinds

variable {t u : NodeTable} {members : List Nat} {a b : Nat} {k : Special}

theorem mem_kinds : k ∈ t.kinds members ↔ ∃ m ∈ members, t.special? m = some k := by
  rw [kinds, List.mem_toFinset, List.mem_filterMap]

theorem mem_classesOf {r : Nat} : r ∈ t.classesOf members ↔ ∃ m ∈ members, t.root m = r := by
  rw [classesOf, List.mem_toFinset, List.mem_map]

/-- The members of a cycle that lacks a kind are in one class once its groups are merged. -/
theorem root_eq_of_kinds
    (hgroups : ∀ g ∈ t.mergeableGroups members, ∀ m ∈ g, ∀ n ∈ g, u.root m = u.root n)
    (hkinds : ∀ k ∈ t.kinds members, k.other ∉ t.kinds members) (ha : a ∈ members)
    (hb : b ∈ members) : u.root a = u.root b := by
  rcases linked_or_opposed ha hb (t := t) with hab | ⟨c, d, k, hac, hbd, hc, hd⟩
  · exact hab.root_eq hgroups
  · have hck : k ∈ t.kinds members := mem_kinds.2 ⟨c, hac.mem_right ha, hc⟩
    exact absurd (mem_kinds.2 ⟨d, hbd.mem_right hb, hd⟩) (hkinds k hck)

/-- One class for each kind that the cycle has, and one if it has none. -/
theorem Reachable.card_classesOf (ht : t.Reachable) (hu : u.Reachable) (h : t.Coarsens u)
    (hgroups : ∀ g ∈ t.mergeableGroups members, ∀ m ∈ g, ∀ n ∈ g, u.root m = u.root n)
    (hne : members ≠ []) : (u.classesOf members).card = max 1 (t.kinds members).card := by
  by_cases hkinds : ∀ k ∈ t.kinds members, k.other ∉ t.kinds members
  · obtain ⟨a, ha⟩ := List.exists_mem_of_ne_nil members hne
    have hclasses : u.classesOf members = {u.root a} := by
      ext r
      rw [mem_classesOf, Finset.mem_singleton]
      constructor
      · rintro ⟨m, hm, rfl⟩
        exact root_eq_of_kinds hgroups hkinds hm ha
      · rintro rfl
        exact ⟨a, ha, rfl⟩
    have hcard : (t.kinds members).card ≤ 1 := by
      refine Finset.card_le_one.2 fun k hk l hl => ?_
      rcases k.eq_or_eq_other l with hkl | hkl
      · exact hkl
      · exact absurd (hkl ▸ hk) (hkinds l hl)
    rw [hclasses, Finset.card_singleton, Nat.max_eq_left hcard]
  · obtain ⟨k, hk, hother⟩ : ∃ k ∈ t.kinds members, k.other ∈ t.kinds members := by
      simpa using hkinds
    obtain ⟨c, hc, hck⟩ := mem_kinds.1 hk
    obtain ⟨d, hd, hdk⟩ := mem_kinds.1 hother
    have hcoherent := ht.wellFormed.toCoherent
    have hopposed : u.Opposed c d := h.opposed
      ⟨k, hcoherent.holdsSpecial_of_special? hck, hcoherent.holdsSpecial_of_special? hdk⟩
    have hclasses : u.classesOf members = {u.root c, u.root d} := by
      ext r
      rw [mem_classesOf, Finset.mem_insert, Finset.mem_singleton]
      constructor
      · rintro ⟨m, hm, rfl⟩
        -- a member that is apart from `c` is with `d`, for there is no third kind
        rcases hcoherent.root_eq_or_opposed h hgroups hc hm with hcm | hcm
        · exact .inl hcm.symm
        · have hdm := hcoherent.root_eq_or_opposed h hgroups hd hm
          exact .inr (hdm.resolve_right (hu.not_opposed hopposed hcm)).symm
      · rintro (rfl | rfl)
        · exact ⟨c, hc, rfl⟩
        · exact ⟨d, hd, rfl⟩
    have hkinds : t.kinds members = {k, k.other} := by
      ext l
      rw [Finset.mem_insert, Finset.mem_singleton]
      refine ⟨fun _ => l.eq_or_eq_other k, ?_⟩
      rintro (rfl | rfl)
      · exact hk
      · exact hother
    rw [hclasses, hkinds, Finset.card_pair (hu.root_ne_of_opposed hopposed),
      Finset.card_pair k.other_ne.symm]
    rfl

end Kinds

end NodeTable

namespace Reduction

open NodeTable

/-- Without a bound on merges all groups of a cycle are merged. -/
theorem mergeGroups_collapses {t : NodeTable} {members : List Nat} (ht : t.Reachable)
    (hbound : t.maxMerges = none) (hne : members ≠ []) (hnodup : members.Nodup)
    (hroots : ∀ m ∈ members, t.root m = m ∧ m < t.size) :
    ∃ merges u, mergeGroups (t.mergeableGroups members) t = .ok merges u ∧
      (u.classesOf members).card = max 1 (t.kinds members).card := by
  have hjoinable : t.Joinable [] [members] :=
    { coherent := ht.wellFormed.toCoherent
      apart := ⟨by simpa using hnodup, by simpa using hroots⟩
      clashFree := fun _ hg => absurd hg List.not_mem_nil }
  -- nothing has to be kept apart here, so any labelling will do
  have hfuses := mergeGroups_fuses (f := fun _ => ()) (.refl ht.wellFormed fun _ _ _ => rfl)
    fun g (hg : g ∈ t.mergeableGroups members) m hm =>
      ⟨(hroots m (mem_of_mem_mergeableGroups hg hm)).2, fun _ _ => rfl⟩
  have hmerged : Action.Ends (mergeGroups (t.mergeableGroups members)) t
      (fun _ u => (u.classesOf members).card = max 1 (t.kinds members).card)
      (fun _ _ => False) := by
    refine (hfuses.and (mergeGroups_merges hjoinable.split)).imp ?_ ?_
    · rintro _ u ⟨⟨hfuses, hgroups, _⟩, _⟩
      exact ht.card_classesOf (hfuses.reachable ht) hfuses.coarsens hgroups hne
    · rintro e _ ⟨_, limit, hlimit, _⟩
      rw [hbound] at hlimit
      cases hlimit
  exact hmerged.exists_ok

end Reduction

end PointsTo

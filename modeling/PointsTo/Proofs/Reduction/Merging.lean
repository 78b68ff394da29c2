import PointsTo.Reduction
import PointsTo.Proofs.Action
import PointsTo.Proofs.NodeTable.Special

/-!
# What merging joins

Both passes of a reduction merge groups, and whether they merge well is a matter
of what they must not join. `Fuses f t u` says that on the way from `t` to `u`
only classes with the same value of `f` have been joined. What `f` is depends on
what is to be shown: the set that the least solution gives to a class, the copy
cycle that it is on, or its inputs.

If the values of `f` agree on each group, merging the groups joins nothing else,
and it also stays so if a merge fails on the way. Unless one does, the members of
a group are in one class in the end, and a pass that counts no merges has left
the table as it was.
-/

namespace PointsTo

namespace NodeTable

/-- The table `u` has the nodes of `t` in the same or larger classes. -/
structure Coarsens (t u : NodeTable) : Prop where
  nodes_eq : u.nodes = t.nodes
  classes (a b : Nat) : t.root a = t.root b → u.root a = u.root b

/-- The classes of `u` come of those of `t` by joining classes that `f` does not tell
apart. -/
structure Fuses {α : Type} (f : Nat → α) (t u : NodeTable) : Prop where
  wellFormed : u.WellFormed
  coarsens : t.Coarsens u
  agrees (a b : Nat) : u.root a = u.root b → f a = f b
  reachable : t.Reachable → u.Reachable

section Fuses

variable {α : Type} {f : Nat → α} {t u v : NodeTable} {a b rep : Nat}

theorem Coarsens.refl (t : NodeTable) : t.Coarsens t := ⟨rfl, fun _ _ h => h⟩

theorem Coarsens.trans (h : t.Coarsens u) (h' : u.Coarsens v) : t.Coarsens v :=
  ⟨h'.nodes_eq.trans h.nodes_eq, fun a b hab => h'.classes a b (h.classes a b hab)⟩

theorem Coarsens.root_root (h : t.Coarsens u) (ht : t.Coherent) (n : Nat) :
    u.root (t.root n) = u.root n :=
  h.classes _ _ (ht.root_root n)

theorem Coarsens.opposed (h : t.Coarsens u) (hab : t.Opposed a b) : u.Opposed a b :=
  hab.mono h.nodes_eq h.classes

theorem Coherent.merge_coarsens (ht : t.Coherent) (ha : a < t.size) (hb : b < t.size)
    (h : t.merge a b = .ok (rep, u)) : t.Coarsens u := by
  rcases ht.merge_cases ha hb h with ⟨_, _, rfl⟩ | ⟨_, gone, habs, _⟩
  · exact .refl u
  · exact ⟨habs.nodes_eq, fun _ _ hab => habs.root_eq_of_root_eq hab⟩

theorem Fuses.refl (ht : t.WellFormed) (hf : ∀ a b, t.root a = t.root b → f a = f b) :
    t.Fuses f t :=
  ⟨ht, .refl t, hf, id⟩

theorem Fuses.self (h : t.Fuses f u) : u.Fuses f u := .refl h.wellFormed h.agrees

theorem Fuses.trans (h : t.Fuses f u) (h' : u.Fuses f v) : t.Fuses f v :=
  ⟨h'.wellFormed, h.coarsens.trans h'.coarsens, h'.agrees, h'.reachable ∘ h.reachable⟩

/-- A merge of two nodes that `f` does not tell apart. -/
theorem Fuses.merge (h : t.Fuses f t) (ha : a < t.size) (hb : b < t.size) (hab : f a = f b)
    (hmerge : t.merge a b = .ok (rep, u)) :
    t.Fuses f u ∧ rep < u.size ∧ u.root rep = u.root a ∧ u.root b = u.root a := by
  have hcoarsens := h.wellFormed.merge_coarsens ha hb hmerge
  have hroot : ∀ n, f (t.root n) = f n := fun n => h.agrees _ _ (h.wellFormed.root_root n)
  rcases h.wellFormed.merge_cases ha hb hmerge with ⟨hsame, rfl, rfl⟩ | ⟨_, gone, habs, hcases⟩
  · exact ⟨h, h.wellFormed.root_lt ha, h.wellFormed.root_root a, hsame.symm⟩
  · have hends : f rep = f a ∧ f gone = f a := by
      rcases hcases with ⟨rfl, rfl⟩ | ⟨rfl, rfl⟩
      · exact ⟨hroot a, (hroot b).trans hab.symm⟩
      · exact ⟨(hroot b).trans hab.symm, hroot a⟩
    have hkeep : ∀ n, f (u.root n) = f n := by
      intro n
      rw [habs.root_eq]
      split
      next hgone => rw [hends.1, ← hends.2, ← hgone, hroot n]
      next => exact hroot n
    have hroots : u.root rep = rep ∧ u.root a = rep ∧ u.root b = rep := by
      simp only [habs.root_eq, habs.rep_root]
      rcases hcases with ⟨rfl, rfl⟩ | ⟨rfl, rfl⟩ <;> simp
    refine ⟨⟨habs.wellFormed h.wellFormed, hcoarsens, fun m n hmn => ?_,
      fun ht => ht.of_merge ha hb hmerge⟩, size_congr hcoarsens.nodes_eq ▸ habs.rep_lt,
      hroots.1.trans hroots.2.1.symm, hroots.2.2.trans hroots.2.1.symm⟩
    rw [← hkeep m, hmn, hkeep n]

/-- Members that are linked are in one class once the groups are merged. -/
theorem Linked.root_eq {members : List Nat} (h : t.Linked members a b)
    (hgroups : ∀ g ∈ t.mergeableGroups members, ∀ m ∈ g, ∀ n ∈ g, u.root m = u.root n) :
    u.root a = u.root b := by
  rcases h with rfl | ⟨g, hg, ha, hb⟩
  · rfl
  · exact hgroups g hg a ha b hb

/-- Once the groups of a cycle are merged, its members are in one class, or in two with
different kinds of special nodes. -/
theorem Coherent.root_eq_or_opposed (ht : t.Coherent) (h : t.Coarsens u) {members : List Nat}
    (hgroups : ∀ g ∈ t.mergeableGroups members, ∀ m ∈ g, ∀ n ∈ g, u.root m = u.root n)
    (ha : a ∈ members) (hb : b ∈ members) : u.root a = u.root b ∨ u.Opposed a b := by
  rcases linked_or_opposed ha hb (t := t) with hab | ⟨c, d, k, hac, hbd, hc, hd⟩
  · exact .inl (hab.root_eq hgroups)
  · have hcd : t.Opposed c d :=
      ⟨k, ht.holdsSpecial_of_special? hc, ht.holdsSpecial_of_special? hd⟩
    exact .inr ((h.opposed hcd).congr (hac.root_eq hgroups).symm (hbd.root_eq hgroups).symm)

end Fuses

end NodeTable

namespace Reduction

open NodeTable

section Merging

variable {α : Type} {f : Nat → α} {t : NodeTable} {cs : List Constraint} {g : List Nat}
  {groups : List (List Nat)}

/-- The members of a group are nodes that `f` does not tell apart. -/
def Alike (f : Nat → α) (t : NodeTable) (g : List Nat) : Prop :=
  ∀ a ∈ g, a < t.size ∧ ∀ b ∈ g, f a = f b

theorem Alike.congr {u : NodeTable} (hg : Alike f t g) (hnodes : u.nodes = t.nodes) :
    Alike f u g := by
  rwa [Alike, size_congr hnodes]

theorem merge_fuses {a b : Nat} (h : t.Fuses f t) (ha : a < t.size) (hb : b < t.size)
    (hab : f a = f b) :
    Action.Ends (merge a b) t
      (fun rep u => t.Fuses f u ∧ rep < u.size ∧ u.root rep = u.root a ∧ u.root b = u.root a)
      (fun _ u => t.Fuses f u) :=
  Action.ends_ofStep.2 ⟨fun _ _ hmerge => h.merge ha hb hab hmerge, fun _ _ => h⟩

theorem mergeGroup_fuses (h : t.Fuses f t) (hg : Alike f t g) :
    Action.Ends (mergeGroup g) t
      (fun n u => t.Fuses f u ∧ (∀ a ∈ g, ∀ b ∈ g, u.root a = u.root b) ∧ (n = 0 → u = t))
      (fun _ u => t.Fuses f u) := by
  match g, hg with
  | [], _ => exact ⟨h, fun _ ha => absurd ha List.not_mem_nil, fun _ => rfl⟩
  | [only], _ => exact ⟨h, by simp, fun _ => rfl⟩
  | first :: second :: rest, hg =>
      generalize hothers : second :: rest = others at hg ⊢
      have hfirst := hg first List.mem_cons_self
      -- the members that are behind are in the class merged so far
      refine Action.Ends.bind (Action.ends_foldlM (fun rest rep u => t.Fuses f u ∧
          rep < u.size ∧ f rep = f first ∧ rest ⊆ others ∧
          ∀ m ∈ first :: others, m ∈ rest ∨ u.root m = u.root rep) ?_
        ⟨h, hfirst.1, rfl, List.Subset.refl _, fun m hm => ?_⟩) ?_
      · rintro b rest rep u ⟨hu, hrep, heq, hsub, hbehind⟩
        have hb := hg b (List.mem_cons_of_mem first (hsub List.mem_cons_self))
        have hb' : b < u.size := size_congr hu.coarsens.nodes_eq ▸ hb.1
        refine (merge_fuses hu.self hrep hb' (heq.trans (hfirst.2 b ?_))).imp ?_
          fun _ _ hv => hu.trans hv
        · exact List.mem_cons_of_mem first (hsub List.mem_cons_self)
        · rintro rep' v ⟨hv, hrep', hroot, hroot'⟩
          refine ⟨hu.trans hv, hrep', (hv.agrees _ _ hroot).trans heq,
            List.subset_of_cons_subset hsub, fun m hm => ?_⟩
          rcases hbehind m hm with hm | hm
          · rcases List.mem_cons.1 hm with rfl | hm
            · exact .inr (hroot'.trans hroot.symm)
            · exact .inl hm
          · exact .inr ((hv.coarsens.classes m rep hm).trans hroot.symm)
      · rcases List.mem_cons.1 hm with rfl | hm
        · exact .inr rfl
        · exact .inl hm
      · rintro rep u ⟨hu, _, _, _, hbehind⟩
        have hall := fun m hm => (hbehind m hm).resolve_left List.not_mem_nil
        refine ⟨hu, fun a ha b hb => (hall a ha).trans (hall b hb).symm, fun hnone => ?_⟩
        rw [← hothers, List.length_cons] at hnone
        cases hnone

/-- A loop that merges for each of its elements, if what it has achieved for one stays true
of larger classes. -/
theorem foldlM_fuses {β : Type} {m : β → Action NodeTable Nat} {P : β → NodeTable → Prop}
    {xs : List β} (hP : ∀ x u v, u.Coarsens v → P x u → P x v) (h : t.Fuses f t)
    (hbody : ∀ x ∈ xs, ∀ u, t.Fuses f u → Action.Ends (m x) u
      (fun n v => u.Fuses f v ∧ P x v ∧ (n = 0 → v = u)) (fun _ v => u.Fuses f v)) :
    Action.Ends (xs.foldlM (fun count x => do return count + (← m x)) 0) t
      (fun n u => t.Fuses f u ∧ (∀ x ∈ xs, P x u) ∧ (n = 0 → u = t))
      (fun _ u => t.Fuses f u) := by
  refine (Action.ends_foldlM (fun rest count u => t.Fuses f u ∧ rest ⊆ xs ∧
      (∀ x ∈ xs, x ∈ rest ∨ P x u) ∧ (count = 0 → u = t)) ?_
    ⟨h, List.Subset.refl _, fun x hx => .inl hx, fun _ => rfl⟩).imp_ok ?_
  · rintro x rest count u ⟨hu, hsub, hbehind, hnone⟩
    refine Action.Ends.bind ((hbody x (hsub List.mem_cons_self) u hu).imp_error
      fun _ _ hv => hu.trans hv) ?_
    rintro n v ⟨hv, hx, hnone'⟩
    refine ⟨hu.trans hv, List.subset_of_cons_subset hsub, fun y hy => ?_, fun hsum => ?_⟩
    · rcases hbehind y hy with hy | hy
      · rcases List.mem_cons.1 hy with rfl | hy
        · exact .inr hx
        · exact .inl hy
      · exact .inr (hP y u v hv.coarsens hy)
    · obtain ⟨hcount, hn⟩ := Nat.add_eq_zero_iff.1 hsum
      exact (hnone' hn).trans (hnone hcount)
  · rintro n u ⟨hu, _, hbehind, hnone⟩
    exact ⟨hu, fun x hx => (hbehind x hx).resolve_left List.not_mem_nil, hnone⟩

theorem mergeGroups_fuses (h : t.Fuses f t) (hgroups : ∀ g ∈ groups, Alike f t g) :
    Action.Ends (mergeGroups groups) t
      (fun n u => t.Fuses f u ∧ (∀ g ∈ groups, ∀ a ∈ g, ∀ b ∈ g, u.root a = u.root b) ∧
        (n = 0 → u = t))
      (fun _ u => t.Fuses f u) :=
  foldlM_fuses (P := fun g u => ∀ a ∈ g, ∀ b ∈ g, u.root a = u.root b)
    (fun _ _ _ huv hu a ha b hb => huv.classes a b (hu a ha b hb)) h fun g hg _ hu =>
      mergeGroup_fuses hu.self ((hgroups g hg).congr hu.coarsens.nodes_eq)

/-- The classes on a cycle become one, or two that cannot be joined. -/
theorem collapseCycles_fuses (h : t.Fuses f t)
    (hcycles : ∀ cycle ∈ copyCycles cs, Alike f t cycle) :
    Action.Ends (collapseCycles cs) t
      (fun n u => t.Fuses f u ∧ (∀ cycle ∈ copyCycles cs, ∀ a ∈ cycle, ∀ b ∈ cycle,
        u.root a = u.root b ∨ u.Opposed a b) ∧ (n = 0 → u = t))
      (fun _ u => t.Fuses f u) := by
  refine foldlM_fuses (m := fun cycle => do mergeGroups ((← get).mergeableGroups cycle))
    (P := fun cycle u => ∀ a ∈ cycle, ∀ b ∈ cycle, u.root a = u.root b ∨ u.Opposed a b) ?_ h
    fun cycle hcycle u hu => ?_
  · exact fun _ _ _ huv hu a ha b hb =>
      (hu a ha b hb).imp (huv.classes a b) fun hab => huv.opposed hab
  · have halike := (hcycles cycle hcycle).congr hu.coarsens.nodes_eq
    rw [Action.ends_bind, Action.ends_get]
    refine (mergeGroups_fuses hu.self fun g hg a ha => ?_).imp_ok ?_
    · have hmem : ∀ m ∈ g, m ∈ cycle := fun m hm => mem_of_mem_mergeableGroups hg hm
      exact ⟨(halike a (hmem a ha)).1, fun b hb => (halike a (hmem a ha)).2 b (hmem b hb)⟩
    · rintro n v ⟨hv, hgroups, hnone⟩
      exact ⟨hv, fun a ha b hb =>
        hu.wellFormed.root_eq_or_opposed hv.coarsens hgroups ha hb, hnone⟩

end Merging

end Reduction

end PointsTo

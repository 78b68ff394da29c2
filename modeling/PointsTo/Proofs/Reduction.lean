import PointsTo.Config.Preset
import PointsTo.Proofs.Reduction.Passes
import PointsTo.Proofs.Solution

/-!
# The reduction keeps the least solution

A reduction only ever joins classes to which the least solution gives the same
set (`Reduces`), and it rewrites the constraints only in ways that no family of
sets that is constant on classes can tell. So the least solution over the new
classes is the old one (`Reduces.leastSolution_eq`).

That members of a copy cycle have the same set is seen along the cycle. For
closed classes the reason is leastness. Nothing but its inputs flows into a
closed class: no load writes to it, and a store reaches only classes that hold a
pointee. So giving it no more than its inputs, and all others what they have, is
still a solution, and the least solution cannot give it more. Two closed classes
with equal inputs have equal sets then.
-/

namespace PointsTo

namespace Reduction

section Resolve

variable {t u : NodeTable} {fieldSensitive : Bool} {cs : List Constraint} {S : Family}

/-- Families that are constant on classes do not see which member of a class an
operand is. -/
theorem holds_resolve_iff (hS : ∀ n, S (u.root n) = S n) (c : Constraint) :
    (resolve u c).Holds t fieldSensitive S ↔ c.Holds t fieldSensitive S := by
  unfold Constraint.Holds resolve
  cases hkind : c.kind <;> simp [hS]

/-- A copy of a class to itself says nothing. -/
theorem holds_of_isSelfCopy {c : Constraint} (h : c.isSelfCopy = true) :
    c.Holds t fieldSensitive S := by
  simp only [Constraint.isSelfCopy, Bool.and_eq_true, beq_iff_eq] at h
  simp [Constraint.Holds, h.1, h.2]

theorem forall_holds_tidy_iff :
    (∀ c ∈ (tidy cs).kept, c.Holds t fieldSensitive S) ↔
      ∀ c ∈ cs, c.Holds t fieldSensitive S := by
  constructor
  · intro h c hc
    cases hself : c.isSelfCopy with
    | true => exact holds_of_isSelfCopy hself
    | false => exact h c (mem_kept_tidy.2 ⟨hc, hself⟩)
  · exact fun h c hc => h c (mem_kept_tidy.1 hc).1

theorem forall_holds_resolveAll_iff (hS : ∀ n, S (u.root n) = S n) :
    (∀ c ∈ resolveAll u cs, c.Holds t fieldSensitive S) ↔
      ∀ c ∈ cs, c.Holds t fieldSensitive S := by
  simp [resolveAll, holds_resolve_iff hS]

end Resolve

/-- The classes of `u` come of those of `t` by joining classes with the same least
set. -/
def Reduces (fieldSensitive : Bool) (cs : List Constraint) (t u : NodeTable) : Prop :=
  t.Fuses (leastSolution t fieldSensitive cs) u

section Reduces

variable {t u w : NodeTable} {fieldSensitive : Bool} {cs ds : List Constraint}

theorem Reduces.refl (ht : t.WellFormed) : Reduces fieldSensitive cs t t :=
  NodeTable.Fuses.refl ht (leastSolution_solves t fieldSensitive cs).classes

/-- The least solution stays the least if the constraints have changed in a way
that families on the new classes do not see. -/
theorem Reduces.leastSolution_eq (h : Reduces fieldSensitive cs t u)
    (hds : ∀ S : Family, (∀ a b, u.root a = u.root b → S a = S b) →
      ((∀ c ∈ ds, c.Holds t fieldSensitive S) ↔ ∀ c ∈ cs, c.Holds t fieldSensitive S)) (n : Nat) :
    leastSolution u fieldSensitive ds n = leastSolution t fieldSensitive cs n := by
  have hnodes := h.coarsens.nodes_eq
  have hleast := leastSolution_solves t fieldSensitive cs
  refine (eq_leastSolution ⟨⟨fun c hc => ?_, fun v hv => ?_⟩, h.agrees⟩ (fun S hS m => ?_) n).symm
  · rw [c.holds_congr hnodes]
    exact (hds _ h.agrees).2 hleast.holds c hc
  · exact hleast.universal v ((NodeTable.isUniversal_congr hnodes v).1 hv)
  · refine leastSolution_subset ⟨⟨fun c hc => ?_, fun v hv => ?_⟩, fun a b hab => ?_⟩ m
    · refine (hds S hS.classes).1 (fun d hd => ?_) c hc
      exact (d.holds_congr hnodes fieldSensitive S).1 (hS.holds d hd)
    · exact hS.universal v ((NodeTable.isUniversal_congr hnodes v).2 hv)
    · exact hS.classes a b (h.coarsens.classes a b hab)

theorem Reduces.leastSolution_resolveAll (h : Reduces fieldSensitive cs t u) (n : Nat) :
    leastSolution u fieldSensitive (resolveAll u cs) n = leastSolution t fieldSensitive cs n :=
  h.leastSolution_eq (fun _ hS =>
    forall_holds_resolveAll_iff fun m => hS _ _ (h.wellFormed.root_root m)) n

/-! ## Copy cycles -/

/-- What a class holds is held all along the copies that leave it. -/
theorem subset_of_copies {S : Family} (hS : ∀ c ∈ ds, c.Holds t fieldSensitive S) {a b : Nat}
    (h : Relation.ReflTransGen (CopiesTo ds) a b) : S a ⊆ S b := by
  induction h with
  | refl => exact Set.Subset.rfl
  | tail _ hstep ih =>
      obtain ⟨c, hc, hkind, rfl, rfl⟩ := hstep
      have hholds := hS c hc
      simp only [Constraint.Holds, hkind] at hholds
      exact ih.trans hholds

theorem copyCycles_alike {S : Family} (hS : ∀ c ∈ ds, c.Holds t fieldSensitive S)
    (hrange : ∀ c ∈ ds, c.src < t.size) {cycle : List Nat} (hcycle : cycle ∈ copyCycles ds) :
    Alike S t cycle := by
  intro a ha
  constructor
  · obtain ⟨b, c, hc, _, rfl, rfl⟩ := exists_copiesTo_of_mem_copyCycles hcycle ha
    exact hrange c hc
  · intro b hb
    exact Set.Subset.antisymm (subset_of_copies hS (copyCycles_connected hcycle ha hb))
      (subset_of_copies hS (copyCycles_connected hcycle hb ha))

/-! ## Closed classes -/

/-- What the inputs of a class amount to in a family of sets. -/
def Inputs.value (inputs : Inputs) (S : Family) : Set Nat :=
  {o | o ∈ inputs.pointees ∨ ∃ m ∈ inputs.copies, o ∈ S m}

/-- The inputs of a class are part of it in every solution. -/
theorem value_subset {S : Family} (hS : ∀ c ∈ ds, c.Holds t fieldSensitive S) (n : Nat) :
    (inputsOf ds n).value S ⊆ S n := by
  rintro o (ho | ⟨m, hm, ho⟩)
  · obtain ⟨c, hc, hkind, rfl, rfl⟩ := mem_pointees_inputsOf.1 ho
    simpa only [Constraint.Holds, hkind] using hS c hc
  · obtain ⟨c, hc, hkind, rfl, rfl⟩ := mem_copies_inputsOf.1 hm
    have hholds := hS c hc
    simp only [Constraint.Holds, hkind] at hholds
    exact hholds ho

/-- The family that gives the class of `n` its inputs, and the others what `S` does. -/
def cut (u : NodeTable) (ds : List Constraint) (S : Family) (n : Nat) : Family :=
  fun m => if u.root m = n then (inputsOf ds n).value S else S m

theorem cut_self {S : Family} {m n : Nat} (h : u.root m = n) :
    cut u ds S n m = (inputsOf ds n).value S :=
  if_pos h

theorem cut_of_ne {S : Family} {m n : Nat} (h : u.root m ≠ n) : cut u ds S n m = S m :=
  if_neg h

theorem cut_subset {S : Family} (hu : u.WellFormed) (hS : S.Solves u fieldSensitive ds)
    (n m : Nat) : cut u ds S n m ⊆ S m := by
  by_cases hm : u.root m = n
  · rw [cut_self hm, ← hS.root_eq hu.toCoherent m, hm]
    exact value_subset hS.holds n
  · rw [cut_of_ne hm]

/-- A solution in which pointees are all that sets hold stays one if a class that
no load writes to and that holds no pointee is cut down to its inputs. -/
theorem cut_solves {S : Family} {n : Nat} (hu : u.WellFormed) (hS : S.Solves u fieldSensitive ds)
    (hresolved : ∀ c ∈ ds, u.root c.dest = c.dest)
    (hpointees : ∀ m, ∀ o ∈ S m, u.isPointee o = true)
    (hload : ∀ c ∈ ds, c.kind = .load → c.dest ≠ n) (hclosed : u.hasPointee n = false) :
    (cut u ds S n).Solves u fieldSensitive ds := by
  have hopen : ∀ o, u.isPointee o = true → u.root o ≠ n := by
    rintro o ho rfl
    rw [hu.hasPointee_root ho] at hclosed
    cases hclosed
  have hsub := cut_subset hu hS n
  refine ⟨⟨fun c hc => ?_, fun v hv => ?_⟩, fun a b hab => ?_⟩
  · have hholds := hS.holds c hc
    have hdest := hresolved c hc
    unfold Constraint.Holds at *
    split at hholds
    next hkind =>
      by_cases hn : c.dest = n
      · rw [cut_self (hdest.trans hn)]
        exact .inl (mem_pointees_inputsOf.2 ⟨c, hc, hkind, hn, rfl⟩)
      · rwa [cut_of_ne (hdest.symm ▸ hn)]
    next hkind =>
      intro o ho
      have ho' := hsub _ ho
      by_cases hn : c.dest = n
      · rw [cut_self (hdest.trans hn)]
        exact .inr ⟨c.src, mem_copies_inputsOf.2 ⟨c, hc, hkind, hn, rfl⟩, ho'⟩
      · rw [cut_of_ne (hdest.symm ▸ hn)]
        exact hholds ho'
    next hkind =>
      intro o ho x hx
      rw [cut_of_ne (hdest.symm ▸ hload c hc hkind)]
      exact hholds o (hsub _ ho) (hsub _ hx)
    next hkind =>
      intro o ho x hx
      have ho' := hsub _ ho
      rw [cut_of_ne (hopen _ (hu.isPointee_route (hpointees _ o ho') fieldSensitive c.offset))]
      exact hholds o ho' (hsub _ hx)
  · rw [cut_of_ne (hopen v (NodeTable.isPointee_of_isUniversal hv))]
    exact hS.universal v hv
  · simp only [cut, hab, hS.classes a b hab]

/-- The least solution gives a closed class its inputs and nothing else. -/
theorem leastSolution_eq_value (h : Reduces fieldSensitive cs t u)
    (hcs : ∀ c ∈ cs, c.flaw? t fieldSensitive = none) {n : Nat}
    (hn : n ∈ closedClasses u (resolveAll u cs)) :
    leastSolution t fieldSensitive cs n =
      (inputsOf (resolveAll u cs) n).value (leastSolution t fieldSensitive cs) := by
  have hleast : leastSolution u fieldSensitive (resolveAll u cs) =
      leastSolution t fieldSensitive cs := funext h.leastSolution_resolveAll
  have hsolves := leastSolution_solves u fieldSensitive (resolveAll u cs)
  have hresolved : ∀ c ∈ resolveAll u cs, u.root c.dest = c.dest := by
    intro c hc
    obtain ⟨d, _, rfl⟩ := List.mem_map.1 hc
    exact h.wellFormed.root_root d.dest
  obtain ⟨⟨c, hc, _, rfl⟩, hload, hclosed⟩ := mem_closedClasses.1 hn
  have hpointees : ∀ m, ∀ o ∈ leastSolution u fieldSensitive (resolveAll u cs) m,
      u.isPointee o = true := by
    intro m o ho
    rw [NodeTable.isPointee_congr h.coarsens.nodes_eq]
    exact isPointee_of_mem_leastSolution hcs (hleast ▸ ho)
  have hcut := cut_solves h.wellFormed hsolves hresolved hpointees hload hclosed
  rw [← hleast]
  refine Set.Subset.antisymm ?_ (value_subset hsolves.holds _)
  have hbound := leastSolution_subset hcut c.dest
  rwa [cut_self (hresolved c hc)] at hbound

theorem equalGroups_alike (h : Reduces fieldSensitive cs t u)
    (hcs : ∀ c ∈ cs, c.flaw? t fieldSensitive = none) {g : List Nat}
    (hg : g ∈ equalGroups u (resolveAll u cs)) :
    Alike (leastSolution t fieldSensitive cs) u g := by
  obtain ⟨key, hmem⟩ := exists_inputs_of_mem_equalGroups hg
  intro a ha
  obtain ⟨hclosed, hkey⟩ := hmem a ha
  constructor
  · obtain ⟨c, hc, rfl⟩ := exists_dest_of_mem_equalGroups hg ha
    rw [NodeTable.size_congr h.coarsens.nodes_eq]
    exact (lt_size_of_mem_resolveAll h.wellFormed.toCoherent h.coarsens.nodes_eq hcs hc).1
  · intro b hb
    obtain ⟨hclosed', hkey'⟩ := hmem b hb
    rw [leastSolution_eq_value h hcs hclosed, leastSolution_eq_value h hcs hclosed', hkey, hkey']

/-! ## Transparency -/

/-- A reduction joins only what the least solution does not tell apart, and also
one that fails does. -/
theorem reduce_ends (ht : t.WellFormed) (config : Config) (cs : List Constraint) :
    Action.Ends (reduce config cs) t
      (fun r v => Reduces config.fieldSensitive cs t v ∧ Normal cs v r)
      (fun _ v => Reduces config.fieldSensitive cs t v) := by
  have hstart : Reduces config.fieldSensitive cs t t := .refl ht
  have hleast := leastSolution_solves t config.fieldSensitive cs
  refine (reduce_induct (I := fun _ u => Reduces config.fieldSensitive cs t u) ht
    (fun _ _ => hstart) (fun _ => hstart) (fun hcs _ => ?_) fun hcs _ u _ hu => ?_).imp_ok
    fun _ _ hv => ⟨hv.1, hv.2.2.2⟩
  · have hholds := (forall_holds_resolveAll_iff (hleast.root_eq ht.toCoherent)).2 hleast.holds
    have hrange : ∀ c ∈ resolveAll t cs, c.src < t.size := fun c hc =>
      (lt_size_of_mem_resolveAll ht.toCoherent rfl hcs hc).2
    exact (collapseCycles_fuses hstart fun _ => copyCycles_alike hholds hrange).imp_ok
      fun _ _ hu => hu.1
  · rw [mergeEqual, Action.ends_bind, Action.ends_get]
    exact (mergeGroups_fuses hu.self fun g hg => equalGroups_alike hu hcs hg).imp
      (fun _ _ hv => hu.trans hv.1) fun _ _ hv => hu.trans hv

theorem leastSolution_reduce (ht : t.WellFormed) {config : Config} {stats : ReductionStats}
    (h : reduce config cs t = .ok (ds, stats) u) :
    u.WellFormed ∧ u.nodes = t.nodes ∧
      leastSolution u config.fieldSensitive ds = leastSolution t config.fieldSensitive cs := by
  obtain ⟨hu, hnormal⟩ := (reduce_ends ht config cs).of_eq_ok h
  obtain rfl : ds = (tidy (resolveAll u cs)).kept := hnormal.output_eq
  refine ⟨hu.wellFormed, hu.coarsens.nodes_eq, funext (hu.leastSolution_eq fun S hS => ?_)⟩
  have hclasses : ∀ n, S (u.root n) = S n := fun n => hS _ _ (hu.wellFormed.root_root n)
  exact forall_holds_tidy_iff.trans (forall_holds_resolveAll_iff hclasses)

/-- A reduction that succeeds leaves every node its set in the least solution,
whichever passes are on and whatever classes there were before. -/
theorem reduce_transparent (ht : t.Reachable) {config : Config} {stats : ReductionStats}
    (h : reduce config cs t = .ok (ds, stats) u) (n : Nat) :
    leastSolution u config.fieldSensitive ds n = leastSolution t config.fieldSensitive cs n :=
  congrFun (leastSolution_reduce ht.wellFormed h).2.2 n

/-- Both passes find something to merge. -/
theorem reduce_transparent_redundant :
    ∃ ds stats u, reduce (Preset.config .balanced) Constraint.redundant .sample =
        .ok (ds, stats) u ∧
      ds = [.addrOf 0 2, .store 0 0 1] ∧
      ∀ n, leastSolution u true ds n = leastSolution .sample true Constraint.redundant n := by
  have hreduces : ∃ r u, reduce (Preset.config .balanced) Constraint.redundant .sample =
      .ok r u ∧ r.1 = [.addrOf 0 2, .store 0 0 1] :=
    Action.Ends.exists_ok (by decide +kernel)
  obtain ⟨⟨ds, stats⟩, u, hreduce, hds⟩ := hreduces
  exact ⟨ds, stats, u, hreduce, hds, reduce_transparent NodeTable.reachable_sample hreduce⟩

end Reduces

end Reduction

end PointsTo

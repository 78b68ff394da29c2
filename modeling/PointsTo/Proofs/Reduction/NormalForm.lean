import PointsTo.Proofs.NodeTable.Classes
import PointsTo.Proofs.Reduction.Failure

/-!
# What a reduction gives

However the passes come by it, a reduction gives a normal form of its input for the
table that it leaves: every operand is led to its class, copies of a class to itself
are gone, and of equal constraints the first is left. Its statistics account for
every constraint that came in and for every merge.

The rounds end because one of them finds nothing. A round that is followed by
another has merged something, and there cannot be more merges than nodes, so the
bound on the rounds is never met (`equalize_add`).
-/

namespace PointsTo

namespace Reduction

open NodeTable

section Tidy

theorem selfCopies_tidy (cs : List Constraint) :
    (tidy cs).selfCopies = (cs.filter (·.isSelfCopy)).length := by
  induction cs using List.reverseRecOn with
  | nil => rfl
  | append_singleton cs c ih =>
      rw [tidy_concat, Tidied.add, List.filter_append, List.length_append, ← ih]
      cases hself : c.isSelfCopy with
      | true => simp [hself]
      | false =>
          cases hseen : (tidy cs).kept.contains c <;> simp [hself]

/-- A constraint is kept or counted. -/
theorem tidy_accounts (cs : List Constraint) :
    cs.length = (tidy cs).kept.length + (tidy cs).selfCopies + (tidy cs).duplicates := by
  induction cs using List.reverseRecOn with
  | nil => rfl
  | append_singleton cs c ih =>
      rw [tidy_concat, Tidied.add, List.length_append, List.length_singleton, ih]
      split
      next => dsimp only; omega
      next =>
        split
        next => dsimp only; omega
        next => simp only [List.length_append, List.length_singleton]; omega

end Tidy

/-! ## Rounds -/

section Rounds

variable {t : NodeTable} {fieldSensitive : Bool} {cs : List Constraint}

/-- Once there is a round for every class that could still be merged, more rounds would
make no difference. -/
theorem equalize_add (ht : t.Reachable) (hcs : ∀ c ∈ cs, c.flaw? t fieldSensitive = none)
    {fuel : Nat} (hfuel : t.size < t.merges + fuel) (more : Nat) :
    equalize (fuel + more) (resolveAll t cs) t = equalize fuel (resolveAll t cs) t := by
  induction fuel generalizing t with
  | zero =>
      have hcount := ht.card_roots_add_merges
      omega
  | succ fuel ih =>
      have hwf := ht.wellFormed
      have hled := led_of_flawless hwf.toCoherent rfl hcs
      rw [Nat.add_right_comm]
      refine Action.bind_congr_right ((mergeEqual_merges hwf hled).imp_ok fun n u hu => ?_)
      obtain ⟨⟨htu, _⟩, hmerges⟩ := hu
      by_cases hn : n = 0
      · rw [if_pos hn, if_pos hn]
      · have hfuel' : u.size < u.merges + fuel := by
          rw [size_congr hmerges.nodes_eq, hmerges.merges_eq]
          omega
        have hrest := ih (htu.reachable ht) (flawless_of_merges hmerges hcs) hfuel'
        rw [← resolveAll_resolveAll hwf.toCoherent htu.coarsens] at hrest
        rw [if_neg hn, if_neg hn]
        exact Action.bind_congr_left hrest _

end Rounds

/-! ## The normal form -/

section NormalForm

variable {t u : NodeTable} {config : Config} {cs ds : List Constraint} {stats : ReductionStats}

/-- A reduction that succeeds gives its input with every operand led to its class in the table
that it leaves, without copies of a class to itself, and with equal constraints listed once,
where the first of them was. What it reads as a set is the set of a class of this table. Each
constraint is counted as kept or dropped, and each merge is counted once. -/
theorem reduce_normal (ht : t.Reachable) (h : reduce config cs t = .ok (ds, stats) u) :
    ds = ((cs.map (resolve u)).filter (!·.isSelfCopy)).eraseDups ∧
    (∀ c ∈ ds, u.isRoot? c.dest = some true ∧
      (c.kind ≠ .addrOf → u.isRoot? c.src = some true)) ∧
    stats.inputConstraints = cs.length ∧ stats.outputConstraints = ds.length ∧
    stats.selfCopiesRemoved = ((cs.map (resolve u)).filter (·.isSelfCopy)).length ∧
    stats.inputConstraints =
      stats.outputConstraints + stats.selfCopiesRemoved + stats.duplicatesRemoved ∧
    u.merges = t.merges + (stats.cycleMerges + stats.equivalenceMerges) := by
  have hends := (reduce_ends ht.wellFormed config cs).and (reduce_merges ht.wellFormed config cs)
  rw [Action.Ends, h] at hends
  obtain ⟨⟨hreduces, hnormal⟩, hmerges, hcs, _⟩ := hends
  have hu := hreduces.wellFormed.toCoherent
  have hds : ds = (tidy (resolveAll u cs)).kept := hnormal.output_eq
  refine ⟨hds.trans (kept_tidy _), fun c hc => ?_, hnormal.inputConstraints_eq,
    hnormal.outputConstraints_eq, hnormal.selfCopies_eq.trans (selfCopies_tidy _), ?_,
    hmerges.merges_eq⟩
  · have hmem : c ∈ resolveAll u cs := (mem_kept_tidy.1 (hds ▸ hc)).1
    have hsize := size_congr hmerges.nodes_eq
    obtain ⟨hdest, hsrc⟩ := lt_size_of_mem_resolveAll hu hmerges.nodes_eq hcs hmem
    obtain ⟨hroot, hroot'⟩ := root_of_mem_resolveAll hu hmem
    have hisRoot : ∀ n, n < t.size → u.root n = n → u.isRoot? n = some true := fun n hn hself => by
      rw [isRoot?, if_pos (contains_iff.2 (hsize.symm ▸ hn)), hu.isRoot_iff.2 hself]
    exact ⟨hisRoot c.dest hdest hroot, fun hkind => hisRoot c.src hsrc (hroot' hkind)⟩
  · have haccounts := tidy_accounts (resolveAll u cs)
    rw [hnormal.inputConstraints_eq, hnormal.outputConstraints_eq, hnormal.selfCopies_eq,
      hnormal.duplicates_eq, hnormal.output_eq, ← haccounts, resolveAll, List.length_map]

/-- The cycle pass merges the fields, whose copies are dropped then, and the first of two
rounds the variables, whose address constraints become the same. -/
theorem reduce_normal_redundant :
    ∃ ds stats u, reduce (Preset.config .balanced) Constraint.redundant .sample =
        .ok (ds, stats) u ∧
      ds = [.addrOf 0 2, .store 0 0 1] ∧
      ds = ((Constraint.redundant.map (resolve u)).filter (!·.isSelfCopy)).eraseDups ∧
      stats.selfCopiesRemoved = 2 ∧ stats.duplicatesRemoved = 1 ∧ stats.equivalenceRounds = 2 ∧
      stats.inputConstraints =
        stats.outputConstraints + stats.selfCopiesRemoved + stats.duplicatesRemoved ∧
      u.merges = NodeTable.sample.merges + (stats.cycleMerges + stats.equivalenceMerges) := by
  have hreduces : ∃ r u, reduce (Preset.config .balanced) Constraint.redundant .sample =
      .ok r u ∧ r.1 = [.addrOf 0 2, .store 0 0 1] ∧ r.2.selfCopiesRemoved = 2 ∧
      r.2.duplicatesRemoved = 1 ∧ r.2.equivalenceRounds = 2 :=
    Action.Ends.exists_ok (by decide +kernel)
  obtain ⟨⟨ds, stats⟩, u, hreduce, hds, hself, hduplicates, hrounds⟩ := hreduces
  obtain ⟨hnormal, _, _, _, _, haccounts, hmerges⟩ :=
    reduce_normal NodeTable.reachable_sample hreduce
  exact ⟨ds, stats, u, hreduce, hds, hnormal, hself, hduplicates, hrounds, haccounts, hmerges⟩

end NormalForm

end Reduction

end PointsTo

import PointsTo.Proofs.Components
import PointsTo.Proofs.Constraint
import PointsTo.Proofs.Grouping
import PointsTo.Proofs.Reduction.Merging

/-!
# The passes of a reduction

A reduction follows its constraints through the passes: whenever classes have been
joined, the operands are led to the new ones. Leading them there step by step comes
to the same as doing it once in the end, and where it is left out, nothing was
joined. So there is no need to look at the constraints in between. At each stage
they are those that came in, led to the classes of that stage, and what is to be
shown of a reduction is shown of how its two passes merge (`reduce_induct`).
-/

namespace PointsTo

namespace Reduction

open NodeTable

section Resolve

variable {t u : NodeTable} {fieldSensitive : Bool} {cs : List Constraint}

theorem resolve_resolve (ht : t.Coherent) (h : t.Coarsens u) (c : Constraint) :
    resolve u (resolve t c) = resolve u c := by
  unfold resolve
  cases hkind : c.kind <;> simp [h.root_root ht]

theorem resolveAll_resolveAll (ht : t.Coherent) (h : t.Coarsens u) (cs : List Constraint) :
    resolveAll u (resolveAll t cs) = resolveAll u cs := by
  simp [resolveAll, resolve_resolve ht h]

/-- The operands of resolved constraints are nodes if those before were. -/
theorem lt_size_of_mem_resolveAll (hu : u.Coherent) (hnodes : u.nodes = t.nodes)
    (hcs : ∀ c ∈ cs, c.flaw? t fieldSensitive = none) {c : Constraint}
    (hc : c ∈ resolveAll u cs) : c.dest < t.size ∧ c.src < t.size := by
  obtain ⟨d, hd, rfl⟩ := List.mem_map.1 hc
  obtain ⟨hdest, hsrc⟩ := Constraint.lt_size_of_flaw? (hcs d hd)
  have hroot : ∀ n, n < t.size → u.root n < t.size := by
    intro n hn
    rw [← size_congr hnodes] at *
    exact hu.root_lt hn
  refine ⟨hroot d.dest hdest, ?_⟩
  rw [resolve]
  split
  next => exact hsrc
  next => exact hroot d.src hsrc

/-- Resolved operands are roots. -/
theorem root_of_mem_resolveAll (hu : u.Coherent) {c : Constraint} (hc : c ∈ resolveAll u cs) :
    u.root c.dest = c.dest ∧ (c.kind ≠ .addrOf → u.root c.src = c.src) := by
  obtain ⟨d, _, rfl⟩ := List.mem_map.1 hc
  refine ⟨hu.root_root d.dest, fun hkind => ?_⟩
  have hkind' : d.kind ≠ .addrOf := hkind
  rw [resolve, if_neg hkind']
  exact hu.root_root d.src

end Resolve

/-! ## Tidying up -/

section Tidy

variable {cs : List Constraint} {c : Constraint}

theorem tidy_concat (cs : List Constraint) (c : Constraint) :
    tidy (cs ++ [c]) = (tidy cs).add c := by
  simp [tidy]

/-- Self-copies are dropped, and what is left is listed where it occurs first. -/
theorem kept_tidy (cs : List Constraint) :
    (tidy cs).kept = (cs.filter (!·.isSelfCopy)).eraseDups := by
  induction cs using List.reverseRecOn with
  | nil => rfl
  | append_singleton cs c ih =>
      rw [tidy_concat, Tidied.add, List.filter_append]
      cases hself : c.isSelfCopy with
      | true => simp [hself, ih]
      | false =>
          have hlast : [c].filter (!·.isSelfCopy) = [c] := by simp [hself]
          have hseen : (tidy cs).kept.contains c = (cs.filter (!·.isSelfCopy)).contains c := by
            rw [ih, Bool.eq_iff_iff]
            simp
          rw [hlast, eraseDups_concat, ← ih, hseen]
          cases (cs.filter (!·.isSelfCopy)).contains c <;> rfl

theorem mem_kept_tidy : c ∈ (tidy cs).kept ↔ c ∈ cs ∧ c.isSelfCopy = false := by
  simp [kept_tidy]

end Tidy

/-! ## Copy cycles -/

section Copies

variable {cs : List Constraint} {a b : Nat}

/-- Some copy leads from `a` to `b`. -/
def CopiesTo (cs : List Constraint) (a b : Nat) : Prop :=
  ∃ c ∈ cs, c.kind = .copy ∧ c.dest = b ∧ c.src = a

instance : Decidable (CopiesTo cs a b) :=
  inferInstanceAs (Decidable (∃ c ∈ cs, c.kind = .copy ∧ c.dest = b ∧ c.src = a))

theorem mem_successors_copyEdges :
    b ∈ (Digraph.ofEdges (copyEdges cs)).successors a ↔ CopiesTo cs a b ∧ a ≠ b := by
  rw [Digraph.mem_successors_ofEdges]
  simp only [copyEdges, List.mem_map, List.mem_filter, Bool.and_eq_true, beq_iff_eq,
    Bool.not_eq_true', Prod.mk.injEq, CopiesTo, Constraint.isSelfCopy]
  constructor
  · rintro ⟨c, ⟨hc, hkind, hself⟩, rfl, rfl⟩
    refine ⟨⟨c, hc, hkind, rfl, rfl⟩, fun heq => ?_⟩
    simp [hkind, heq] at hself
  · rintro ⟨⟨c, hc, hkind, rfl, rfl⟩, hne⟩
    exact ⟨c, ⟨hc, hkind, by simp [hkind, Ne.symm hne]⟩, rfl, rfl⟩

/-- The search for cycles leaves out copies of a class to itself, which lead nowhere. -/
theorem reach_copyEdges_iff :
    (Digraph.ofEdges (copyEdges cs)).Reach a b ↔ Relation.ReflTransGen (CopiesTo cs) a b := by
  constructor
  · exact Relation.ReflTransGen.mono (fun _ _ h => (mem_successors_copyEdges.1 h).1) a b
  · intro h
    induction h with
    | refl => exact .refl
    | @tail b c _ hbc ih =>
        by_cases hne : b = c
        · exact hne ▸ ih
        · exact ih.tail (mem_successors_copyEdges.2 ⟨hbc, hne⟩)

/-- A copy leaves every class on a cycle. -/
theorem exists_copiesTo_of_mem_copyCycles {cycle : List Nat} (hcycle : cycle ∈ copyCycles cs)
    (ha : a ∈ cycle) : ∃ b, CopiesTo cs a b := by
  obtain ⟨b, hb⟩ := Digraph.exists_successor_of_mem_components hcycle ha
  exact ⟨b, (mem_successors_copyEdges.1 hb).1⟩

/-- The classes on a cycle lead to each other. -/
theorem copyCycles_connected {cycle : List Nat} (hcycle : cycle ∈ copyCycles cs)
    (ha : a ∈ cycle) (hb : b ∈ cycle) : Relation.ReflTransGen (CopiesTo cs) a b := by
  obtain ⟨_, hconnected⟩ := (Digraph.components_connected _ _).2 cycle hcycle
  exact reach_copyEdges_iff.1 (hconnected a ha b hb)

end Copies

/-! ## Closed classes -/

section Closed

variable {t : NodeTable} {cs : List Constraint} {g : List Nat} {n m o : Nat}

theorem mem_pointees_inputsOf :
    o ∈ (inputsOf cs n).pointees ↔ ∃ c ∈ cs, c.kind = .addrOf ∧ c.dest = n ∧ c.src = o := by
  simp [inputsOf, and_assoc]

theorem mem_copies_inputsOf : m ∈ (inputsOf cs n).copies ↔ CopiesTo cs m n := by
  simp [inputsOf, and_assoc, CopiesTo]

theorem mem_closedClasses :
    n ∈ closedClasses t cs ↔ (∃ c ∈ cs, c.isComplex = false ∧ c.dest = n) ∧
      (∀ c ∈ cs, c.kind = .load → c.dest ≠ n) ∧ t.hasPointee n = false := by
  simp only [closedClasses, List.mem_filter, ← NodeSet.mem_def, NodeSet.mem_ofList, List.mem_map]
  simp [and_assoc]

theorem equalGroups_eq (t : NodeTable) (cs : List Constraint) :
    equalGroups t cs =
      (groupsBy (inputsOf cs) (closedClasses t cs)).filter (1 < ·.length) := by
  simp [equalGroups, groupsBy, List.filter_map, Function.comp_def]

/-- The members of a group are the closed classes with the inputs of one of them. -/
theorem mem_equalGroups :
    g ∈ equalGroups t cs ↔ (∃ n ∈ closedClasses t cs,
      g = (closedClasses t cs).filter (inputsOf cs · == inputsOf cs n)) ∧ 1 < g.length := by
  rw [equalGroups_eq, List.mem_filter, mem_groupsBy, decide_eq_true_iff]

/-- A group consists of closed classes with the same inputs. -/
theorem exists_inputs_of_mem_equalGroups (hg : g ∈ equalGroups t cs) :
    ∃ key, ∀ a ∈ g, a ∈ closedClasses t cs ∧ inputsOf cs a = key := by
  obtain ⟨⟨n, _, rfl⟩, _⟩ := mem_equalGroups.1 hg
  refine ⟨inputsOf cs n, fun a ha => ?_⟩
  simpa using ha

/-- The members of a group are destinations. -/
theorem exists_dest_of_mem_equalGroups (hg : g ∈ equalGroups t cs) (hn : n ∈ g) :
    ∃ c ∈ cs, c.dest = n := by
  obtain ⟨_, hmem⟩ := exists_inputs_of_mem_equalGroups hg
  obtain ⟨⟨c, hc, _, hdest⟩, _⟩ := mem_closedClasses.1 (hmem n hn).1
  exact ⟨c, hc, hdest⟩

end Closed

/-! ## From pass to pass -/

/-- Whatever happens, a table only changes by classes being joined. -/
def Evolves (t u : NodeTable) : Prop := t.Fuses (fun _ => ()) u

section Evolves

variable {t : NodeTable}

theorem Evolves.refl (ht : t.WellFormed) : Evolves t t := Fuses.refl ht fun _ _ _ => rfl

theorem collapseCycles_evolves (ht : t.WellFormed) (cs : List Constraint)
    (hcs : ∀ c ∈ cs, c.src < t.size) :
    Action.Ends (collapseCycles cs) t (fun n u => Evolves t u ∧ (n = 0 → u = t))
      (fun _ _ => True) := by
  refine (collapseCycles_fuses (Evolves.refl ht) fun cycle hcycle a ha => ⟨?_, fun _ _ => rfl⟩).imp
    (fun _ _ hu => ⟨hu.1, hu.2.2⟩) fun _ _ _ => trivial
  obtain ⟨b, c, hc, _, rfl, rfl⟩ := exists_copiesTo_of_mem_copyCycles hcycle ha
  exact hcs c hc

theorem mergeEqual_evolves (ht : t.WellFormed) (cs : List Constraint)
    (hcs : ∀ c ∈ cs, c.dest < t.size) :
    Action.Ends (mergeEqual cs) t (fun n u => Evolves t u ∧ (n = 0 → u = t))
      (fun _ _ => True) := by
  rw [mergeEqual, Action.ends_bind, Action.ends_get]
  refine (mergeGroups_fuses (Evolves.refl ht) fun g hg a ha => ⟨?_, fun _ _ => rfl⟩).imp
    (fun _ _ hu => ⟨hu.1, hu.2.2⟩) fun _ _ _ => trivial
  obtain ⟨c, hc, rfl⟩ := exists_dest_of_mem_equalGroups hg ha
  exact hcs c hc

end Evolves

/-- The results of a reduction that ends with the table `u`. -/
structure Normal (cs : List Constraint) (u : NodeTable) (r : List Constraint × ReductionStats) :
    Prop where
  output_eq : r.1 = (tidy (resolveAll u cs)).kept
  inputConstraints_eq : r.2.inputConstraints = cs.length
  outputConstraints_eq : r.2.outputConstraints = r.1.length
  selfCopies_eq : r.2.selfCopiesRemoved = (tidy (resolveAll u cs)).selfCopies
  duplicates_eq : r.2.duplicatesRemoved = (tidy (resolveAll u cs)).duplicates

section Induct

variable {config : Config} {cs : List Constraint} {t : NodeTable} {I : Nat → NodeTable → Prop}
  {E : AnalysisError → NodeTable → Prop}

theorem equalize_induct (hcs : ∀ c ∈ cs, c.flaw? t config.fieldSensitive = none)
    (hround : ∀ n u, Evolves t u → I n u →
      Action.Ends (mergeEqual (resolveAll u cs)) u (fun m v => I (n + m) v) E)
    (fuel : Nat) {n : Nat} {u : NodeTable} (hu : Evolves t u) (h : I n u) :
    Action.Ends (equalize fuel (resolveAll u cs)) u
      (fun r v => I (n + r.2.2) v ∧ Evolves t v ∧ r.1 = resolveAll v cs) E := by
  induction fuel generalizing n u with
  | zero => exact ⟨h, hu, rfl⟩
  | succ fuel ih =>
      have hevolves := mergeEqual_evolves hu.wellFormed (resolveAll u cs) fun c hc =>
        size_congr hu.coarsens.nodes_eq ▸
          (lt_size_of_mem_resolveAll hu.wellFormed.toCoherent hu.coarsens.nodes_eq hcs hc).1
      refine Action.Ends.bind (((hround n u hu h).and hevolves).imp_error fun _ _ he => he.1) ?_
      rintro merged v ⟨hv, huv, hnone⟩
      rw [Action.ends_ite]
      constructor
      · rintro rfl
        obtain rfl : v = u := hnone rfl
        exact ⟨hv, hu, rfl⟩
      · intro _
        rw [Action.ends_bind, Action.ends_get,
          resolveAll_resolveAll hu.wellFormed.toCoherent huv.coarsens]
        refine (ih (hu.trans huv) hv).bind ?_
        rintro r w ⟨hw, hrest⟩
        refine ⟨?_, hrest⟩
        rwa [Nat.add_comm r.2.2 merged, ← Nat.add_assoc]

/-- What the merging of cycles keeps, counting merges, holds when the rounds begin. -/
theorem cyclePass_induct (ht : t.WellFormed)
    (hcs : ∀ c ∈ cs, c.flaw? t config.fieldSensitive = none)
    (hstart : config.cyclePass = false → I 0 t)
    (hcycles : config.cyclePass = true →
      Action.Ends (collapseCycles (resolveAll t cs)) t I E) :
    Action.Ends
      (if config.cyclePass then collapse (resolveAll t cs) else pure (resolveAll t cs, 0)) t
      (fun r u => I r.2 u ∧ Evolves t u ∧ r.1 = resolveAll u cs) E := by
  rw [Action.ends_ite]
  refine ⟨fun hpass => ?_, fun hpass => ⟨hstart (eq_false_of_ne_true hpass), .refl ht, rfl⟩⟩
  have hevolves := collapseCycles_evolves ht (resolveAll t cs) fun c hc =>
    (lt_size_of_mem_resolveAll ht.toCoherent rfl hcs hc).2
  refine Action.Ends.bind (((hcycles hpass).and hevolves).imp_error fun _ _ he => he.1) ?_
  rintro n u ⟨hu, htu, hnone⟩
  rw [Action.ends_ite]
  constructor
  · rintro rfl
    obtain rfl : u = t := hnone rfl
    exact ⟨hu, htu, rfl⟩
  · intro _
    exact ⟨hu, htu, resolveAll_resolveAll ht.toCoherent htu.coarsens cs⟩

/-- What the merging of cycles and each round keep, counting merges, holds in the end. -/
theorem reduce_induct (ht : t.WellFormed)
    (hinvalid : ∀ e, t.validate config.fieldSensitive cs = .error e → E e t)
    (hstart : config.cyclePass = false → I 0 t)
    (hcycles : (∀ c ∈ cs, c.flaw? t config.fieldSensitive = none) → config.cyclePass = true →
      Action.Ends (collapseCycles (resolveAll t cs)) t I E)
    (hround : (∀ c ∈ cs, c.flaw? t config.fieldSensitive = none) → ∀ n u, Evolves t u → I n u →
      Action.Ends (mergeEqual (resolveAll u cs)) u (fun m v => I (n + m) v) E) :
    Action.Ends (reduce config cs) t
      (fun r u => I (r.2.cycleMerges + r.2.equivalenceMerges) u ∧ Evolves t u ∧
        (∀ c ∈ cs, c.flaw? t config.fieldSensitive = none) ∧ Normal cs u r) E := by
  rw [reduce, Action.ends_bind, Action.ends_get, Action.ends_bind, Action.ends_ofExcept]
  refine ⟨fun _ hvalid => ?_, hinvalid⟩
  have hcs := NodeTable.validate_eq_ok_iff.1 hvalid
  refine (cyclePass_induct ht hcs hstart (hcycles hcs)).ite_bind fun r u hu => ?_
  obtain ⟨working, n⟩ := r
  obtain ⟨hn, htu, hworking⟩ := hu
  obtain rfl : working = resolveAll u cs := hworking
  have hsecond : Action.Ends
      (if config.equivalencePass then equalize (t.size + 1) (resolveAll u cs)
        else pure (resolveAll u cs, 0, 0)) u
      (fun r v => I (n + r.2.2) v ∧ Evolves t v ∧ r.1 = resolveAll v cs) E := by
    rw [Action.ends_ite]
    exact ⟨fun _ => equalize_induct hcs (hround hcs) _ htu hn, fun _ => ⟨hn, htu, rfl⟩⟩
  refine hsecond.ite_bind fun r v hv => ?_
  obtain ⟨working, rounds, merges⟩ := r
  obtain ⟨hn, htv, hworking⟩ := hv
  obtain rfl : working = resolveAll v cs := hworking
  exact ⟨hn, htv, hcs, rfl, rfl, rfl, rfl, rfl⟩

end Induct

end Reduction

end PointsTo

import PointsTo.Proofs.Solver.Fixpoint

/-!
# Which classes a solver ends with

The sets of a solved solver make a copy graph of the constraints
(`Family.Copies`), and the classes are the strongly connected components of this
graph, as far as special nodes permit (`Family.Partitions`).

No class is too large: at every moment the edges and classes of a store lie
within the copy graph, so whatever is merged lies in one component. No class is
too small: each copy is an edge in the end, and a solved solver has no cycle
left whose classes may be merged. The classes that may not are a class with a
null node and one with a node of unknown memory, so there are two of them in a
component.

Which of the two a variable of such a component belongs to is not determined by
the constraints. It depends on which node the search for cycles came upon first,
and so on the order in which nodes are popped.
-/

namespace PointsTo

namespace Family

/-- The classes of `u` are the components of the copy graph over `t`, except that
a component with classes of both kinds is not one class. -/
structure Partitions (S : Family) (t : NodeTable) (fieldSensitive : Bool) (cs : List Constraint)
    (u : NodeTable) : Prop where
  nodes_eq : u.nodes = t.nodes
  reachable : u.Reachable
  finer (a b : Nat) : t.root a = t.root b → u.root a = u.root b
  sameComponent (a b : Nat) : u.root a = u.root b → S.SameComponent t fieldSensitive cs a b
  root_eq_or_opposed (a b : Nat) :
    S.SameComponent t fieldSensitive cs a b → u.root a = u.root b ∨ u.Opposed a b

namespace Partitions

variable {S : Family} {t u v : NodeTable} {fieldSensitive : Bool} {cs : List Constraint}
  {a b c : Nat}

/-- To join the classes has not made for new paths. -/
theorem flows_iff (h : S.Partitions t fieldSensitive cs u) :
    S.Flows u fieldSensitive cs a b ↔ S.Flows t fieldSensitive cs a b := by
  refine ⟨fun hab => ?_, Flows.mono h.nodes_eq h.finer⟩
  induction hab with
  | refl => exact .refl
  | tail _ hstep ih =>
      rcases hstep with hclass | ⟨c, hc, hcopies⟩
      · exact ih.trans (h.sameComponent _ _ hclass).1
      · exact ih.tail (.inr ⟨c, hc, (Constraint.copies_congr h.nodes_eq fieldSensitive S c _ _).1
          hcopies⟩)

theorem sameComponent_iff (h : S.Partitions t fieldSensitive cs u) :
    S.SameComponent u fieldSensitive cs a b ↔ S.SameComponent t fieldSensitive cs a b :=
  and_congr h.flows_iff h.flows_iff

/-- A component that is not one class has nodes of both kinds. -/
theorem touches_both (h : S.Partitions t fieldSensitive cs u)
    (hab : S.SameComponent t fieldSensitive cs a b) (hne : u.root a ≠ u.root b) :
    S.Touches t fieldSensitive cs a .null ∧ S.Touches t fieldSensitive cs a .universal := by
  obtain ⟨k, ⟨x, hx, hxk⟩, y, hy, hyk⟩ := (h.root_eq_or_opposed a b hab).resolve_left hne
  rw [NodeTable.isSpecial_congr h.nodes_eq] at hxk hyk
  have hax := h.sameComponent a x hx.symm
  have hay := hab.trans (h.sameComponent b y hy.symm)
  cases k with
  | null => exact ⟨⟨x, hax, hxk⟩, y, hay, hyk⟩
  | universal => exact ⟨⟨y, hay, hyk⟩, x, hax, hxk⟩

/-- A component without nodes of both kinds is a class. -/
theorem root_eq_iff (h : S.Partitions t fieldSensitive cs u)
    (ha : ¬(S.Touches t fieldSensitive cs a .null ∧ S.Touches t fieldSensitive cs a .universal)) :
    u.root a = u.root b ↔ S.SameComponent t fieldSensitive cs a b := by
  refine ⟨h.sameComponent a b, fun hab => ?_⟩
  by_contra hne
  exact ha (h.touches_both hab hne)

/-- There are two classes at most in one component. -/
theorem root_eq_or_root_eq (h : S.Partitions t fieldSensitive cs u)
    (hab : S.SameComponent t fieldSensitive cs a b)
    (hac : S.SameComponent t fieldSensitive cs a c) (hne : u.root a ≠ u.root b) :
    u.root c = u.root a ∨ u.root c = u.root b := by
  by_contra hc
  rw [not_or] at hc
  obtain ⟨k, hak, hbk⟩ := (h.root_eq_or_opposed a b hab).resolve_left hne
  obtain ⟨l, hal, hcl⟩ := (h.root_eq_or_opposed a c hac).resolve_left (Ne.symm hc.1)
  obtain ⟨m, hbm, hcm⟩ :=
    (h.root_eq_or_opposed b c (hab.symm.trans hac)).resolve_left (Ne.symm hc.2)
  obtain rfl : k = l := h.reachable.special_unique hak hal
  obtain rfl : k.other = m := h.reachable.special_unique hbk hbm
  exact h.reachable.not_holdsSpecial_other hcl hcm

/-- What is one class in one of two partitions is one class in the other, too, or
divided between null and unknown memory there. -/
theorem alike (hu : S.Partitions t fieldSensitive cs u) (hv : S.Partitions t fieldSensitive cs v)
    (hab : u.root a = u.root b) : v.root a = v.root b ∨ v.Opposed a b :=
  hv.root_eq_or_opposed a b (hu.sameComponent a b hab)

theorem holdsSpecial (h : S.Partitions t fieldSensitive cs u) {k : Special}
    (ha : t.IsSpecial k a) (hab : u.root a = u.root b) : u.HoldsSpecial b k :=
  ⟨a, hab, (NodeTable.isSpecial_congr h.nodes_eq k a).2 ha⟩

/-- Special nodes of one class in one partition are of one class in any other. -/
theorem root_eq_of_isSpecial (hu : S.Partitions t fieldSensitive cs u)
    (hv : S.Partitions t fieldSensitive cs v) {k l : Special} (ha : t.IsSpecial k a)
    (hb : t.IsSpecial l b) (hab : u.root a = u.root b) : v.root a = v.root b := by
  obtain rfl : k = l :=
    hu.reachable.special_unique (hu.holdsSpecial ha hab) (hu.holdsSpecial hb rfl)
  refine (hu.alike hv hab).resolve_right ?_
  rintro ⟨m, ham, hbm⟩
  obtain rfl : k = m := hv.reachable.special_unique (hv.holdsSpecial ha rfl) ham
  exact hv.reachable.not_holdsSpecial_other (hv.holdsSpecial hb rfl) hbm

end Partitions

end Family

namespace Solver

/-! ## Solved solvers -/

section Solved

variable {s s₀ : Solver} {a b : Nat}

theorem Reached.reachable (hs₀ : s₀.Blank) (h : Reached s₀ s) (ht : s₀.table.Reachable) :
    s.table.Reachable := by
  have hlive : Live s₀ s → s.store.table.Reachable :=
    fun h => h.steps.reachable ((hs₀.enters h.valid).table_eq ▸ ht)
  cases h with
  | fresh => exact ht
  | refused hstore _ =>
      have htable : s.table = s₀.table := congrArg Store.table hstore
      rwa [htable]
  | failed h _ => exact hlive h
  | running h _ => exact hlive h.toLive
  | solved h _ _ => exact hlive h.toLive

variable (hs₀ : s₀.Blank) (h : Reached s₀ s) (hsolved : s.phase = .solved)

include hs₀ h hsolved

theorem Reached.collapsed : s.store.Collapsed :=
  (h.sound hs₀ (.inr hsolved)).watched.collapsed (h.drained hs₀ hsolved).2

/-- What has been merged lies in one component of the copy graph. -/
theorem Reached.sameComponent (hab : s.table.root a = s.table.root b) :
    s.family.SameComponent s₀.table s₀.config.fieldSensitive s₀.constraints a b := by
  have hS := h.family_solves hs₀ hsolved
  have hgrounded := h.grounded hs₀ hS.growsAlong_flows hS.toSatisfies
    (fun _ _ hclass => .single (.inl hclass))
    fun c hc _ _ hcopies => .single (.inr ⟨c, hc, hcopies⟩)
  exact ⟨hgrounded.classes a b hab, hgrounded.classes b a hab.symm⟩

/-- The edges of a solved solver make up the whole copy graph. -/
theorem Reached.connected
    (hab : s.family.Flows s₀.table s₀.config.fieldSensitive s₀.constraints a b) :
    s.store.Connected a b := by
  have hsound := h.sound hs₀ (.inr hsolved)
  have hext := h.extends hs₀
  refine Relation.ReflTransGen.mono (fun a b hstep => ?_) _ _ hab
  rcases hstep with hclass | ⟨c, hc, hcopies⟩
  · exact .inl (hext.classes a b hclass)
  · rw [family_eq (h.wellFormed hs₀), ← hsound.config_eq] at hcopies
    exact hsound.steady.linked (h.drained hs₀ hsolved).1 (hsound.toLive.records hs₀ c hc)
      ((Constraint.copies_congr hext.nodes_eq _ _ c a b).2 hcopies)

theorem Reached.partitions (ht : s₀.table.Reachable) :
    s.family.Partitions s₀.table s₀.config.fieldSensitive s₀.constraints s.table where
  nodes_eq := (h.extends hs₀).nodes_eq
  reachable := h.reachable hs₀ ht
  finer := (h.extends hs₀).classes
  sameComponent _ _ := h.sameComponent hs₀ hsolved
  root_eq_or_opposed a b hab := or_iff_not_imp_left.2 <|
    h.collapsed hs₀ hsolved a b (h.connected hs₀ hsolved hab.1) (h.connected hs₀ hsolved hab.2)

end Solved

section Exact

variable {t : NodeTable}

/-- The table that a solver ends with partitions the nodes of the one that it was
given. -/
theorem partitions_of_solved (ht : t.Reachable) (config : Config) (order : Schedule)
    (cs : List Constraint) (calls : List Call)
    (hsolved : ((new config order t cs).afterAll calls).phase = .solved) :
    ((new config order t cs).afterAll calls).family.Partitions t config.fieldSensitive cs
      ((new config order t cs).afterAll calls).table := by
  have h := (reached_new ht.wellFormed config order cs calls).partitions
    (blank_new ht.wellFormed config order cs) hsolved (ht.applyLimits config.limits)
  -- the limits that a solver puts in force take no part in it
  exact ⟨h.nodes_eq, h.reachable, h.finer, h.sameComponent, h.root_eq_or_opposed⟩

/-- The classes of a solved solver are the components of the copy graph of its
sets; only a component with null and with unknown memory may be two classes, one
for each of them. -/
theorem partition_exact (ht : t.Reachable) (config : Config) (order : Schedule)
    (cs : List Constraint) (calls : List Call)
    (hsolved : ((new config order t cs).afterAll calls).phase = .solved) :
    let s := (new config order t cs).afterAll calls
    (∀ a b, s.table.root a = s.table.root b →
      s.family.SameComponent t config.fieldSensitive cs a b) ∧
    (∀ a b, s.family.SameComponent s.table config.fieldSensitive cs a b →
      s.table.root a ≠ s.table.root b → s.table.Opposed a b ∧
        ∀ c, s.family.SameComponent s.table config.fieldSensitive cs a c →
          s.table.root c = s.table.root a ∨ s.table.root c = s.table.root b) ∧
    (∀ n k, s.table.HoldsSpecial n k → ¬s.table.HoldsSpecial n k.other) ∧
    ∀ a, ¬(s.family.Touches t config.fieldSensitive cs a .null ∧
        s.family.Touches t config.fieldSensitive cs a .universal) →
      ∀ b, s.table.root a = s.table.root b ↔
        s.family.SameComponent t config.fieldSensitive cs a b := by
  intro s
  have hs : s.family.Partitions t config.fieldSensitive cs s.table :=
    partitions_of_solved ht config order cs calls hsolved
  refine ⟨hs.sameComponent, fun a b hab hne => ?_, fun n k => hs.reachable.not_holdsSpecial_other,
    fun a ha b => hs.root_eq_iff ha⟩
  rw [hs.sameComponent_iff] at hab
  refine ⟨(hs.root_eq_or_opposed a b hab).resolve_left hne, fun c hac => ?_⟩
  exact hs.root_eq_or_root_eq hab (hs.sameComponent_iff.1 hac) hne

/-- With null and unknown memory in one component: the variable `1` is merged with
the null node `2`, and the node `3` of unknown memory stays apart. The sample
program has no special nodes. -/
theorem partition_exact_mixed :
    let s := (new ((Preset.config .thorough).set (.sccInterval 1)) .oldest .mixed
      Constraint.mixed).afterAll [.solve]
    let u := (new (Preset.config .thorough) .newest .sample Constraint.sample).afterAll [.solve]
    (s.phase = .solved ∧ s.family.SameComponent .mixed true Constraint.mixed 1 2 ∧
      s.family.SameComponent s.table true Constraint.mixed 1 3 ∧ s.table.Opposed 1 3) ∧
    u.phase = .solved ∧ u.table.root 1 = u.table.root 3 ∧ u.table.root 1 ≠ u.table.root 2 ∧
      ∀ a b, u.table.root a = u.table.root b ↔
        u.family.SameComponent .sample true Constraint.sample a b := by
  intro s u
  have hsolved : s.phase = .solved := by decide +kernel
  have hexact := partition_exact NodeTable.reachable_mixed _ _ _ _ hsolved
  have hmerged : s.table.root 1 = s.table.root 2 := by decide +kernel
  have hapart : s.table.root 1 ≠ s.table.root 3 := by decide +kernel
  have hcycle : s.family.SameComponent s.table true Constraint.mixed 1 3 :=
    ⟨.single (.inr ⟨.copy 3 1, by decide, rfl, rfl⟩),
      .single (.inr ⟨.copy 1 3, by decide, rfl, rfl⟩)⟩
  have hsolved' : u.phase = .solved := by decide +kernel
  have hexact' := partition_exact NodeTable.reachable_sample _ _ _ _ hsolved'
  have hplain : ∀ node ∈ NodeTable.sample.nodes, node.kind ≠ .special .null := by decide
  refine ⟨⟨hsolved, hexact.1 1 2 hmerged, hcycle, (hexact.2.1 1 3 hcycle hapart).1⟩, hsolved',
    by decide +kernel, by decide +kernel, fun a => hexact'.2.2.2 a ?_⟩
  rintro ⟨⟨x, _, node, hnode, hkind⟩, _⟩
  exact hplain node (Array.mem_of_getElem? hnode) hkind

end Exact

/-! ## Two runs -/

section Confluent

variable {t : NodeTable}

/-- Two solved runs over one program, whatever their orders of work, end with the
same sets, and with the same classes of special nodes and of all nodes whose
component has not both null and unknown memory. A class of one run may be divided
in the other only between null and unknown memory. -/
theorem partition_confluent (ht : t.Reachable) {config config' : Config}
    (hfields : config'.fieldSensitive = config.fieldSensitive) (order order' : Schedule)
    (cs : List Constraint) (calls calls' : List Call)
    (hsolved : ((new config order t cs).afterAll calls).phase = .solved)
    (hsolved' : ((new config' order' t cs).afterAll calls').phase = .solved) :
    let s := (new config order t cs).afterAll calls
    let s' := (new config' order' t cs).afterAll calls'
    s.family = s'.family ∧
    (∀ a b, s.table.root a = s.table.root b →
      s'.table.root a = s'.table.root b ∨ s'.table.Opposed a b) ∧
    (∀ k l a b, t.IsSpecial k a → t.IsSpecial l b →
      (s.table.root a = s.table.root b ↔ s'.table.root a = s'.table.root b)) ∧
    ∀ a, ¬(s.family.Touches t config.fieldSensitive cs a .null ∧
        s.family.Touches t config.fieldSensitive cs a .universal) →
      ∀ b, s.table.root a = s.table.root b ↔ s'.table.root a = s'.table.root b := by
  intro s s'
  have hfamily : s'.family = s.family := by
    funext n
    rw [family_eq_leastSolution ht.wellFormed config order cs calls hsolved,
      family_eq_leastSolution ht.wellFormed config' order' cs calls' hsolved', hfields]
  have hs : s.family.Partitions t config.fieldSensitive cs s.table :=
    partitions_of_solved ht config order cs calls hsolved
  have hs' : s.family.Partitions t config.fieldSensitive cs s'.table := by
    rw [← hfamily, ← hfields]
    exact partitions_of_solved ht config' order' cs calls' hsolved'
  refine ⟨hfamily.symm, fun a b => hs.alike hs', fun k l a b ha hb => ⟨?_, ?_⟩, fun a ha b => ?_⟩
  · exact hs.root_eq_of_isSpecial hs' ha hb
  · exact hs'.root_eq_of_isSpecial hs ha hb
  · exact (hs.root_eq_iff ha).trans (hs'.root_eq_iff ha).symm

/-- The mixed program with the two plain strategies. The class of `1` and null of
the first run is divided in the second. -/
theorem partition_confluent_mixed :
    let config := (Preset.config .thorough).set (.sccInterval 1)
    let s := (ofConfig (config.set (.worklist .fifo)) .mixed Constraint.mixed).afterAll [.solve]
    let s' := (ofConfig (config.set (.worklist .lifo)) .mixed Constraint.mixed).afterAll [.solve]
    s.phase = .solved ∧ s'.phase = .solved ∧ s.family = s'.family ∧
      s.table.root 1 = s.table.root 2 ∧ s'.table.Opposed 1 2 := by
  intro config s s'
  have hsolved : s.phase = .solved := by decide +kernel
  have hsolved' : s'.phase = .solved := by decide +kernel
  have hmerged : s.table.root 1 = s.table.root 2 := by decide +kernel
  have hapart : s'.table.root 1 ≠ s'.table.root 2 := by decide +kernel
  have hfields : (config.set (.worklist .lifo)).fieldSensitive =
      (config.set (.worklist .fifo)).fieldSensitive := rfl
  have hconfluent := partition_confluent NodeTable.reachable_mixed hfields _ _ _ _ _ hsolved
    hsolved'
  exact ⟨hsolved, hsolved', hconfluent.1, hmerged, (hconfluent.2.1 1 2 hmerged).resolve_left hapart⟩

/-- Two runs over the mixed program that differ in their strategy only end with
different classes. -/
theorem not_confluent_mixed :
    let config := (Preset.config .thorough).set (.sccInterval 1)
    let s := (ofConfig (config.set (.worklist .fifo)) .mixed Constraint.mixed).afterAll [.solve]
    let s' := (ofConfig (config.set (.worklist .lifo)) .mixed Constraint.mixed).afterAll [.solve]
    (s.phase = .solved ∧ s'.phase = .solved) ∧
      ¬∀ a b, s.table.root a = s.table.root b ↔ s'.table.root a = s'.table.root b := by
  intro config s s'
  refine ⟨⟨by decide +kernel, by decide +kernel⟩, fun hall => ?_⟩
  have hmerged : s.table.root 1 = s.table.root 2 := by decide +kernel
  have hapart : s'.table.root 1 ≠ s'.table.root 2 := by decide +kernel
  exact hapart ((hall 1 2).1 hmerged)

end Confluent

end Solver

end PointsTo
